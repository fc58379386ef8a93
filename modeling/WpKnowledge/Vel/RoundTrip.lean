import WpKnowledge.Vel.Parse

/-!
# Writing definitions and reading them back

Definitions are written in the syntax of the language, one on each line, with any white
space where it may stand.  The parser finds strings and calls by their ends and gives
them back; only the arguments of a call it cuts at every comma, also at those of a
label.

Main results:

- Theorem {lit}`parseExpr_literal`: a string is read back.
- Theorems {lit}`parseExpr_call` and {lit}`exists_parseExpr_call_error`: a call is read
  back if its label has no comma, and is an error otherwise.
- Theorem {lit}`parse_written_iff`: definitions are read back exactly when no label has
  a comma.
-/

namespace WpKnowledge.Vel

/-! ## Writing -/

/-- White space within a line. -/
def Blank := {s : List Char // ∀ c ∈ s, isWhitespace c = true ∧ c ≠ '\n'}

/-- No white space. -/
def Blank.empty : Blank := ⟨[], by simp⟩

/-- One space. -/
def Blank.space : Blank := ⟨[' '], by simp [isWhitespace]⟩

/-- The white space of a line, in the order it stands there. -/
structure Layout where
  indent : Blank
  afterName : Blank
  afterEquals : Blank
  afterCallee : Blank
  beforePeriod : Blank
  afterPeriod : Blank
  beforeBucket : Blank
  afterBucket : Blank
  beforePrefix : Blank
  afterPrefix : Blank
  trailing : Blank

/-- The white space the documentation writes. -/
def Layout.standard : Layout where
  indent := .empty
  afterName := .space
  afterEquals := .space
  afterCallee := .empty
  beforePeriod := .empty
  afterPeriod := .empty
  beforeBucket := .space
  afterBucket := .empty
  beforePrefix := .space
  afterPrefix := .empty
  trailing := .empty

/-- A text between quotes. -/
def quoted (s : List Char) : List Char :=
  '"' :: s ++ ['"']

/-- A number in decimal digits. -/
def decimal (n : UInt64) : List Char :=
  Nat.toDigits 10 n.toNat

/-- The function of a slot. -/
def callee (offsetSlots : Int64) : String :=
  if offsetSlots = 0 then "phase_now" else "phase_next"

/-- The three arguments of a call. -/
def arguments (layout : Layout) (periodS bucketS : UInt64) (prefixText : String) : List Char :=
  decimal periodS ++ layout.afterPeriod.val ++ ',' ::
    (layout.beforeBucket.val ++ (decimal bucketS ++ layout.afterBucket.val) ++ ',' ::
      (layout.beforePrefix.val ++ quoted prefixText.toList))

/-- An assigned expression. -/
def VarDef.expression (layout : Layout) : VarDef → List Char
  | literal _ value => quoted value.toList
  | phaseBucket _ periodS bucketS offsetSlots prefixText =>
      (callee offsetSlots).toList ++ layout.afterCallee.val ++ '(' ::
        (layout.beforePeriod.val ++
          (arguments layout periodS bucketS prefixText ++ layout.afterPrefix.val) ++ [')'])

/-- An assignment, without the white space around it. -/
def VarDef.assignment (layout : Layout) (d : VarDef) : List Char :=
  '$' :: d.name.toList ++ layout.afterName.val ++ '=' ::
    (layout.afterEquals.val ++ d.expression layout)

/-- The line of an assignment. -/
def VarDef.line (layout : Layout) (d : VarDef) : List Char :=
  layout.indent.val ++ (d.assignment layout ++ layout.trailing.val)

/-- Lines with newlines between them; the last one may have one, too. -/
def codeOf (newline : Bool) : List (List Char) → List Char
  | [] => []
  | [last] => last ++ if newline then ['\n'] else []
  | line :: lines => line ++ '\n' :: codeOf newline lines

/-- One assignment on each line, the last one with or without a newline. -/
def written (newline : Bool) : List (VarDef × Layout) → List Char
  | [] => []
  | [w] => w.1.line w.2 ++ if newline then ['\n'] else []
  | w :: ws => w.1.line w.2 ++ '\n' :: written newline ws

/-! ## What is written -/

/-- A name starts with a letter or an underscore and goes on with these and digits. -/
def IsName (name : String) : Prop :=
  name ≠ "" ∧ (∀ c ∈ name.toList.head?, isNameStart c = true) ∧
    ∀ c ∈ name.toList, isNameChar c = true

/-- A text that fits between quotes on a line. -/
def IsPlain (text : String) : Prop :=
  '"' ∉ text.toList ∧ '\n' ∉ text.toList

/-- A definition that can be written: a string or a call of one of the two functions. -/
def VarDef.IsWritable : VarDef → Prop
  | literal name value => IsName name ∧ IsPlain value
  | phaseBucket name _ _ offsetSlots prefixText =>
      IsName name ∧ (offsetSlots = 0 ∨ offsetSlots = 1) ∧ IsPlain prefixText

/-- The label of a call has no comma. -/
def VarDef.NoComma : VarDef → Prop
  | literal _ _ => True
  | phaseBucket _ _ _ _ prefixText => ',' ∉ prefixText.toList

/-! ## Characters -/

/-- White space is below the visible ASCII characters or above them. -/
theorem lt_or_le_of_isWhitespace {c : Char} (h : isWhitespace c = true) :
    c.toNat < 33 ∨ 128 ≤ c.toNat := by
  simp only [isWhitespace, Bool.or_eq_true, Bool.and_eq_true, decide_eq_true_eq, beq_iff_eq] at h
  omega

/-- A visible ASCII character is no white space. -/
theorem isWhitespace_eq_false {c : Char} (hlow : 33 ≤ c.toNat) (hhigh : c.toNat < 128) :
    isWhitespace c = false := by
  by_contra h
  rw [Bool.not_eq_false] at h
  have hspace := lt_or_le_of_isWhitespace h
  omega

/-- A visible ASCII character is not in white space. -/
theorem Blank.notMem (blank : Blank) {c : Char} (hlow : 33 ≤ c.toNat) (hhigh : c.toNat < 128) :
    c ∉ blank.val := by
  intro hmem
  have hspace := lt_or_le_of_isWhitespace (blank.property c hmem).1
  omega

/-- A newline is not in white space within a line. -/
theorem Blank.newline_notMem (blank : Blank) : '\n' ∉ blank.val :=
  fun hmem => (blank.property '\n' hmem).2 rfl

/-- White space is trimmed off around a text that starts and ends with none. -/
theorem trim_blank (left right : Blank) {s : List Char}
    (hhead : ∀ c ∈ s.head?, isWhitespace c = false)
    (hlast : ∀ c ∈ s.getLast?, isWhitespace c = false) :
    trim (left.val ++ (s ++ right.val)) = s :=
  Foundation.trimBy_append_append (fun c hc => (left.property c hc).1)
    (fun c hc => (right.property c hc).1) hhead hlast

/-- A letter is a visible ASCII character. -/
theorem toNat_of_isAlpha {c : Char} (h : c.isAlpha = true) : 65 ≤ c.toNat ∧ c.toNat < 123 := by
  have hranges : (decide ('A'.val ≤ c.val ∧ c.val ≤ 'Z'.val) ||
      (decide ('a'.val ≤ c.val) && decide (c.val ≤ 'z'.val))) = true := h
  simp only [Bool.or_eq_true, Bool.and_eq_true, decide_eq_true_eq,
    UInt32.le_iff_toNat_le] at hranges
  change (65 ≤ c.toNat ∧ c.toNat ≤ 90) ∨ (97 ≤ c.toNat ∧ c.toNat ≤ 122) at hranges
  omega

/-- A digit is a visible ASCII character. -/
theorem toNat_of_isDigit {c : Char} (h : c.isDigit = true) : 48 ≤ c.toNat ∧ c.toNat < 58 := by
  have hrange : (decide ('0'.val ≤ c.val) && decide (c.val ≤ '9'.val)) = true := h
  simp only [Bool.and_eq_true, decide_eq_true_eq, UInt32.le_iff_toNat_le] at hrange
  change 48 ≤ c.toNat ∧ c.toNat ≤ 57 at hrange
  omega

/-- A letter, a digit or an underscore is a visible ASCII character that is no sign of
the syntax. -/
theorem toNat_of_isNameChar {c : Char} (h : isNameChar c = true) :
    48 ≤ c.toNat ∧ c.toNat < 123 ∧ c ≠ '=' := by
  have hsign : ('='.isAlphanum || '=' == '_') = false := by decide
  have hne : c ≠ '=' := by
    rintro rfl
    rw [isNameChar, hsign] at h
    exact Bool.false_ne_true h
  have hkinds : (c.isAlpha || c.isDigit || c == '_') = true := h
  rw [Bool.or_eq_true, Bool.or_eq_true, beq_iff_eq] at hkinds
  rcases hkinds with (h | h) | rfl
  · have hletter := toNat_of_isAlpha h
    exact ⟨by omega, hletter.2, hne⟩
  · have hdigit := toNat_of_isDigit h
    exact ⟨hdigit.1, by omega, hne⟩
  · exact ⟨by decide, by decide, hne⟩

/-! ## Numbers -/

/-- The digits of a number are digits. -/
theorem isDigit_of_mem_decimal {n : UInt64} {c : Char} (hc : c ∈ decimal n) : c.isDigit = true :=
  Nat.isDigit_of_mem_toDigits (by decide) (by decide) hc

/-- What is no digit is not in a number. -/
theorem notMem_decimal {c : Char} (hc : c.isDigit = false) (n : UInt64) : c ∉ decimal n := by
  intro hmem
  rw [isDigit_of_mem_decimal hmem] at hc
  exact Bool.false_ne_true hc.symm

/-- A number has digits. -/
theorem decimal_ne_nil (n : UInt64) : decimal n ≠ [] :=
  List.length_pos_iff.mp Nat.length_toDigits_pos

/-- A number is read back. -/
theorem parseU64_decimal (n : UInt64) : parseU64 (decimal n) = some n := by
  have hplus : (decimal n).head? ≠ some '+' := by
    intro hhead
    exact notMem_decimal (by decide) n (List.mem_of_mem_head? hhead)
  have hempty : (decimal n).isEmpty = false := by
    simpa using decimal_ne_nil n
  have hall : (decimal n).all Char.isDigit = true :=
    List.all_eq_true.mpr fun c hc => isDigit_of_mem_decimal hc
  have hvalue : Nat.ofDigitChars 10 (decimal n) 0 = n.toNat := Nat.ofDigitChars_ten_toDigits
  rw [parseU64, if_neg hplus]
  simp only [hempty, hall, hvalue]
  rw [if_neg (by simp), if_pos n.toNat_lt, UInt64.ofNat_toNat]

/-- White space around a number is trimmed off. -/
theorem trim_blank_decimal (left right : Blank) (n : UInt64) :
    trim (left.val ++ (decimal n ++ right.val)) = decimal n := by
  have hdigit : ∀ c ∈ decimal n, isWhitespace c = false := by
    intro c hc
    have hrange := toNat_of_isDigit (isDigit_of_mem_decimal hc)
    exact isWhitespace_eq_false (by omega) (by omega)
  apply trim_blank
  · intro c hc
    exact hdigit c (List.mem_of_mem_head? hc)
  · intro c hc
    exact hdigit c (List.mem_of_mem_getLast? hc)

/-! ## Strings -/

/-- A string starts with a quote. -/
@[simp]
theorem head?_quoted (s : List Char) : (quoted s).head? = some '"' :=
  rfl

/-- A string ends with a quote. -/
@[simp]
theorem getLast?_quoted (s : List Char) : (quoted s).getLast? = some '"' :=
  List.getLast?_concat

/-- White space around a string is trimmed off. -/
theorem trim_blank_quoted (left right : Blank) (s : List Char) :
    trim (left.val ++ (quoted s ++ right.val)) = quoted s := by
  have hquote : isWhitespace '"' = false := by decide
  apply trim_blank
  · simp [hquote]
  · simp [hquote]

section Expressions

variable (isPrintable : Char → Bool)

/-- Nothing may follow an expression. -/
theorem validateTail_nil (whole : List Char) : validateTail isPrintable [] whole = .ok () :=
  rfl

/-- A string is read back. -/
theorem parseExpr_literal (name : String) {value : String} (hplain : IsPlain value) :
    parseExpr isPrintable name (quoted value.toList) = .ok (.literal name value) := by
  have htrim : trim (quoted value.toList) = quoted value.toList := by
    have hblank := trim_blank_quoted Blank.empty Blank.empty value.toList
    rwa [Blank.empty, List.append_nil] at hblank
  have hcut : Foundation.cutFirst '"' (quoted value.toList).tail = some (value.toList, []) :=
    Foundation.cutFirst_append_cons hplain.1 []
  rw [parseExpr, htrim]
  simp only [hcut, head?_quoted, if_true, validateTail_nil, String.ofList_toList]
  rfl

/-- The label of a call is read back. -/
theorem prefixArg_quoted (prefixText : String) :
    prefixArg isPrintable (some (quoted prefixText.toList)) = .ok prefixText := by
  have hquoted : (quoted prefixText.toList).head? = some '"' ∧
      (quoted prefixText.toList).getLast? = some '"' ∧
        2 ≤ (quoted prefixText.toList).length :=
    ⟨rfl, getLast?_quoted _, by simp [quoted]⟩
  have hinner : (quoted prefixText.toList).tail.dropLast = prefixText.toList := by
    simp [quoted]
  rw [prefixArg, if_pos hquoted, hinner, String.ofList_toList]

/-- A number of seconds is read back. -/
theorem num_decimal (fname : String) (n : UInt64) : num isPrintable fname (decimal n) = .ok n := by
  rw [num, parseU64_decimal]

/-! ## Calls -/

variable (layout : Layout) (periodS bucketS : UInt64) (prefixText : String)

/-- The arguments start with a digit. -/
theorem head?_arguments :
    ∀ c ∈ (arguments layout periodS bucketS prefixText).head?, isWhitespace c = false := by
  obtain ⟨digit, digits, hdecimal⟩ := List.exists_cons_of_ne_nil (decimal_ne_nil periodS)
  have hmem : digit ∈ decimal periodS := hdecimal ▸ List.mem_cons_self
  have hrange := toNat_of_isDigit (isDigit_of_mem_decimal hmem)
  intro c hc
  rw [arguments, hdecimal] at hc
  cases hc
  exact isWhitespace_eq_false (by omega) (by omega)

/-- The arguments end with a quote. -/
theorem getLast?_arguments :
    ∀ c ∈ (arguments layout periodS bucketS prefixText).getLast?, isWhitespace c = false := by
  have hquote : isWhitespace '"' = false := by decide
  have hlast : (arguments layout periodS bucketS prefixText).getLast? = some '"' := by
    simp [arguments, List.getLast?_append, List.getLast?_cons]
  rw [hlast]
  simp [hquote]

/-- The first two arguments of a call are read back; those of its label follow. -/
theorem splitArgs_arguments :
    splitArgs (layout.beforePeriod.val ++
        (arguments layout periodS bucketS prefixText ++ layout.afterPrefix.val)) =
      decimal periodS :: decimal bucketS ::
        ((layout.beforePrefix.val ++ quoted prefixText.toList).splitOn ',').map trim := by
  have htrim := trim_blank layout.beforePeriod layout.afterPrefix
    (head?_arguments layout periodS bucketS prefixText)
    (getLast?_arguments layout periodS bucketS prefixText)
  have hne : (arguments layout periodS bucketS prefixText).isEmpty = false := by
    simp [arguments]
  have hperiod : ',' ∉ decimal periodS ++ layout.afterPeriod.val := by
    rw [List.mem_append, not_or]
    exact ⟨notMem_decimal (by decide) _, layout.afterPeriod.notMem (by decide) (by decide)⟩
  have hbucket : ',' ∉ layout.beforeBucket.val ++ (decimal bucketS ++ layout.afterBucket.val) := by
    rw [List.mem_append, List.mem_append, not_or, not_or]
    exact ⟨layout.beforeBucket.notMem (by decide) (by decide), notMem_decimal (by decide) _,
      layout.afterBucket.notMem (by decide) (by decide)⟩
  have hfirst : trim (decimal periodS ++ layout.afterPeriod.val) = decimal periodS :=
    trim_blank_decimal Blank.empty layout.afterPeriod periodS
  rw [splitArgs, htrim]
  simp only [hne, Bool.false_eq_true, if_false]
  rw [arguments, List.splitOn_append_cons_self_of_not_mem hperiod,
    List.splitOn_append_cons_self_of_not_mem hbucket, List.map_cons, List.map_cons, hfirst,
    trim_blank_decimal]

/-- A label without a comma is one argument. -/
theorem splitOn_label (h : ',' ∉ prefixText.toList) :
    ((layout.beforePrefix.val ++ quoted prefixText.toList).splitOn ',').map trim =
      [quoted prefixText.toList] := by
  have hnone : ',' ∉ layout.beforePrefix.val ++ quoted prefixText.toList := by
    rw [List.mem_append, not_or]
    exact ⟨layout.beforePrefix.notMem (by decide) (by decide), by simpa [quoted] using h⟩
  have htrim : trim (layout.beforePrefix.val ++ quoted prefixText.toList) =
      quoted prefixText.toList := by
    have hright := trim_blank_quoted layout.beforePrefix Blank.empty prefixText.toList
    rwa [Blank.empty, List.append_nil] at hright
  rw [List.splitOn_eq_singleton hnone, List.map_singleton, htrim]

/-- A label with a comma is more than one argument. -/
theorem exists_splitOn_label (h : ',' ∈ prefixText.toList) :
    ∃ a b rest, ((layout.beforePrefix.val ++ quoted prefixText.toList).splitOn ',').map trim =
      a :: b :: rest := by
  obtain ⟨left, right, hsplit, hleft⟩ := List.eq_append_cons_of_mem h
  have hshape : layout.beforePrefix.val ++ quoted prefixText.toList =
      (layout.beforePrefix.val ++ '"' :: left) ++ ',' :: (right ++ ['"']) := by
    simp [quoted, hsplit]
  obtain ⟨piece, pieces, hpieces⟩ :=
    List.exists_cons_of_ne_nil (List.splitOn_ne_nil ',' (right ++ ['"']))
  have hfirst : ',' ∉ layout.beforePrefix.val ++ '"' :: left := by
    rw [List.mem_append, not_or]
    exact ⟨layout.beforePrefix.notMem (by decide) (by decide), by simpa using hleft⟩
  rw [hshape, List.splitOn_append_cons_self_of_not_mem hfirst, hpieces]
  exact ⟨_, _, _, rfl⟩

/-- The start of a callee. -/
theorem head?_callee (offsetSlots : Int64) :
    (callee offsetSlots).toList.head? = some 'p' := by
  rw [callee]
  split_ifs <;> rfl

/-- The end of a callee is no white space. -/
theorem getLast?_callee (offsetSlots : Int64) :
    ∀ c ∈ (callee offsetSlots).toList.getLast?, isWhitespace c = false := by
  have hw : isWhitespace 'w' = false := by decide
  have ht : isWhitespace 't' = false := by decide
  rw [callee]
  split_ifs
  · simp [hw]
  · simp [ht]

/-- An expression starts with no white space. -/
theorem head?_expression (d : VarDef) :
    ∀ c ∈ (d.expression layout).head?, isWhitespace c = false := by
  have hquote : isWhitespace '"' = false := by decide
  have hp : isWhitespace 'p' = false := by decide
  cases d with
  | literal name value => simp [VarDef.expression, hquote]
  | phaseBucket name periodS bucketS offsetSlots prefixText =>
      simp [VarDef.expression, List.head?_append, head?_callee, hp]

/-- An expression ends with no white space. -/
theorem getLast?_expression (d : VarDef) :
    ∀ c ∈ (d.expression layout).getLast?, isWhitespace c = false := by
  have hquote : isWhitespace '"' = false := by decide
  have hparen : isWhitespace ')' = false := by decide
  cases d with
  | literal name value => simp [VarDef.expression, hquote]
  | phaseBucket name periodS bucketS offsetSlots prefixText =>
      simp [VarDef.expression, List.getLast?_append, List.getLast?_cons, hparen]

/-- What a call comes to: its callee is one of the two functions, and its arguments are
those written. -/
theorem parseExpr_call (name : String) {offsetSlots : Int64}
    (hoffset : offsetSlots = 0 ∨ offsetSlots = 1) :
    parseExpr isPrintable name
        ((VarDef.phaseBucket name periodS bucketS offsetSlots prefixText).expression layout) =
      phaseCall isPrintable name (callee offsetSlots) offsetSlots
        (decimal periodS :: decimal bucketS ::
          ((layout.beforePrefix.val ++ quoted prefixText.toList).splitOn ',').map trim) := by
  have htrim := Foundation.trimBy_eq_self
    (head?_expression layout (.phaseBucket name periodS bucketS offsetSlots prefixText))
    (getLast?_expression layout (.phaseBucket name periodS bucketS offsetSlots prefixText))
  have hcallee : trim ((callee offsetSlots).toList ++ layout.afterCallee.val) =
      (callee offsetSlots).toList := by
    apply trim_blank Blank.empty layout.afterCallee
    · rw [head?_callee]
      simp [show isWhitespace 'p' = false by decide]
    · exact getLast?_callee offsetSlots
  have hopen : '(' ∉ (callee offsetSlots).toList ++ layout.afterCallee.val := by
    rw [List.mem_append, not_or, callee]
    refine ⟨?_, layout.afterCallee.notMem (by decide) (by decide)⟩
    split_ifs <;> simp
  have hcut := Foundation.cutFirst_append_cons hopen (layout.beforePeriod.val ++
    (arguments layout periodS bucketS prefixText ++ layout.afterPrefix.val) ++ [')'])
  have hclose := Foundation.cutLast_append_cons (layout.beforePeriod.val ++
    (arguments layout periodS bucketS prefixText ++ layout.afterPrefix.val))
    (List.not_mem_nil (a := ')'))
  have hquote : ((callee offsetSlots).toList ++ layout.afterCallee.val ++ '(' ::
      (layout.beforePeriod.val ++ (arguments layout periodS bucketS prefixText ++
        layout.afterPrefix.val) ++ [')'])).head? ≠ some '"' := by
    simp [List.head?_append, head?_callee]
  rw [parseExpr, trim, htrim]
  simp only [VarDef.expression, if_neg hquote, hcut, hclose, validateTail_nil, hcallee,
    String.ofList_toList, splitArgs_arguments]
  rcases hoffset with rfl | rfl <;> rfl

/-- A call whose label has no comma is read back. -/
theorem parseExpr_call_of_noComma (name : String) {offsetSlots : Int64}
    (hoffset : offsetSlots = 0 ∨ offsetSlots = 1) (h : ',' ∉ prefixText.toList) :
    parseExpr isPrintable name
        ((VarDef.phaseBucket name periodS bucketS offsetSlots prefixText).expression layout) =
      .ok (.phaseBucket name periodS bucketS offsetSlots prefixText) := by
  rw [parseExpr_call isPrintable layout periodS bucketS prefixText name hoffset,
    splitOn_label layout prefixText h, phaseCall, phaseCall.phaseOf, num_decimal, num_decimal,
    prefixArg_quoted]
  rfl

/-- A call whose label has a comma is an error. -/
theorem exists_parseExpr_call_error (name : String) {offsetSlots : Int64}
    (hoffset : offsetSlots = 0 ∨ offsetSlots = 1) (h : ',' ∈ prefixText.toList) :
    ∃ e, parseExpr isPrintable name
        ((VarDef.phaseBucket name periodS bucketS offsetSlots prefixText).expression layout) =
      .error e := by
  obtain ⟨a, b, rest, hlabel⟩ := exists_splitOn_label layout prefixText h
  rw [parseExpr_call isPrintable layout periodS bucketS prefixText name hoffset, hlabel]
  exact ⟨_, rfl⟩

end Expressions

/-! ## Lines -/

/-- A dollar sign and a name is a variable. -/
theorem isVariable_of_isName {name : String} (h : IsName name) :
    isVariable ('$' :: name.toList) = true := by
  obtain ⟨hne, hstart, hchars⟩ := h
  have hlist : name.toList ≠ [] := by simpa using hne
  obtain ⟨c, cs, hcs⟩ := List.exists_cons_of_ne_nil hlist
  have hc := hstart c (by simp [hcs])
  have hall : name.toList.all isNameChar = true := List.all_eq_true.mpr hchars
  rw [hcs] at hall
  simp [isVariable, hcs, hc] at hall ⊢
  exact hall

/-- White space after a variable is trimmed off. -/
theorem trim_variable {name : String} (h : IsName name) (right : Blank) :
    trim ('$' :: name.toList ++ right.val) = '$' :: name.toList := by
  have hdollar : isWhitespace '$' = false := by decide
  apply trim_blank Blank.empty right (s := '$' :: name.toList)
  · simp [hdollar]
  · intro c hc
    have hmem : c ∈ '$' :: name.toList := List.mem_of_mem_getLast? hc
    rcases List.mem_cons.mp hmem with rfl | hmem
    · exact hdollar
    · have hrange := toNat_of_isNameChar (h.2.2 c hmem)
      exact isWhitespace_eq_false (by omega) (by omega)

/-- A definition that can be written has a name. -/
theorem VarDef.IsWritable.isName {d : VarDef} (h : d.IsWritable) : IsName d.name := by
  cases d with
  | literal name value => exact h.1
  | phaseBucket name periodS bucketS offsetSlots prefixText => exact h.1

section Assignments

variable (isPrintable : Char → Bool) (layout : Layout) {d : VarDef}

/-- What an assignment comes to: its expression, under its name. -/
theorem parseAssignment_assignment (hd : d.IsWritable) (idx : Nat) {seen : List String}
    (hseen : d.name ∉ seen) :
    parseAssignment isPrintable idx seen (d.assignment layout) =
      ((parseExpr isPrintable d.name (d.expression layout)).map (d.name, ·)).mapError
        (errAt idx) := by
  have hname := hd.isName
  have hequals : '=' ∉ '$' :: d.name.toList ++ layout.afterName.val := by
    rw [List.mem_append, List.mem_cons, not_or, not_or]
    refine ⟨⟨by decide, ?_⟩, layout.afterName.notMem (by decide) (by decide)⟩
    intro hmem
    exact (toNat_of_isNameChar (hname.2.2 '=' hmem)).2.2 rfl
  have hcut := Foundation.cutFirst_append_cons hequals
    (layout.afterEquals.val ++ d.expression layout)
  have hrhs : trim (layout.afterEquals.val ++ d.expression layout) = d.expression layout := by
    have htrim := trim_blank layout.afterEquals Blank.empty (head?_expression layout d)
      (getLast?_expression layout d)
    rwa [Blank.empty, List.append_nil] at htrim
  rw [parseAssignment, VarDef.assignment, hcut]
  simp only [trim_variable hname, isVariable_of_isName hname, hrhs, List.tail_cons,
    String.ofList_toList, Bool.not_true, Bool.false_eq_true, if_false, if_neg hseen]

/-- White space around an assignment is trimmed off. -/
theorem trim_line (d : VarDef) : trim (d.line layout) = d.assignment layout := by
  apply trim_blank layout.indent layout.trailing
  · simp [VarDef.assignment, show isWhitespace '$' = false by decide]
  · intro c hc
    have hlast : (d.assignment layout).getLast? = (d.expression layout).getLast? := by
      have hne : d.expression layout ≠ [] := by
        cases d <;> simp [VarDef.expression, quoted]
      rw [VarDef.assignment, ← List.cons_append, ← List.append_assoc]
      exact List.getLast?_append_of_ne_nil _ hne
    rw [hlast] at hc
    exact getLast?_expression layout d c hc

/-- An assignment is on one line. -/
theorem newline_notMem_line (hd : d.IsWritable) : '\n' ∉ d.line layout := by
  have hname : '\n' ∉ d.name.toList := by
    intro hmem
    exact absurd (toNat_of_isNameChar (hd.isName.2.2 '\n' hmem)).1 (by decide)
  have hexpression : '\n' ∉ d.expression layout := by
    cases d with
    | literal name value => simp [VarDef.expression, quoted, hd.2.2]
    | phaseBucket name periodS bucketS offsetSlots prefixText =>
        have hcallee : '\n' ∉ (callee offsetSlots).toList := by
          rw [callee]
          split_ifs <;> simp
        have hdecimal : ∀ n : UInt64, '\n' ∉ decimal n := notMem_decimal (by decide)
        simp [VarDef.expression, arguments, quoted, Blank.newline_notMem, hcallee, hdecimal,
          hd.2.2.2]
  simp [VarDef.line, VarDef.assignment, Blank.newline_notMem, hname, hexpression]

end Assignments

/-! ## Code blocks -/

theorem written_eq_codeOf (newline : Bool) (ws : List (VarDef × Layout)) :
    written newline ws = codeOf newline (ws.map fun w => w.1.line w.2) := by
  induction ws with
  | nil => rfl
  | cons w ws ih =>
      cases ws with
      | nil => rfl
      | cons v ws => exact congrArg (fun code => w.1.line w.2 ++ '\n' :: code) ih

section Blocks

variable (isPrintable : Char → Bool)

/-- The parser does not see the white space around lines. -/
theorem parseLines_eq_of_map_trim {ls ls' : List (List Char)} (h : ls.map trim = ls'.map trim)
    (idx : Nat) (seen : List String) :
    parseLines isPrintable idx seen ls = parseLines isPrintable idx seen ls' := by
  induction ls generalizing ls' idx seen with
  | nil =>
      cases ls' with
      | nil => rfl
      | cons l' ls' => exact absurd h (List.cons_ne_nil _ _).symm
  | cons l ls ih =>
      cases ls' with
      | nil => exact absurd h (List.cons_ne_nil _ _)
      | cons l' ls' =>
          have hparts := List.cons.inj h
          rw [parseLines, parseLines, hparts.1]
          simp only [ih hparts.2]

/-- A code block is read line by line. -/
theorem parseLines_lines_codeOf (newline : Bool) {lines : List (List Char)}
    (h : ∀ line ∈ lines, '\n' ∉ line) (idx : Nat) (seen : List String) :
    parseLines isPrintable idx seen (Foundation.lines (codeOf newline lines)) =
      parseLines isPrintable idx seen lines := by
  have hline : ∀ line, '\n' ∉ line → ∀ (rest : List Char) (idx : Nat) (seen : List String),
      parseLines isPrintable idx seen (Foundation.lines (line ++ '\n' :: rest)) =
        parseLines isPrintable idx seen (line :: Foundation.lines rest) := by
    intro line hnew rest idx seen
    apply parseLines_eq_of_map_trim
    rw [Foundation.lines_append_newline hnew, List.map_cons, trim,
      Foundation.trimBy_stripCarriageReturn (by decide)]
    rfl
  induction lines generalizing idx seen with
  | nil => rfl
  | cons line lines ih =>
      have hnew := h line List.mem_cons_self
      have hlines := fun l hl => h l (List.mem_cons_of_mem line hl)
      cases lines with
      | nil =>
          cases newline with
          | true => exact hline line hnew [] idx seen
          | false =>
              rw [codeOf, if_neg Bool.false_ne_true, List.append_nil,
                Foundation.lines_of_notMem hnew]
              split_ifs with hempty
              -- an empty last line is none
              · rw [List.isEmpty_iff.mp hempty]
                rw [parseLines]
                rfl
              · rfl
      | cons line' lines =>
          have hcode : codeOf newline (line :: line' :: lines) =
              line ++ '\n' :: codeOf newline (line' :: lines) := rfl
          rw [hcode, hline line hnew, parseLines, parseLines]
          simp only [ih hlines]

theorem parse_codeOf (newline : Bool) {lines : List (List Char)}
    (h : ∀ line ∈ lines, '\n' ∉ line) :
    parse isPrintable (String.ofList (codeOf newline lines)) =
      parseLines isPrintable 0 [] lines := by
  rw [parse, String.toList_ofList, parseLines_lines_codeOf isPrintable newline h]

/-- The first line is read, and then the others. -/
theorem parseLines_line_cons {w : VarDef × Layout} (hw : w.1.IsWritable) (idx : Nat)
    {seen : List String} (hseen : w.1.name ∉ seen) (ls : List (List Char)) :
    parseLines isPrintable idx seen (w.1.line w.2 :: ls) =
      ((parseExpr isPrintable w.1.name (w.1.expression w.2)).mapError (errAt idx)).bind fun var =>
        (parseLines isPrintable (idx + 1) (w.1.name :: seen) ls).map (var :: ·) := by
  have hcode : ((w.1.assignment w.2).isEmpty || (w.1.assignment w.2).head? = some '#') = false := by
    simp [VarDef.assignment]
  rw [parseLines, trim_line]
  simp only [hcode, Bool.false_eq_true, if_false]
  rw [parseAssignment_assignment isPrintable w.2 hw idx hseen]
  cases parseExpr isPrintable w.1.name (w.1.expression w.2) with
  | error e => rfl
  | ok var =>
      cases hrest : parseLines isPrintable (idx + 1) (w.1.name :: seen) ls with
      | error e => simp [Except.map, Except.mapError, bind, Except.bind, hrest]
      | ok out => simp [Except.map, Except.mapError, bind, Except.bind, hrest, pure, Except.pure]

/-- An expression is read back if its label has no comma. -/
theorem parseExpr_expression (layout : Layout) {d : VarDef} (hd : d.IsWritable)
    (h : d.NoComma) : parseExpr isPrintable d.name (d.expression layout) = .ok d := by
  cases d with
  | literal name value => exact parseExpr_literal isPrintable name hd.2
  | phaseBucket name periodS bucketS offsetSlots prefixText =>
      exact parseExpr_call_of_noComma isPrintable layout periodS bucketS prefixText name hd.2.1 h

/-- An expression whose label has a comma is an error. -/
theorem exists_parseExpr_expression_error (layout : Layout) {d : VarDef} (hd : d.IsWritable)
    (h : ¬ d.NoComma) :
    ∃ e, parseExpr isPrintable d.name (d.expression layout) = .error e := by
  cases d with
  | literal name value => exact absurd trivial h
  | phaseBucket name periodS bucketS offsetSlots prefixText =>
      exact exists_parseExpr_call_error isPrintable layout periodS bucketS prefixText name hd.2.1
        (not_not.mp h)

/-- Lines are read back exactly when no label has a comma. -/
theorem parseLines_lines_iff {ws : List (VarDef × Layout)} (hws : ∀ w ∈ ws, w.1.IsWritable)
    (hdistinct : (ws.map fun w => w.1.name).Nodup) (idx : Nat) {seen : List String}
    (hseen : ∀ w ∈ ws, w.1.name ∉ seen) :
    parseLines isPrintable idx seen (ws.map fun w => w.1.line w.2) = .ok (ws.map Prod.fst) ↔
      ∀ w ∈ ws, w.1.NoComma := by
  induction ws generalizing idx seen with
  | nil => simp [parseLines]
  | cons w ws ih =>
      have hw := hws w List.mem_cons_self
      have hnew := hseen w List.mem_cons_self
      rw [List.map_cons, List.nodup_cons] at hdistinct
      have hothers : ∀ v ∈ ws, v.1.name ∉ w.1.name :: seen := by
        intro v hv
        rw [List.mem_cons, not_or]
        refine ⟨?_, hseen v (List.mem_cons_of_mem w hv)⟩
        intro heq
        exact hdistinct.1 (heq ▸ List.mem_map_of_mem hv)
      have htail := ih (fun v hv => hws v (List.mem_cons_of_mem w hv)) hdistinct.2 (idx + 1) hothers
      rw [List.map_cons, List.map_cons, parseLines_line_cons isPrintable hw idx hnew,
        List.forall_mem_cons]
      by_cases hcomma : w.1.NoComma
      · rw [parseExpr_expression isPrintable w.2 hw hcomma, ← htail]
        cases parseLines isPrintable (idx + 1) (w.1.name :: seen)
            (ws.map fun w => w.1.line w.2) with
        | error e => simp [Except.mapError, Except.bind, Except.map]
        | ok out => simp [Except.mapError, Except.bind, Except.map, hcomma]
      · obtain ⟨e, he⟩ := exists_parseExpr_expression_error isPrintable w.2 hw hcomma
        rw [he]
        simp [Except.mapError, Except.bind, hcomma]

/-- **Round trip.**  Definitions with different names, of strings and of calls of the two
functions with any numbers and any label, no text of which has a quote or a newline, are
written, one on each line and with any white space.  The parser gives exactly them back,
in order, exactly when no label has a comma. -/
theorem parse_written_iff (newline : Bool) (ws : List (VarDef × Layout))
    (hws : ∀ w ∈ ws, w.1.IsWritable) (hdistinct : (ws.map fun w => w.1.name).Nodup) :
    parse isPrintable (String.ofList (written newline ws)) = .ok (ws.map Prod.fst) ↔
      ∀ w ∈ ws, w.1.NoComma := by
  have hlines : ∀ line ∈ ws.map fun w => w.1.line w.2, '\n' ∉ line := by
    intro line hline
    obtain ⟨w, hw, rfl⟩ := List.mem_map.mp hline
    exact newline_notMem_line w.2 (hws w hw)
  rw [written_eq_codeOf, parse_codeOf isPrintable newline hlines]
  exact parseLines_lines_iff isPrintable hws hdistinct 0 fun w hw => List.not_mem_nil

end Blocks

/-- A list of letters, digits and underscores is a name. -/
theorem isName_of_all {name : String} (hne : name ≠ "")
    (hstart : name.toList.head?.all isNameStart = true)
    (hall : name.toList.all isNameChar = true) : IsName name := by
  refine ⟨hne, ?_, List.all_eq_true.mp hall⟩
  intro c hc
  rw [hc] at hstart
  exact hstart

/-- A string with signs of the syntax in it and a call of the next slot are read back. -/
theorem parse_written_twice :
    parse (fun _ => true) "$max = \"a = (b), #c\"\n$next = phase_next(240, 15, \"s)\")\n" =
      .ok [.literal "max" "a = (b), #c", .phaseBucket "next" 240 15 1 "s)"] := by
  have hws : ∀ w ∈ [(VarDef.literal "max" "a = (b), #c", Layout.standard),
      (VarDef.phaseBucket "next" 240 15 1 "s)", Layout.standard)], w.1.IsWritable := by
    have hmax : IsName "max" := isName_of_all (by decide) (by decide) (by decide)
    have hnext : IsName "next" := isName_of_all (by decide) (by decide) (by decide)
    intro w hw
    rcases List.mem_cons.mp hw with rfl | hw
    · exact ⟨hmax, by decide, by decide⟩
    · rcases List.mem_singleton.mp hw with rfl
      exact ⟨hnext, .inr rfl, by decide, by decide⟩
  have hcomma : ∀ w ∈ [(VarDef.literal "max" "a = (b), #c", Layout.standard),
      (VarDef.phaseBucket "next" 240 15 1 "s)", Layout.standard)], w.1.NoComma := by
    intro w hw
    rcases List.mem_cons.mp hw with rfl | hw
    · trivial
    · rcases List.mem_singleton.mp hw with rfl
      exact show ',' ∉ "s)".toList by decide
  exact (parse_written_iff (fun _ => true) true _ hws (by decide)).mpr hcomma

/-- A call with a comma in its label is taken for one with four arguments. -/
theorem parse_comma_in_prefix :
    (VarDef.phaseBucket "slot" 240 15 0 "a,b").IsWritable ∧
      String.ofList (written false [(.phaseBucket "slot" 240 15 0 "a,b", Layout.standard)]) =
        "$slot = phase_now(240, 15, \"a,b\")" ∧
      parse (fun _ => true) "$slot = phase_now(240, 15, \"a,b\")" =
        .error ⟨.systemError,
          "VEL: 第1行: phase_now() 需 2~3 参数 (period_s, bucket_s[, prefix])，实际 4"⟩ ∧
      parse (fun _ => true) "$slot = phase_now(240, 15, \"a,b\")" ≠
        .ok [.phaseBucket "slot" 240 15 0 "a,b"] := by
  have herror : parse (fun _ => true) "$slot = phase_now(240, 15, \"a,b\")" =
      .error ⟨.systemError,
        "VEL: 第1行: phase_now() 需 2~3 参数 (period_s, bucket_s[, prefix])，实际 4"⟩ := by
    decide
  have hname : IsName "slot" := isName_of_all (by decide) (by decide) (by decide)
  refine ⟨⟨hname, .inl rfl, by decide, by decide⟩, by decide, herror, ?_⟩
  rw [herror]
  nofun

end WpKnowledge.Vel
