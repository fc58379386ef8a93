import Mathlib.Algebra.Group.Nat.Defs
import WpKnowledge.Foundation.PrefixCode
import WpKnowledge.Foundation.Text
import WpKnowledge.Foundation.Utf8
import WpKnowledge.Model.Hash

/-!
# What the streams of parameters tell apart

The result cache knows a list of parameters by the hash of its stream only, and the
stream neither counts the parameters nor separates them.  It can be read back all the
same: a name ends with the byte {lit}`0xFF`, which no text has, and the byte after it
says how long the value is or that it is a text too.  What is lost is what the texts
of a value do not show.

Main results:

- Theorem {lit}`fieldParamsBytes_eq_iff_forall₂`: two lists of fields have one stream
  exactly when they have the same names and the same values are hashed.
- Theorem {lit}`fieldParamsBytes_paramsToFields`: the stream of request parameters is
  that of the fields they stand for.
- Theorem {lit}`cache_keys_separate_params`: which lists of parameters have one stream.
-/

namespace WpKnowledge

/-! ## Bytes of fixed-width values -/

/-- A number that fits is told by its bytes. -/
theorem leBytes_inj {n x y : Nat} (hx : x < 256 ^ n) (hy : y < 256 ^ n)
    (h : leBytes n x = leBytes n y) : x = y := by
  induction n generalizing x y with
  | zero => omega
  | succ n ih =>
      have hbyte : UInt8.ofNat (x % 256) = UInt8.ofNat (y % 256) := (List.cons.inj h).1
      have hmod : x % 256 = y % 256 := by
        have hnat := congrArg UInt8.toNat hbyte
        simpa using hnat
      have hdiv : x / 256 = y / 256 := by
        rw [Nat.pow_succ] at hx hy
        apply ih _ _ (List.cons.inj h).2
        · omega
        · omega
      omega

/-- A number has as many bytes as asked for. -/
@[simp]
theorem length_leBytes (n x : Nat) : (leBytes n x).length = n := by
  induction n generalizing x with
  | zero => rfl
  | succ n ih => rw [leBytes, List.length_cons, ih]

/-- An address has as many octets as asked for. -/
@[simp]
theorem length_octetBytes (n x : Nat) : (octetBytes n x).length = n := by
  rw [octetBytes, List.length_reverse, length_leBytes]

/-- An address is told by its octets. -/
theorem octetBytes_inj {n : Nat} {v w : BitVec (8 * n)}
    (h : octetBytes n v.toNat = octetBytes n w.toNat) : v = w := by
  have hlt : ∀ u : BitVec (8 * n), u.toNat < 256 ^ n := by
    intro u
    have hbound := u.isLt
    rwa [Nat.pow_mul] at hbound
  exact BitVec.eq_of_toNat_eq (leBytes_inj (hlt v) (hlt w) (List.reverse_injective h))

/-- A machine word of 64 bits is told by its bytes. -/
theorem leBytes_uint64_inj {v w : UInt64} (h : leBytes 8 v.toNat = leBytes 8 w.toNat) : v = w :=
  UInt64.toNat_inj.mp (leBytes_inj v.toNat_lt w.toNat_lt h)

/-- A machine word of 32 bits is told by its bytes. -/
theorem leBytes_uint32_inj {v w : UInt32} (h : leBytes 4 v.toNat = leBytes 4 w.toNat) : v = w :=
  UInt32.toNat_inj.mp (leBytes_inj v.toNat_lt w.toNat_lt h)

/-- A truth value is told by its byte. -/
theorem boolBytes_inj {v w : Bool} (h : boolBytes v = boolBytes w) : v = w := by
  revert v w
  decide

/-- A date and time is told by its bytes. -/
theorem timeBytes_inj {v w : NaiveDateTime} (h : timeBytes v = timeBytes w) : v = w := by
  have hfirst := List.append_inj h (by simp)
  have hsecond := List.append_inj hfirst.1 (by simp)
  have hymdf := leBytes_uint32_inj hsecond.1
  have hsecs := leBytes_uint32_inj hsecond.2
  have hfrac := leBytes_uint32_inj hfirst.2
  cases v
  cases w
  congr

/-- An address is told by its bytes. -/
theorem ipAddrBytes_inj {v w : IpAddr} (h : ipAddrBytes v = ipAddrBytes w) : v = w := by
  cases v with
  | v4 a =>
      cases w with
      | v4 b =>
          have hbytes := (List.append_inj h (by simp)).2
          rw [@octetBytes_inj 4 a b hbytes]
      | v6 b => exact absurd (congrArg List.length h) (by simp [ipAddrBytes])
  | v6 a =>
      cases w with
      | v4 b => exact absurd (congrArg List.length h) (by simp [ipAddrBytes])
      | v6 b =>
          have hbytes := (List.append_inj h (by simp)).2
          rw [@octetBytes_inj 16 a b hbytes]

/-- A text is told by its bytes. -/
theorem strBytes_inj {v w : String} (h : strBytes v = strBytes w) : v = w :=
  Foundation.toUTF8_injective (List.append_cancel_right h)

/-! ## Where a value ends -/

/-- How far a text goes: the first byte {lit}`0xFF` ends it. -/
def strWidth : List UInt8 → Nat :=
  Foundation.upTo [0xFF]

/-- How far an address goes: its variant is the first of eight bytes. -/
def ipAddrWidth (s : List UInt8) : Nat :=
  if s.head? = some 0 then 12 else 24

/-- How far the bytes after a tag go. -/
def payloadWidth (tag : UInt8) : List UInt8 → Nat :=
  if tag = 0 then fun _ => 0
  else if tag = 1 then fun _ => 1
  else if tag = 2 ∨ tag = 3 then fun _ => 8
  else if tag = 6 then fun _ => 12
  else if tag = 9 then ipAddrWidth
  else strWidth

/-- The bytes of a text end where the first byte {lit}`0xFF` is. -/
theorem delimits_strBytes (s : String) : Foundation.Delimits strWidth (strBytes s) :=
  Foundation.delimits_upTo fun hmem => absurd (Foundation.lt_of_mem_toUTF8 hmem) (by decide)

/-- The bytes of an address end where its variant says. -/
theorem delimits_ipAddrBytes (v : IpAddr) : Foundation.Delimits ipAddrWidth (ipAddrBytes v) := by
  intro rest
  cases v with
  | v4 octets => simp [ipAddrWidth, ipAddrBytes, leBytes]
  | v6 octets => simp [ipAddrWidth, ipAddrBytes, leBytes]

/-- The bytes of a value end where its tag says. -/
theorem Value.delimits_hashBytes [ValueText] (v : Value) :
    Foundation.Delimits (Foundation.tagged payloadWidth) v.hashBytes := by
  have htext : ∀ (tag : UInt8) (s : String), payloadWidth tag = strWidth →
      Foundation.Delimits (Foundation.tagged payloadWidth) (tag :: strBytes s) := by
    intro tag s htag
    apply Foundation.Delimits.cons
    rw [htag]
    exact delimits_strBytes s
  cases v with
  | null => exact .cons (Foundation.delimits_of_length rfl)
  | ignore => exact .cons (Foundation.delimits_of_length rfl)
  | bool v => exact .cons (Foundation.delimits_of_length rfl)
  | int v => exact .cons (Foundation.delimits_of_length (length_leBytes 8 _))
  | float v => exact .cons (Foundation.delimits_of_length (length_leBytes 8 _))
  | time v => exact .cons (Foundation.delimits_of_length (by simp [timeBytes]))
  | ipAddr v => exact .cons (delimits_ipAddrBytes v)
  | chars v => exact htext 4 v rfl
  | symbol v => exact htext 5 v rfl
  | hex v => exact htext 7 _ rfl
  | ipNet v => exact htext 8 _ rfl
  | obj v => exact htext 10 _ rfl
  | array v => exact htext 11 _ rfl
  | domain v => exact htext 12 v rfl
  | url v => exact htext 13 v rfl
  | email v => exact htext 14 v rfl
  | idCard v => exact htext 15 v rfl
  | mobilePhone v => exact htext 16 v rfl
  | bigUint v => exact htext 17 _ rfl

/-! ## What a value is hashed as -/

/-- Values a cache key may confuse: a null and an ignored value, and objects or
arrays with one debug text. -/
inductive Value.KeyedAlike [ValueText] : Value → Value → Prop where
  | refl (v : Value) : KeyedAlike v v
  | nullIgnore : KeyedAlike .null .ignore
  | ignoreNull : KeyedAlike .ignore .null
  | obj {v w : List (String × DataField)} (h : ValueText.objDebug v = ValueText.objDebug w) :
      KeyedAlike (.obj v) (.obj w)
  | array {v w : List DataField} (h : ValueText.arrayDebug v = ValueText.arrayDebug w) :
      KeyedAlike (.array v) (.array w)

/-- The tag of a value. -/
def Value.tag : Value → UInt8
  | .null | .ignore => 0
  | .bool _ => 1
  | .int _ => 2
  | .float _ => 3
  | .chars _ => 4
  | .symbol _ => 5
  | .time _ => 6
  | .hex _ => 7
  | .ipNet _ => 8
  | .ipAddr _ => 9
  | .obj _ => 10
  | .array _ => 11
  | .domain _ => 12
  | .url _ => 13
  | .email _ => 14
  | .idCard _ => 15
  | .mobilePhone _ => 16
  | .bigUint _ => 17

/-- The first byte of a value is its tag. -/
theorem Value.head?_hashBytes [ValueText] (v : Value) : v.hashBytes.head? = some v.tag := by
  cases v <;> rfl

/-- Values that are hashed as the same bytes are alike, or are two hexadecimal numbers
or two networks that are printed as one text. -/
theorem Value.keyedAlike_of_hashBytes [ValueText] {v w : Value}
    (h : v.hashBytes = w.hashBytes) :
    v.KeyedAlike w ∨
      (∃ a b, v = .hex a ∧ w = .hex b ∧ ValueText.hex a = ValueText.hex b) ∨
      ∃ a b, v = .ipNet a ∧ w = .ipNet b ∧ ValueText.ipNet a = ValueText.ipNet b := by
  have htag : v.tag = w.tag := by
    have hhead := congrArg List.head? h
    rwa [Value.head?_hashBytes, Value.head?_hashBytes, Option.some_inj] at hhead
  have hpayload := congrArg List.tail h
  -- two kinds of value have two tags, but for null and ignored ones
  cases v <;> cases w <;> simp [tag] at htag
  case null.null => exact .inl (.refl _)
  case null.ignore => exact .inl .nullIgnore
  case ignore.null => exact .inl .ignoreNull
  case ignore.ignore => exact .inl (.refl _)
  case bool.bool a b => exact .inl (boolBytes_inj hpayload ▸ .refl _)
  case int.int a b =>
      have hword := congrArg UInt64.toInt64 (leBytes_uint64_inj hpayload)
      have heq : a = b := by
        rwa [Int64.toInt64_toUInt64, Int64.toInt64_toUInt64] at hword
      exact .inl (heq ▸ .refl _)
  case float.float a b =>
      have heq : a = b := congrArg F64.mk (leBytes_uint64_inj hpayload)
      exact .inl (heq ▸ .refl _)
  case time.time a b => exact .inl (timeBytes_inj hpayload ▸ .refl _)
  case ipAddr.ipAddr a b => exact .inl (ipAddrBytes_inj hpayload ▸ .refl _)
  case bigUint.bigUint a b =>
      have heq : a = b := Foundation.toString_nat_inj (strBytes_inj hpayload)
      exact .inl (heq ▸ .refl _)
  case hex.hex a b => exact .inr (.inl ⟨a, b, rfl, rfl, strBytes_inj hpayload⟩)
  case ipNet.ipNet a b => exact .inr (.inr ⟨a, b, rfl, rfl, strBytes_inj hpayload⟩)
  case obj.obj a b => exact .inl (.obj (strBytes_inj hpayload))
  case array.array a b => exact .inl (.array (strBytes_inj hpayload))
  -- the other kinds are hashed as the text they are
  all_goals exact .inl (strBytes_inj hpayload ▸ .refl _)

/-- Values that are alike are hashed as the same bytes. -/
theorem Value.KeyedAlike.hashBytes_eq [ValueText] {v w : Value} (h : v.KeyedAlike w) :
    v.hashBytes = w.hashBytes := by
  cases h with
  | refl => rfl
  | nullIgnore => rfl
  | ignoreNull => rfl
  | obj h => rw [Value.hashBytes, Value.hashBytes, h]
  | array h => rw [Value.hashBytes, Value.hashBytes, h]

/-- Where hexadecimal numbers and networks are printed apart, values are hashed as the
same bytes exactly when they are alike. -/
theorem Value.hashBytes_eq_iff_keyedAlike [ValueText]
    (hhex : Function.Injective ValueText.hex) (hnet : Function.Injective ValueText.ipNet)
    {v w : Value} : v.hashBytes = w.hashBytes ↔ v.KeyedAlike w := by
  constructor
  · intro h
    rcases Value.keyedAlike_of_hashBytes h with h | ⟨a, b, rfl, rfl, htext⟩ |
      ⟨a, b, rfl, rfl, htext⟩
    · exact h
    · exact hhex htext ▸ .refl _
    · exact hnet htext ▸ .refl _
  · intro h
    exact h.hashBytes_eq

/-! ## Lists of fields -/

/-- What hashing a field feeds to the hasher. -/
def DataField.hashBytes [ValueText] (field : DataField) : List UInt8 :=
  strBytes field.getName ++ field.getValue.hashBytes

/-- A field is hashed as its name and its value. -/
theorem DataField.hashBytes_eq_iff [ValueText] {f g : DataField} :
    f.hashBytes = g.hashBytes ↔
      f.getName = g.getName ∧ f.getValue.hashBytes = g.getValue.hashBytes := by
  constructor
  · intro h
    have hparts := (delimits_strBytes f.getName).append_inj (delimits_strBytes g.getName) h
    exact ⟨strBytes_inj hparts.1, hparts.2⟩
  · intro h
    rw [DataField.hashBytes, DataField.hashBytes, h.1, h.2]

/-- Two lists of fields have one stream exactly when they have the same names and the
same values are hashed. -/
theorem fieldParamsBytes_eq_iff_forall₂ [ValueText] (fs gs : List DataField) :
    fieldParamsBytes fs = fieldParamsBytes gs ↔
      List.Forall₂ (fun f g => f.getName = g.getName ∧
        f.getValue.hashBytes = g.getValue.hashBytes) fs gs := by
  have hdelimits : ∀ f : DataField, Foundation.Delimits
      (Foundation.andThen strWidth (Foundation.tagged payloadWidth)) f.hashBytes :=
    fun f => (delimits_strBytes f.getName).append f.getValue.delimits_hashBytes
  have hne : ∀ f : DataField, f.hashBytes ≠ [] := by
    intro f
    simp [DataField.hashBytes, strBytes]
  have hiff := Foundation.flatMap_eq_flatMap_iff hdelimits hdelimits hne hne fs gs
  simp only [DataField.hashBytes_eq_iff] at hiff
  exact hiff

/-! ## Lists of request parameters -/

/-- The stream of request parameters is that of the fields they stand for. -/
theorem fieldParamsBytes_paramsToFields [ValueText] (params : List QueryParam) :
    fieldParamsBytes (paramsToFields params) = paramsBytes params := by
  have hfield : ∀ param : QueryParam, param.toField.hashBytes =
      strBytes param.name ++ param.value.hashBytes := by
    intro param
    rw [DataField.hashBytes, QueryParam.toField]
    cases param.value <;> rfl
  have hmap : fieldParamsBytes (paramsToFields params) =
      params.flatMap fun param => param.toField.hashBytes :=
    List.flatMap_map ..
  rw [hmap, paramsBytes]
  simp only [hfield]

/-- Request parameters are those their fields are passed as. -/
theorem fieldsToParams_paramsToFields [ValueText] (params : List QueryParam) :
    fieldsToParams (paramsToFields params) = params := by
  have hparam : ∀ param : QueryParam,
      (⟨param.toField.getName, param.toField.getValue.toQueryValue⟩ : QueryParam) = param := by
    intro param
    cases param with
    | mk name value => cases value <;> rfl
  rw [fieldsToParams, paramsToFields, List.map_map]
  exact List.map_id'' hparam params

/-- Values that are hashed as the same bytes are passed as one parameter value. -/
theorem Value.toQueryValue_eq_of_hashBytes [ValueText] {v w : Value}
    (h : v.hashBytes = w.hashBytes) : v.toQueryValue = w.toQueryValue := by
  rcases Value.keyedAlike_of_hashBytes h with h | ⟨a, b, rfl, rfl, htext⟩ |
    ⟨a, b, rfl, rfl, htext⟩
  · cases h with
    | refl => rfl
    | nullIgnore => rfl
    | ignoreNull => rfl
    | obj htext => exact congrArg QueryValue.text htext
    | array htext => exact congrArg QueryValue.text htext
  · exact congrArg QueryValue.text htext
  · exact congrArg QueryValue.text htext

/-- Fields with one stream are passed as the same parameters. -/
theorem fieldsToParams_eq_of_fieldParamsBytes [ValueText] {fs gs : List DataField}
    (h : fieldParamsBytes fs = fieldParamsBytes gs) : fieldsToParams fs = fieldsToParams gs := by
  have hfields := (fieldParamsBytes_eq_iff_forall₂ fs gs).mp h
  rw [fieldsToParams, fieldsToParams]
  induction hfields with
  | nil => rfl
  | @cons f g fs gs hhead htail ih =>
      rw [List.map_cons, List.map_cons, hhead.1, Value.toQueryValue_eq_of_hashBytes hhead.2,
        ih ((fieldParamsBytes_eq_iff_forall₂ fs gs).mpr htail)]

/-- A stream of fields that is one of request parameters is that of the fields passed as
these parameters. -/
theorem fieldsToParams_eq_of_paramsBytes [ValueText] {fs : List DataField}
    {ps : List QueryParam} (h : fieldParamsBytes fs = paramsBytes ps) :
    fieldsToParams fs = ps := by
  rw [← fieldParamsBytes_paramsToFields] at h
  rw [fieldsToParams_eq_of_fieldParamsBytes h, fieldsToParams_paramsToFields]

/-- **Cache keys.**  Two lists of request parameters have one stream only if they are
equal.  Two lists of fields have one stream exactly when they have the same length, the
same names and values that are alike, provided that different hexadecimal numbers and
different networks are printed as different texts.  A list of fields and one of request
parameters have one stream only if the fields are passed as these parameters. -/
theorem cache_keys_separate_params [ValueText] :
    (∀ ps qs : List QueryParam, paramsBytes ps = paramsBytes qs ↔ ps = qs) ∧
      (Function.Injective ValueText.hex → Function.Injective ValueText.ipNet →
        ∀ fs gs : List DataField, fieldParamsBytes fs = fieldParamsBytes gs ↔
          List.Forall₂ (fun f g => f.getName = g.getName ∧ f.getValue.KeyedAlike g.getValue)
            fs gs) ∧
      ∀ (fs : List DataField) (ps : List QueryParam), fieldParamsBytes fs = paramsBytes ps →
        fieldsToParams fs = ps := by
  refine ⟨?_, ?_, fun fs ps h => fieldsToParams_eq_of_paramsBytes h⟩
  · intro ps qs
    constructor
    · intro h
      rw [← fieldParamsBytes_paramsToFields ps] at h
      have heq := fieldsToParams_eq_of_paramsBytes h
      rwa [fieldsToParams_paramsToFields] at heq
    · intro h
      rw [h]
  · intro hhex hnet fs gs
    rw [fieldParamsBytes_eq_iff_forall₂]
    simp only [Value.hashBytes_eq_iff_keyedAlike hhex hnet]

/-! ## Printing networks apart -/

/-- An address by its number, with a mark on those of sixteen bytes. -/
def markedAddr : IpAddr → String
  | .v4 octets => toString octets.toNat
  | .v6 octets => toString octets.toNat ++ ":"

/-- A rendering that prints different networks differently. -/
abbrev markedText : ValueText :=
  { numericText with ipNet := fun v => markedAddr v.addr ++ "/" ++ toString v.prefixLen }

/-- What is no digit is not in the text of a number. -/
theorem notMem_toList_toString {c : Char} (hc : c.isDigit = false) (n : Nat) :
    c ∉ (toString n).toList := by
  intro hmem
  rw [Nat.toString_eq_repr, Nat.toList_repr] at hmem
  have hdigit := Nat.isDigit_of_mem_toDigits (by decide) (by decide) hmem
  rw [hc] at hdigit
  exact Bool.false_ne_true hdigit

/-- Marked addresses are printed apart. -/
theorem markedAddr_injective : Function.Injective markedAddr := by
  intro v w h
  cases v with
  | v4 a =>
      cases w with
      | v4 b => rw [BitVec.eq_of_toNat_eq (Foundation.toString_nat_inj h)]
      | v6 b =>
          have hcolon : ':' ∈ (toString a.toNat).toList := by
            rw [show toString a.toNat = toString b.toNat ++ ":" from h, String.toList_append]
            simp
          exact absurd hcolon (notMem_toList_toString (by decide) _)
  | v6 a =>
      cases w with
      | v4 b =>
          have hcolon : ':' ∈ (toString b.toNat).toList := by
            rw [← show toString a.toNat ++ ":" = toString b.toNat from h, String.toList_append]
            simp
          exact absurd hcolon (notMem_toList_toString (by decide) _)
      | v6 b =>
          have hlist := congrArg String.toList h
          rw [markedAddr, markedAddr, String.toList_append, String.toList_append] at hlist
          have hdigits := String.toList_inj.mp (List.append_cancel_right hlist)
          rw [BitVec.eq_of_toNat_eq (Foundation.toString_nat_inj hdigits)]

/-- The mark between an address and the length of its prefix is not in the address. -/
theorem slash_notMem_markedAddr (v : IpAddr) : '/' ∉ (markedAddr v).toList := by
  cases v with
  | v4 octets => exact notMem_toList_toString (by decide) _
  | v6 octets =>
      rw [markedAddr, String.toList_append, List.mem_append, not_or]
      exact ⟨notMem_toList_toString (by decide) _, by simp⟩

/-- A null and an ignored value are confused, a text and a symbol are not. -/
theorem cache_keys_confuse_null_ignore :
    ∃ _ : ValueText,
      fieldParamsBytes [.new "a" .null, .new "b" (.chars "x")] =
        fieldParamsBytes [.new "a" .ignore, .new "b" (.chars "x")] ∧
      fieldParamsBytes [.new "b" (.chars "x")] ≠ fieldParamsBytes [.new "b" (.symbol "x")] := by
  have hhex : Function.Injective markedText.hex := by
    intro v w h
    have hvalue : v.value = w.value := BitVec.eq_of_toNat_eq (Foundation.toString_nat_inj h)
    exact congrArg Hex.mk hvalue
  have hnet : Function.Injective markedText.ipNet := by
    intro v w h
    have hlist : (markedAddr v.addr).toList ++ '/' :: (toString v.prefixLen).toList =
        (markedAddr w.addr).toList ++ '/' :: (toString w.prefixLen).toList := by
      have htext : markedAddr v.addr ++ "/" ++ toString v.prefixLen =
          markedAddr w.addr ++ "/" ++ toString w.prefixLen := h
      have hlist := congrArg String.toList htext
      rwa [String.toList_append, String.toList_append, String.toList_append,
        String.toList_append, List.append_assoc, List.append_assoc] at hlist
    have hparts := (List.append_cons_inj_of_notMem (slash_notMem_markedAddr v.addr)
      (notMem_toList_toString (by decide) v.prefixLen)).mp hlist
    have haddr := markedAddr_injective (String.toList_inj.mp hparts.1)
    have hlength := Foundation.toString_nat_inj (String.toList_inj.mp hparts.2.2)
    cases v
    cases w
    congr
  have hiff := (@cache_keys_separate_params markedText).2.1 hhex hnet
  refine ⟨markedText, ?_, ?_⟩
  · apply (hiff _ _).mpr
    exact .cons ⟨rfl, @Value.KeyedAlike.nullIgnore markedText⟩
      (.cons ⟨rfl, @Value.KeyedAlike.refl markedText _⟩ .nil)
  · intro heq
    have hfields := (hiff _ _).mp heq
    cases hfields with
    | cons hhead htail => nomatch hhead.2

end WpKnowledge
