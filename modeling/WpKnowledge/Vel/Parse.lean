import WpKnowledge.Foundation.Text
import WpKnowledge.Model.Query

/-!
# The variable language of refresh statements

The parser of the code block of a refreshed statement: one assignment on each line,
of a string or of a call of one of two functions.  It has no tokens.  It cuts each line
at its first equals sign, a string at its first quote, a call at its first left and its
last right parenthesis, and arguments at every comma.

Which characters the standard library prints as they are in a debug text is the parameter
{lit}`isPrintable`.
-/

namespace WpKnowledge.Vel

/-! ## Characters and numbers -/

/-- The start of a name. -/
def isNameStart (c : Char) : Bool :=
  c.isAlpha || c == '_'

/-- What a name goes on with. -/
def isNameChar (c : Char) : Bool :=
  c.isAlphanum || c == '_'

/-- White space of Unicode (`char::is_whitespace`). -/
def isWhitespace (c : Char) : Bool :=
  (9 ≤ c.toNat && c.toNat ≤ 13) || c.toNat == 0x20 || c.toNat == 0x85 || c.toNat == 0xA0 ||
    c.toNat == 0x1680 || (0x2000 ≤ c.toNat && c.toNat ≤ 0x200A) || c.toNat == 0x2028 ||
    c.toNat == 0x2029 || c.toNat == 0x202F || c.toNat == 0x205F || c.toNat == 0x3000

/-- The text without white space around it (`str::trim`). -/
def trim (s : List Char) : List Char :=
  Foundation.trimBy isWhitespace s

/-- A decimal number of 64 bits (`str::parse::<u64>`). -/
def parseU64 (s : List Char) : Option UInt64 :=
  let digits := if s.head? = some '+' then s.tail else s
  if digits.isEmpty || !digits.all Char.isDigit then none
  else if Nat.ofDigitChars 10 digits 0 < UInt64.size then
    some (UInt64.ofNat (Nat.ofDigitChars 10 digits 0))
  else none

/-! ## Definitions and errors -/

/-- An assignment. -/
inductive VarDef where
  /-- A string, passed on as it is. -/
  | literal (name value : String)
  /-- A slot of a period: the label of the slot {lit}`offsetSlots` slots from now. -/
  | phaseBucket (name : String) (periodS bucketS : UInt64) (offsetSlots : Int64)
      (prefixText : String)
deriving DecidableEq, Repr

/-- The variable an assignment defines. -/
def VarDef.name : VarDef → String
  | literal name _ => name
  | phaseBucket name _ _ _ _ => name

/-- An error of this module. -/
def velErr (msg : String) : KnowledgeError :=
  { reason := .systemError, detail := s!"VEL: {msg}" }

/-- An error in a line, counted from zero. -/
def errAt (idx : Nat) (msg : String) : KnowledgeError :=
  velErr s!"第{idx + 1}行: {msg}"

/-! ## Expressions -/

section Parser

variable (isPrintable : Char → Bool)

/-- After an expression there is a comment or nothing. -/
def validateTail (tail whole : List Char) : Except String Unit :=
  let t := trim tail
  if t.isEmpty || t.head? = some '#' then .ok ()
  else .error
    s!"表达式后只允许 # 注释，实际尾缀 {Foundation.debugStr isPrintable t}（{String.ofList whole}）"

/-- The label in front of the number of a slot. -/
def prefixArg : Option (List Char) → Except String String
  | none => .ok "p"
  | some a =>
      if a.head? = some '"' ∧ a.getLast? = some '"' ∧ 2 ≤ a.length then
        .ok (String.ofList a.tail.dropLast)
      else .error s!"prefix 应为字符串字面量，实际 {Foundation.debugStr isPrintable a}"

/-- A number of seconds. -/
def num (fname : String) (a : List Char) : Except String UInt64 :=
  match parseU64 a with
  | some n => .ok n
  | none => .error s!"{fname}() 参数应为正整数秒，实际 {Foundation.debugStr isPrintable a}"

/-- A call of one of the two functions, with two or three arguments. -/
def phaseCall (name fname : String) (offsetSlots : Int64) (args : List (List Char)) :
    Except String VarDef :=
  match args with
  | [period, bucket] => phaseOf period bucket none
  | [period, bucket, label] => phaseOf period bucket (some label)
  | _ => .error s!"{fname}() 需 2~3 参数 (period_s, bucket_s[, prefix])，实际 {args.length}"
where
  /-- The slot of the arguments. -/
  phaseOf (period bucket : List Char) (label : Option (List Char)) : Except String VarDef := do
    let periodS ← num isPrintable fname period
    let bucketS ← num isPrintable fname bucket
    let prefixText ← prefixArg isPrintable label
    return .phaseBucket name periodS bucketS offsetSlots prefixText

/-- The arguments between the parentheses. -/
def splitArgs (inner : List Char) : List (List Char) :=
  let argsRaw := trim inner
  if argsRaw.isEmpty then [] else (argsRaw.splitOn ',').map trim

/-- The expression after the equals sign. -/
def parseExpr (name : String) (rhs : List Char) : Except String VarDef :=
  let expr := trim rhs
  if expr.head? = some '"' then
    match Foundation.cutFirst '"' expr.tail with
    | none => .error s!"字符串字面量未闭合: {String.ofList expr}"
    | some (value, tail) => do
        validateTail isPrintable tail expr
        return .literal name (String.ofList value)
  else
    match Foundation.cutFirst '(' expr with
    | none => .error
        s!"不支持的表达式: {String.ofList expr}（支持 字符串字面量 / VEL 内建函数）"
    | some (callee, call) =>
        -- a right parenthesis in front of the first left one closes nothing
        match Foundation.cutLast ')' call with
        | none => .error s!"函数调用缺右括号: {String.ofList expr}"
        | some (inner, tail) => do
            validateTail isPrintable tail expr
            let fname := String.ofList (trim callee)
            let args := splitArgs inner
            if fname = "phase_now" then phaseCall isPrintable name fname 0 args
            else if fname = "phase_next" then phaseCall isPrintable name fname 1 args
            else .error s!"未知 VEL 函数: {fname}"

/-! ## Lines -/

/-- A dollar sign and a name. -/
def isVariable (name : List Char) : Bool :=
  name.head? == some '$' && 1 < name.length && isNameStart (name.tail.head?.getD '_') &&
    name.tail.all isNameChar

/-- The variable and the assignment of a line that is neither empty nor a comment. -/
def parseAssignment (idx : Nat) (seen : List String) (line : List Char) :
    KnowledgeResult (String × VarDef) :=
  match Foundation.cutFirst '=' line with
  | none => .error (errAt idx s!"缺 '=' 的赋值行: {String.ofList line}")
  | some (lhs, rhs) =>
      let name := trim lhs
      if !isVariable name then
        .error (errAt idx
          s!"左侧应为 $name（[A-Za-z_][A-Za-z0-9_]*），实际 {String.ofList name}")
      else
        let key := String.ofList name.tail
        if key ∈ seen then .error (errAt idx s!"变量重复定义: {String.ofList name}")
        else ((parseExpr isPrintable key (trim rhs)).map (key, ·)).mapError (errAt idx)

/-- The assignments of the lines from a number on; the names before are known. -/
def parseLines : Nat → List String → List (List Char) → KnowledgeResult (List VarDef)
  | _, _, [] => .ok []
  | idx, seen, raw :: rest =>
      let line := trim raw
      if line.isEmpty || line.head? = some '#' then parseLines (idx + 1) seen rest
      else do
        let assigned ← parseAssignment isPrintable idx seen line
        let out ← parseLines (idx + 1) (assigned.1 :: seen) rest
        return assigned.2 :: out

/-- The assignments of a code block, in order. -/
def parse (code : String) : KnowledgeResult (List VarDef) :=
  parseLines isPrintable 0 [] (Foundation.lines code.toList)

end Parser

end WpKnowledge.Vel
