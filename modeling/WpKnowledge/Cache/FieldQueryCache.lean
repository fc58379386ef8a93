import WpKnowledge.Foundation.LruCache
import WpKnowledge.Foundation.Numbering
import WpKnowledge.Model.DataField

/-!
# The local field query cache

`FieldQueryCache` (`src/cache.rs`) keys a row by a scope and a tuple of small
numbers, one number per parameter.  Seven index tables hand out the numbers from
one shared counter; when the counter reaches `MAX_LOCAL_IDX`, the next
allocation throws away every table, every row and every remembered generation.

The six `CacheAble` implementations differ only in their arity, so one
definition over the list of parameters stands for all of them.

Main results:

- Theorem {lit}`getIdx_eq`: the seven lookups are one lookup of the parameter's
  cache identity.
- Theorem {lit}`tryUpIdx_eq`: after the reset test, an allocation either finds
  the number of the identity or allots the next one.
-/

namespace WpKnowledge

open Foundation

/-- Upper bound of the index counter; reaching it resets the whole cache. -/
def maxLocalIdx : Nat := 100000

/-- The numbers of one to six parameters. -/
inductive EnumSizeIndex where
  | idx1 (i0 : Nat)
  | idx2 (i0 i1 : Nat)
  | idx3 (i0 i1 i2 : Nat)
  | idx4 (i0 i1 i2 i3 : Nat)
  | idx5 (i0 i1 i2 i3 i4 : Nat)
  | idx6 (i0 i1 i2 i3 i4 i5 : Nat)
deriving DecidableEq, Repr

namespace EnumSizeIndex

/-- The numbers in order. -/
def toList : EnumSizeIndex → List Nat
  | idx1 i0 => [i0]
  | idx2 i0 i1 => [i0, i1]
  | idx3 i0 i1 i2 => [i0, i1, i2]
  | idx4 i0 i1 i2 i3 => [i0, i1, i2, i3]
  | idx5 i0 i1 i2 i3 i4 => [i0, i1, i2, i3, i4]
  | idx6 i0 i1 i2 i3 i4 i5 => [i0, i1, i2, i3, i4, i5]

/-- The index of a list of one to six numbers; there is no implementation of the
cache for any other arity. -/
def ofList : List Nat → Option EnumSizeIndex
  | [i0] => some (idx1 i0)
  | [i0, i1] => some (idx2 i0 i1)
  | [i0, i1, i2] => some (idx3 i0 i1 i2)
  | [i0, i1, i2, i3] => some (idx4 i0 i1 i2 i3)
  | [i0, i1, i2, i3, i4] => some (idx5 i0 i1 i2 i3 i4)
  | [i0, i1, i2, i3, i4, i5] => some (idx6 i0 i1 i2 i3 i4 i5)
  | _ => none

/-- An index keeps all the numbers it was made from. -/
theorem toList_of_ofList {is : List Nat} {e : EnumSizeIndex} (h : ofList is = some e) :
    e.toList = is := by
  unfold ofList at h
  split at h <;> simp only [Option.some.injEq, reduceCtorEq] at h <;> subst h <;> rfl

/-- One to six numbers are an index. -/
theorem exists_ofList {is : List Nat} (hne : is ≠ []) (hsix : is.length ≤ 6) :
    ∃ e, ofList is = some e := by
  match is, hne, hsix with
  | [i0], _, _ => exact ⟨_, rfl⟩
  | [i0, i1], _, _ => exact ⟨_, rfl⟩
  | [i0, i1, i2], _, _ => exact ⟨_, rfl⟩
  | [i0, i1, i2, i3], _, _ => exact ⟨_, rfl⟩
  | [i0, i1, i2, i3, i4], _, _ => exact ⟨_, rfl⟩
  | [i0, i1, i2, i3, i4, i5], _, _ => exact ⟨_, rfl⟩
  | _ :: _ :: _ :: _ :: _ :: _ :: _ :: _, _, hsix =>
      simp only [List.length_cons] at hsix
      omega

end EnumSizeIndex

/-- The key of a cached row. -/
structure LocalCacheKey where
  scopeHash : UInt64
  idxs : EnumSizeIndex
deriving DecidableEq, Repr

/-- The local cache: seven index tables, the cached rows, the index counter and
the generation remembered for each scope. -/
structure FieldQueryCache where
  strIdx : HashMap String Nat
  i64Idx : HashMap Int64 Nat
  ipIdx : HashMap IpAddr Nat
  biguintIdx : HashMap Nat Nat
  boolIdx : HashMap Bool Nat
  floatIdx : HashMap UInt64 Nat
  textIdx : HashMap String Nat
  cacheData : LruCache LocalCacheKey RowData
  idxNum : Nat
  generations : HashMap UInt64 Nat

/-- The table and the key under which a parameter is numbered. -/
inductive CacheIdent where
  | chars (v : String)
  | int (v : Int64)
  | ipAddr (v : IpAddr)
  | bigUint (v : Nat)
  | bool (v : Bool)
  | float (bits : UInt64)
  | text (v : String)
deriving DecidableEq, Repr

namespace FieldQueryCache

/-- A new cache for `size` rows, at least one. -/
def withCapacity (size : Nat) : FieldQueryCache where
  strIdx := ∅
  i64Idx := ∅
  ipIdx := ∅
  biguintIdx := ∅
  boolIdx := ∅
  floatIdx := ∅
  textIdx := ∅
  cacheData := LruCache.new (max size 1) (by omega)
  idxNum := 0
  generations := ∅

section Operations

variable [ValueText]

/-- The number of a parameter, if its value has one. -/
def getIdx (c : FieldQueryCache) (param : DataField) : Option Nat :=
  match param.getValue with
  | .chars v => c.strIdx.lookup v
  | .int v => c.i64Idx.lookup v
  | .ipAddr v => c.ipIdx.lookup v
  | .bigUint v => c.biguintIdx.lookup v
  | .bool v => c.boolIdx.lookup v
  | .float v => c.floatIdx.lookup v.toBits
  | .symbol v => c.textIdx.lookup v
  | .time v => c.textIdx.lookup (ValueText.time v)
  | .hex v => c.textIdx.lookup (ValueText.hex v)
  | .ipNet v => c.textIdx.lookup (ValueText.ipNet v)
  | .domain v => c.textIdx.lookup v
  | .url v => c.textIdx.lookup v
  | .email v => c.textIdx.lookup v
  | .idCard v => c.textIdx.lookup v
  | .mobilePhone v => c.textIdx.lookup v
  | .null | .ignore | .obj _ | .array _ => none

omit [ValueText] in
/-- Find or allot the number of a text-like key. -/
def upTextIdx (c : FieldQueryCache) (key : String) : FieldQueryCache × Option Nat :=
  match c.textIdx.lookup key with
  | some idx => (c, some idx)
  | none =>
      let n := c.idxNum + 1
      ({ c with idxNum := n, textIdx := c.textIdx.insert key n }, some n)

omit [ValueText] in
/-- Throw away every table, every row and every remembered generation. -/
def reset (c : FieldQueryCache) : FieldQueryCache where
  strIdx := ∅
  i64Idx := ∅
  ipIdx := ∅
  biguintIdx := ∅
  boolIdx := ∅
  floatIdx := ∅
  textIdx := ∅
  cacheData := c.cacheData.clear
  idxNum := 0
  generations := ∅

omit [ValueText] in
/-- The test at the head of `try_up_idx`: a full counter resets the cache. -/
def resetIfFull (c : FieldQueryCache) : FieldQueryCache :=
  if c.idxNum ≥ maxLocalIdx then c.reset else c

/-- Find or allot the number of a parameter, resetting a full cache first. -/
def tryUpIdx (c₀ : FieldQueryCache) (param : DataField) : FieldQueryCache × Option Nat :=
  let c := c₀.resetIfFull
  let n := c.idxNum + 1
  match param.getValue with
  | .chars v =>
      match c.strIdx.lookup v with
      | some idx => (c, some idx)
      | none => ({ c with idxNum := n, strIdx := c.strIdx.insert v n }, some n)
  | .int v =>
      match c.i64Idx.lookup v with
      | some idx => (c, some idx)
      | none => ({ c with idxNum := n, i64Idx := c.i64Idx.insert v n }, some n)
  | .ipAddr v =>
      match c.ipIdx.lookup v with
      | some idx => (c, some idx)
      | none => ({ c with idxNum := n, ipIdx := c.ipIdx.insert v n }, some n)
  | .bigUint v =>
      match c.biguintIdx.lookup v with
      | some idx => (c, some idx)
      | none => ({ c with idxNum := n, biguintIdx := c.biguintIdx.insert v n }, some n)
  | .bool v =>
      match c.boolIdx.lookup v with
      | some idx => (c, some idx)
      | none => ({ c with idxNum := n, boolIdx := c.boolIdx.insert v n }, some n)
  | .float v =>
      match c.floatIdx.lookup v.toBits with
      | some idx => (c, some idx)
      | none => ({ c with idxNum := n, floatIdx := c.floatIdx.insert v.toBits n }, some n)
  | .symbol v => c.upTextIdx v
  | .time v => c.upTextIdx (ValueText.time v)
  | .hex v => c.upTextIdx (ValueText.hex v)
  | .ipNet v => c.upTextIdx (ValueText.ipNet v)
  | .domain v => c.upTextIdx v
  | .url v => c.upTextIdx v
  | .email v => c.upTextIdx v
  | .idCard v => c.upTextIdx v
  | .mobilePhone v => c.upTextIdx v
  | .null | .ignore | .obj _ | .array _ => (c, none)

omit [ValueText] in
/-- Announce the generation of a scope: on a change, drop the rows of the scope. -/
def prepareGenerationScoped (c : FieldQueryCache) (scope : UInt64) (generation : Nat) :
    FieldQueryCache :=
  if c.generations.lookup scope = some generation then c
  else
    let stale := (c.cacheData.entries.filter fun e => e.1.scopeHash = scope).map Prod.fst
    { c with
      generations := c.generations.insert scope generation
      cacheData := stale.foldl LruCache.pop c.cacheData }

/-- Allocate the numbers of all parameters, in order.  Every parameter is
visited, also after one that has no number. -/
def tryUpIdxs : FieldQueryCache → List DataField → FieldQueryCache × List (Option Nat)
  | c, [] => (c, [])
  | c, p :: ps =>
      let (c₁, i) := c.tryUpIdx p
      let (c₂, is) := tryUpIdxs c₁ ps
      (c₂, i :: is)

/-- Save a row: number the parameters and, when all of them have a number, put
the row under the tuple of numbers. -/
def saveScoped (c : FieldQueryCache) (scopeHash : UInt64) (params : List DataField)
    (result : RowData) : FieldQueryCache :=
  let (c₁, is) := c.tryUpIdxs params
  match (is.mapM id).bind EnumSizeIndex.ofList with
  | some idxs => { c₁ with cacheData := c₁.cacheData.put ⟨scopeHash, idxs⟩ result }
  | none => c₁

/-- Fetch the row saved under the numbers of the parameters. -/
def fetchScoped (c : FieldQueryCache) (scopeHash : UInt64) (params : List DataField) :
    Option RowData :=
  match (params.mapM c.getIdx).bind EnumSizeIndex.ofList with
  | some idxs => c.cacheData.peek ⟨scopeHash, idxs⟩
  | none => none

end Operations

/-! ## The index tables as one numbering of identities -/

/-- The number an identity has in its table. -/
def number (c : FieldQueryCache) : CacheIdent → Option Nat
  | .chars v => c.strIdx.lookup v
  | .int v => c.i64Idx.lookup v
  | .ipAddr v => c.ipIdx.lookup v
  | .bigUint v => c.biguintIdx.lookup v
  | .bool v => c.boolIdx.lookup v
  | .float bits => c.floatIdx.lookup bits
  | .text v => c.textIdx.lookup v

/-- Give the next number to an identity, in its table. -/
def allot (c : FieldQueryCache) (k : CacheIdent) : FieldQueryCache :=
  let n := c.idxNum + 1
  match k with
  | .chars v => { c with idxNum := n, strIdx := c.strIdx.insert v n }
  | .int v => { c with idxNum := n, i64Idx := c.i64Idx.insert v n }
  | .ipAddr v => { c with idxNum := n, ipIdx := c.ipIdx.insert v n }
  | .bigUint v => { c with idxNum := n, biguintIdx := c.biguintIdx.insert v n }
  | .bool v => { c with idxNum := n, boolIdx := c.boolIdx.insert v n }
  | .float bits => { c with idxNum := n, floatIdx := c.floatIdx.insert bits n }
  | .text v => { c with idxNum := n, textIdx := c.textIdx.insert v n }

@[simp]
theorem allot_idxNum (c : FieldQueryCache) (k : CacheIdent) :
    (c.allot k).idxNum = c.idxNum + 1 := by
  cases k <;> rfl

@[simp]
theorem allot_cacheData (c : FieldQueryCache) (k : CacheIdent) :
    (c.allot k).cacheData = c.cacheData := by
  cases k <;> rfl

@[simp]
theorem allot_generations (c : FieldQueryCache) (k : CacheIdent) :
    (c.allot k).generations = c.generations := by
  cases k <;> rfl

/-- Allotting in one table is allotting in the numbering of identities. -/
theorem allot_number (c : FieldQueryCache) (k : CacheIdent) :
    (c.allot k).number = allotNumber c.number k (c.idxNum + 1) := by
  funext a
  by_cases hak : a = k
  · subst hak
    cases a <;> simp [allot, number]
  · rw [allotNumber_of_ne _ hak]
    -- either another table, or the same table at another key
    cases a <;> cases k <;> simp only [allot, number] <;>
      rw [AList.lookup_insert_ne (by intro h; exact hak (by rw [h]))]

@[simp]
theorem reset_number (c : FieldQueryCache) : c.reset.number = fun _ => none := by
  funext a
  cases a <;> simp [reset, number]

@[simp]
theorem withCapacity_number (size : Nat) :
    (withCapacity size).number = fun _ => none := by
  funext a
  cases a <;> simp [withCapacity, number]

theorem resetIfFull_of_lt {c : FieldQueryCache} (h : c.idxNum < maxLocalIdx) :
    c.resetIfFull = c := by
  rw [resetIfFull, if_neg (by omega)]

theorem resetIfFull_of_ge {c : FieldQueryCache} (h : maxLocalIdx ≤ c.idxNum) :
    c.resetIfFull = c.reset := by
  rw [resetIfFull, if_pos h]

end FieldQueryCache

/-- The cache identity of a parameter, if its kind can be cached. -/
def DataField.cacheIdent [ValueText] (param : DataField) : Option CacheIdent :=
  match param.getValue with
  | .chars v => some (.chars v)
  | .int v => some (.int v)
  | .ipAddr v => some (.ipAddr v)
  | .bigUint v => some (.bigUint v)
  | .bool v => some (.bool v)
  | .float v => some (.float v.toBits)
  | .symbol v => some (.text v)
  | .time v => some (.text (ValueText.time v))
  | .hex v => some (.text (ValueText.hex v))
  | .ipNet v => some (.text (ValueText.ipNet v))
  | .domain v => some (.text v)
  | .url v => some (.text v)
  | .email v => some (.text v)
  | .idCard v => some (.text v)
  | .mobilePhone v => some (.text v)
  | .null | .ignore | .obj _ | .array _ => none

namespace FieldQueryCache

variable [ValueText]

/-- The seven lookups are one lookup of the identity. -/
theorem getIdx_eq (c : FieldQueryCache) (p : DataField) :
    c.getIdx p = p.cacheIdent.bind c.number := by
  obtain ⟨name, value⟩ := p
  cases value <;> rfl

/-- What `try_up_idx` does once the reset test has been made. -/
def upIdent (c : FieldQueryCache) (k : CacheIdent) : FieldQueryCache × Option Nat :=
  match c.number k with
  | some idx => (c, some idx)
  | none => (c.allot k, some (c.idxNum + 1))

/-- An allocation finds the number of the identity or allots the next one. -/
theorem tryUpIdx_eq (c : FieldQueryCache) (p : DataField) :
    c.tryUpIdx p =
      match p.cacheIdent with
      | some k => c.resetIfFull.upIdent k
      | none => (c.resetIfFull, none) := by
  obtain ⟨name, value⟩ := p
  cases value <;> rfl

end FieldQueryCache

end WpKnowledge
