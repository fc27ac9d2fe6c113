import Mathlib

/-! The sums of the first values of a list, kept until the values change, in two ways. -/

namespace CodeOss

/-- The last case is `v | 0`. -/
def toUint32 (v : ℤ) : ℤ :=
  if v < 0 then 0 else if v > 4294967295 then 4294967295 else Int.bmod v (2 ^ 32)

structure PrefixSumIndexOfResult where
  index : ℕ
  remainder : ℤ

structure PrefixSumComputer where
  values : List ℕ
  prefixSum : List ℕ
  prefixSumValidIndex : ℤ

namespace PrefixSumComputer

def new (values : List ℕ) : PrefixSumComputer := ⟨values, List.replicate values.length 0, -1⟩

/-- The new array, with the sums that can be trusted. -/
def trusted (prefixSum : List ℕ) (prefixSumValidIndex : ℤ) (length : ℕ) : List ℕ :=
  let kept := prefixSum.take (prefixSumValidIndex + 1).toNat
  kept ++ List.replicate (length - kept.length) 0

variable (c : PrefixSumComputer)

def cutBack (index : ℤ) : ℤ :=
  if index - 1 < c.prefixSumValidIndex then index - 1 else c.prefixSumValidIndex

def insertValues (insertIndex : ℤ) (insertValues : List ℕ) : PrefixSumComputer × Bool :=
  let insertIndex := toUint32 insertIndex
  if insertValues.length = 0 then (c, false)
  else
    let values := c.values.take insertIndex.toNat ++ insertValues ++ c.values.drop insertIndex.toNat
    let validIndex := c.cutBack insertIndex
    (⟨values, trusted c.prefixSum validIndex values.length, validIndex⟩, true)

def setValue (index value : ℤ) : PrefixSumComputer × Bool :=
  let index := toUint32 index
  let value := toUint32 value
  if c.values[index.toNat]?.any fun (old : ℕ) => (old : ℤ) = value then (c, false)
  else
    ({ c with
        values := c.values.set index.toNat (value % 2 ^ 32).toNat
        prefixSumValidIndex := c.cutBack index }, true)

def removeValues (startIndex count : ℤ) : PrefixSumComputer × Bool :=
  let startIndex := toUint32 startIndex
  let count := toUint32 count
  if startIndex ≥ c.values.length then (c, false)
  else
    let maxCount := c.values.length - startIndex
    let count := if count ≥ maxCount then maxCount else count
    if count = 0 then (c, false)
    else
      let values := c.values.take startIndex.toNat ++ c.values.drop (startIndex + count).toNat
      let validIndex := c.cutBack startIndex
      (⟨values, trusted c.prefixSum validIndex values.length, validIndex⟩, true)

/-- The loop of `_getPrefixSum` over `n` indices. -/
def addUp (values prefixSum : List ℕ) (i : ℕ) : ℕ → List ℕ
  | 0 => prefixSum
  | n + 1 => addUp values
    (prefixSum.set i ((prefixSum.getD (i - 1) 0 + values.getD i 0) % 2 ^ 32)) (i + 1) n

/-- `_getPrefixSum`. -/
def sumUpTo (index : ℕ) : PrefixSumComputer × ℕ :=
  if index ≤ c.prefixSumValidIndex then (c, c.prefixSum.getD index 0)
  else
    let startIndex := (c.prefixSumValidIndex + 1).toNat
    let prefixSum :=
      if startIndex = 0 then c.prefixSum.set 0 (c.values.getD 0 0) else c.prefixSum
    let startIndex := if startIndex = 0 then 1 else startIndex
    let index := if index ≥ c.values.length then c.values.length - 1 else index
    let prefixSum := addUp c.values prefixSum startIndex (index + 1 - startIndex)
    (⟨c.values, prefixSum, max c.prefixSumValidIndex index⟩, prefixSum.getD index 0)

def getTotalSum : PrefixSumComputer × ℕ :=
  if c.values.length = 0 then (c, 0) else c.sumUpTo (c.values.length - 1)

/-- The sum of the first `index + 1` values. -/
def getPrefixSum (index : ℤ) : PrefixSumComputer × ℕ :=
  if index < 0 then (c, 0) else c.sumUpTo (toUint32 index).toNat

/-- The loop of `getIndexOf`, which ends with `mid` and `midStart`. -/
def search (values prefixSum : List ℕ) (sum low high : ℤ) (mid : ℕ) (midStart : ℤ) : ℕ × ℤ :=
  if low ≤ high then
    let mid := (low + (high - low) / 2).toNat
    let midStop : ℤ := prefixSum.getD mid 0
    let midStart := midStop - values.getD mid 0
    if sum < midStart then search values prefixSum sum low (low + (high - low) / 2 - 1) mid midStart
    else if sum ≥ midStop then
      search values prefixSum sum (low + (high - low) / 2 + 1) high mid midStart
    else (mid, midStart)
  else (mid, midStart)
termination_by (high + 1 - low).toNat

def getIndexOf (sum : ℤ) : PrefixSumComputer × PrefixSumIndexOfResult :=
  let c := c.getTotalSum.1
  let found := search c.values c.prefixSum sum 0 (c.values.length - 1) 0 0
  (c, ⟨found.1, sum - found.2⟩)

end PrefixSumComputer

structure JsArray (α : Type) where
  get : ℕ → Option α
  length : ℕ

namespace JsArray

variable {α : Type}

def empty : JsArray α := ⟨fun _ => none, 0⟩

def set (a : JsArray α) (i : ℕ) (v : α) : JsArray α :=
  ⟨fun j => if j = i then some v else a.get j, max a.length (i + 1)⟩

def setLength (a : JsArray α) (n : ℕ) : JsArray α :=
  ⟨fun j => if j < n then a.get j else none, n⟩

end JsArray

structure ConstantTimePrefixSumComputer where
  values : List ℕ
  isValid : Bool
  validEndIndex : ℤ
  prefixSum : JsArray ℕ
  indexBySum : JsArray ℕ

namespace ConstantTimePrefixSumComputer

def new (values : List ℕ) : ConstantTimePrefixSumComputer := ⟨values, false, -1, .empty, .empty⟩

/-- A round of the loop of `_ensureValid`. -/
def enter (values : List ℕ) (sums : JsArray ℕ × JsArray ℕ) (i : ℕ) : JsArray ℕ × JsArray ℕ :=
  let value := values.getD i 0
  let sumAbove := if i > 0 then (sums.1.get (i - 1)).getD 0 else 0
  (sums.1.set i (sumAbove + value),
    (List.range value).foldl (fun indexBySum j => indexBySum.set (sumAbove + j) i) sums.2)

variable (c : ConstantTimePrefixSumComputer)

def ensureValid : ConstantTimePrefixSumComputer :=
  if c.isValid then c
  else
    let start := (c.validEndIndex + 1).toNat
    let sums := (List.range' start (c.values.length - start)).foldl (enter c.values)
      (c.prefixSum, c.indexBySum)
    let total :=
      if c.values.length > 0 then (sums.1.get (c.values.length - 1)).getD 0 else 0
    ⟨c.values, true, c.values.length - 1, sums.1.setLength c.values.length, sums.2.setLength total⟩

/-- `_invalidate`, with the new values. -/
def invalidate (values : List ℕ) (index : ℤ) : ConstantTimePrefixSumComputer :=
  { c with values, isValid := false, validEndIndex := min c.validEndIndex (index - 1) }

def getTotalSum : ConstantTimePrefixSumComputer × ℕ :=
  (c.ensureValid, c.ensureValid.indexBySum.length)

/-- The sum of the first `count` values. -/
def getPrefixSum (count : ℕ) : ConstantTimePrefixSumComputer × ℕ :=
  (c.ensureValid, if count = 0 then 0 else (c.ensureValid.prefixSum.get (count - 1)).getD 0)

def getIndexOf (sum : ℕ) : ConstantTimePrefixSumComputer × PrefixSumIndexOfResult :=
  let c := c.ensureValid
  (c, match c.indexBySum.get sum with
    | none =>
      let lastIdx := c.values.length - 1
      let lastPrefixSum := if lastIdx > 0 then (c.prefixSum.get (lastIdx - 1)).getD 0 else 0
      ⟨lastIdx, sum - lastPrefixSum⟩
    | some idx =>
      let viewLinesAbove := if idx > 0 then (c.prefixSum.get (idx - 1)).getD 0 else 0
      ⟨idx, sum - viewLinesAbove⟩)

def removeValues (start deleteCount : ℕ) : ConstantTimePrefixSumComputer :=
  c.invalidate (c.values.take start ++ c.values.drop (start + deleteCount)) start

def insertValues (insertIndex : ℕ) (insertArr : List ℕ) : ConstantTimePrefixSumComputer :=
  c.invalidate (c.values.take insertIndex ++ insertArr ++ c.values.drop insertIndex) insertIndex

def setValue (index value : ℕ) : ConstantTimePrefixSumComputer :=
  if c.values[index]? = some value then c else c.invalidate (c.values.set index value) index

end ConstantTimePrefixSumComputer

end CodeOss
