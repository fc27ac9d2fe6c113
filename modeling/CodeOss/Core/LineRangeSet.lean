import Mathlib.Data.Set.Basic

/-! Ranges of lines, and sets of lines as sorted lists of them. -/

namespace CodeOss

/-- The loop of the binary searches: the part of the array that the predicate holds on comes first.
-/
def bisect {α : Type*} (array : List α) (before : α → Bool) (i j : ℕ) (hj : j ≤ array.length) : ℕ :=
  if h : i < j then
    let k := (i + j) / 2
    if before (array.get ⟨k, by omega⟩) then bisect array before (k + 1) j hj
    else bisect array before i k (by omega)
  else i
termination_by j - i

def findLastIdxMonotonous {α : Type*} (array : List α) (predicate : α → Bool) : ℤ :=
  bisect array predicate 0 array.length le_rfl - 1

def findLastMonotonous {α : Type*} (array : List α) (predicate : α → Bool) : Option α :=
  let idx := findLastIdxMonotonous array predicate
  if idx = -1 then none else array[idx.toNat]?

def findFirstIdxMonotonousOrArrLen {α : Type*} (array : List α) (predicate : α → Bool) : ℕ :=
  bisect array (fun item => !predicate item) 0 array.length le_rfl

/-- The constructor throws where the start is after the end. -/
@[ext]
structure LineRange where
  startLineNumber : ℤ
  endLineNumberExclusive : ℤ
  start_le_end : startLineNumber ≤ endLineNumberExclusive

namespace LineRange

def contains (range : LineRange) (lineNumber : ℤ) : Bool :=
  range.startLineNumber ≤ lineNumber && lineNumber < range.endLineNumberExclusive

variable (range : LineRange)

def isEmpty : Bool := range.startLineNumber = range.endLineNumberExclusive

def length : ℤ := range.endLineNumberExclusive - range.startLineNumber

def delta (offset : ℤ) : LineRange :=
  ⟨range.startLineNumber + offset, range.endLineNumberExclusive + offset,
    Int.add_le_add_right range.start_le_end offset⟩

def join (range other : LineRange) : LineRange :=
  ⟨min range.startLineNumber other.startLineNumber,
    max range.endLineNumberExclusive other.endLineNumberExclusive,
    (min_le_left _ _).trans (range.start_le_end.trans (le_max_left _ _))⟩

def intersect (range other : LineRange) : Option LineRange :=
  if h : max range.startLineNumber other.startLineNumber ≤
      min range.endLineNumberExclusive other.endLineNumberExclusive then some ⟨_, _, h⟩
  else none

end LineRange

/-- The array `_normalizedRanges`. -/
abbrev LineRangeSet := List LineRange

namespace LineRangeSet

/-- `none` where the code reads behind the end of the array. -/
def addRange (ranges : LineRangeSet) (range : LineRange) : Option LineRangeSet :=
  if range.length = 0 then some ranges
  else
    let joinRangeStartIdx := findFirstIdxMonotonousOrArrLen ranges
      fun r => r.endLineNumberExclusive ≥ range.startLineNumber
    let joinRangeEndIdxExclusive := (findLastIdxMonotonous ranges
      (fun r => r.startLineNumber ≤ range.endLineNumberExclusive) + 1).toNat
    if joinRangeStartIdx = joinRangeEndIdxExclusive then
      some (ranges.take joinRangeStartIdx ++ range :: ranges.drop joinRangeStartIdx)
    else if joinRangeStartIdx + 1 = joinRangeEndIdxExclusive then do
      let joinRange ← ranges[joinRangeStartIdx]?
      some (ranges.set joinRangeStartIdx (joinRange.join range))
    else do
      let first ← ranges[joinRangeStartIdx]?
      let last ← ranges[joinRangeEndIdxExclusive - 1]?
      some (ranges.take joinRangeStartIdx ++ (first.join last).join range ::
        ranges.drop (joinRangeStartIdx + (joinRangeEndIdxExclusive - joinRangeStartIdx)))

def contains (ranges : LineRangeSet) (lineNumber : ℤ) : Bool :=
  (findLastMonotonous ranges fun r => r.startLineNumber ≤ lineNumber).any fun r =>
    r.endLineNumberExclusive > lineNumber

def intersects (ranges : LineRangeSet) (range : LineRange) : Bool :=
  (findLastMonotonous ranges fun r => r.startLineNumber < range.endLineNumberExclusive).any fun r =>
    r.endLineNumberExclusive > range.startLineNumber

/-- The next range of the two arrays, and what is left of them. -/
def next : LineRangeSet → LineRangeSet → Option (LineRange × LineRangeSet × LineRangeSet)
  | lineRange1 :: rest1, lineRange2 :: rest2 =>
    if lineRange1.startLineNumber < lineRange2.startLineNumber then
      some (lineRange1, rest1, lineRange2 :: rest2)
    else some (lineRange2, lineRange1 :: rest1, rest2)
  | lineRange1 :: rest1, [] => some (lineRange1, rest1, [])
  | [], lineRange2 :: rest2 => some (lineRange2, [], rest2)
  | [], [] => none

theorem length_next {ranges other rest1 rest2 : LineRangeSet} {r : LineRange}
    (h : next ranges other = some (r, rest1, rest2)) :
    rest1.length + rest2.length + 1 = ranges.length + other.length := by
  unfold next at h
  split at h
  · split at h <;> cases h <;> simp only [List.length_cons] <;> omega
  · cases h
    simp
  · cases h
    simp
  · cases h

def unionLoop (ranges other : LineRangeSet) (current : LineRange) : LineRangeSet :=
  match h : next ranges other with
  | none => [current]
  | some (next, rest1, rest2) =>
    have : rest1.length + rest2.length < ranges.length + other.length := by
      have := length_next h
      omega
    if current.endLineNumberExclusive ≥ next.startLineNumber then
      unionLoop rest1 rest2 ⟨current.startLineNumber,
        max current.endLineNumberExclusive next.endLineNumberExclusive,
        current.start_le_end.trans (le_max_left _ _)⟩
    else current :: unionLoop rest1 rest2 next
termination_by ranges.length + other.length

def getUnion (ranges other : LineRangeSet) : LineRangeSet :=
  if ranges.isEmpty then other
  else if other.isEmpty then ranges
  else match next ranges other with
    | none => []
    | some (current, rest1, rest2) => unionLoop rest1 rest2 current

/-- The loop of `subtractFrom` over the ranges that touch the range, up to its end. -/
def subtractLoop (stop startLineNumber : ℤ) : LineRangeSet → LineRangeSet
  | [] => if h : startLineNumber < stop then [⟨startLineNumber, stop, h.le⟩] else []
  | r :: rest =>
    if h : r.startLineNumber > startLineNumber then
      ⟨startLineNumber, r.startLineNumber, h.lt.le⟩ :: subtractLoop stop r.endLineNumberExclusive rest
    else subtractLoop stop r.endLineNumberExclusive rest

def subtractFrom (ranges : LineRangeSet) (range : LineRange) : LineRangeSet :=
  let joinRangeStartIdx := findFirstIdxMonotonousOrArrLen ranges
    fun r => r.endLineNumberExclusive ≥ range.startLineNumber
  let joinRangeEndIdxExclusive := (findLastIdxMonotonous ranges
    (fun r => r.startLineNumber ≤ range.endLineNumberExclusive) + 1).toNat
  if joinRangeStartIdx = joinRangeEndIdxExclusive then [range]
  else subtractLoop range.endLineNumberExclusive range.startLineNumber
    ((ranges.take joinRangeEndIdxExclusive).drop joinRangeStartIdx)

def getIntersection : LineRangeSet → LineRangeSet → LineRangeSet
  | r1 :: rest1, r2 :: rest2 =>
    let rest := if r1.endLineNumberExclusive < r2.endLineNumberExclusive then
      getIntersection rest1 (r2 :: rest2) else getIntersection (r1 :: rest1) rest2
    match r1.intersect r2 with
    | some i => if i.isEmpty then rest else i :: rest
    | none => rest
  | _, _ => []
termination_by ranges other => ranges.length + other.length

def getWithDelta (ranges : LineRangeSet) (value : ℤ) : LineRangeSet :=
  ranges.map fun r => r.delta value

end LineRangeSet

end CodeOss
