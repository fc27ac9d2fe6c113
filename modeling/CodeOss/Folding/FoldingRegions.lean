import Mathlib

/-! `FoldingRegions`: the ranges in two arrays of 32 bit words, whose upper bytes take the index of
the parent region on first use, and the states of the regions in bit fields. -/

namespace CodeOss.Folding

inductive FoldSource
  | provider
  | userDefined
  | recovered
  deriving DecidableEq

abbrev Uint32Array := List UInt32

/-- Outside of an array stands `undefined`, which the bit operators read as zero. -/
def Uint32Array.at (words : Uint32Array) (index : ℕ) : UInt32 := words.getD index 0

def MAX_FOLDING_REGIONS : ℕ := 0xFFFF
def MAX_LINE_NUMBER : UInt32 := 0xFFFFFF
def MASK_INDENT : UInt32 := 0xFF000000

structure BitField where
  states : Uint32Array

namespace BitField

def ofSize (size : ℕ) : BitField := ⟨List.replicate ((size + 31) / 32) 0⟩

def bit (index : ℕ) : UInt32 := 1 <<< (index % 32).toUInt32

def get (field : BitField) (index : ℕ) : Bool :=
  field.states.at (index / 32) &&& bit index != 0

def set (field : BitField) (index : ℕ) (newState : Bool) : BitField :=
  let arrayIndex := index / 32
  let value := field.states.at arrayIndex
  if newState then ⟨field.states.set arrayIndex (value ||| bit index)⟩
  else ⟨field.states.set arrayIndex (value &&& ~~~(bit index))⟩

end BitField

structure FoldingRegions where
  startIndexes : Uint32Array
  endIndexes : Uint32Array
  collapseStates : BitField
  userDefinedStates : BitField
  recoveredStates : BitField
  parentsComputed : Bool

namespace FoldingRegions

def new (startIndexes endIndexes : Uint32Array) : Except String FoldingRegions :=
  if startIndexes.length ≠ endIndexes.length ∨ startIndexes.length > MAX_FOLDING_REGIONS then
    .error "invalid startIndexes or endIndexes size"
  else
    .ok { startIndexes, endIndexes
          collapseStates := .ofSize startIndexes.length
          userDefinedStates := .ofSize startIndexes.length
          recoveredStates := .ofSize startIndexes.length
          parentsComputed := false }

variable (regions : FoldingRegions)

def getStartLineNumber (index : ℕ) : UInt32 :=
  regions.startIndexes.at index &&& MAX_LINE_NUMBER

def getEndLineNumber (index : ℕ) : UInt32 :=
  regions.endIndexes.at index &&& MAX_LINE_NUMBER

def isInside (startLineNumber endLineNumber : UInt32) (index : ℕ) : Bool :=
  regions.getStartLineNumber index ≤ startLineNumber &&
    regions.getEndLineNumber index ≥ endLineNumber

/-- A parent's index as the bit operators read it, -1 for no parent. -/
def parentWord : Option ℕ → UInt32
  | none => .ofInt (-1)
  | some index => .ofNat index

/-- The rounds from `i` on, `parentIndexes` with its last element first. -/
def ensureFrom : (rounds i : ℕ) → List ℕ → FoldingRegions → Except String Unit × FoldingRegions
  | 0, _, _, regions => (.ok (), regions)
  | rounds + 1, i, parentIndexes, regions =>
    let startLineNumber := regions.startIndexes.at i
    let endLineNumber := regions.endIndexes.at i
    if startLineNumber > MAX_LINE_NUMBER ∨ endLineNumber > MAX_LINE_NUMBER then
      (.error ("startLineNumber or endLineNumber must not exceed " ++ toString MAX_LINE_NUMBER),
        regions)
    else
      let parentIndexes :=
        parentIndexes.dropWhile fun index => !regions.isInside startLineNumber endLineNumber index
      let parentIndex := parentWord parentIndexes.head?
      ensureFrom rounds (i + 1) (i :: parentIndexes)
        { regions with
          startIndexes := regions.startIndexes.set i
            (startLineNumber + ((parentIndex &&& 0xFF) <<< 24))
          endIndexes := regions.endIndexes.set i
            (endLineNumber + ((parentIndex &&& 0xFF00) <<< 16)) }

def ensureParentIndices : Except String Unit × FoldingRegions :=
  if regions.parentsComputed then (.ok (), regions)
  else ensureFrom regions.startIndexes.length 0 [] { regions with parentsComputed := true }

def length : ℕ := regions.startIndexes.length

def isCollapsed (index : ℕ) : Bool := regions.collapseStates.get index

def setCollapsed (index : ℕ) (newState : Bool) : FoldingRegions :=
  { regions with collapseStates := regions.collapseStates.set index newState }

def getSource (index : ℕ) : FoldSource :=
  if regions.userDefinedStates.get index then .userDefined
  else if regions.recoveredStates.get index then .recovered
  else .provider

def setSource (index : ℕ) (source : FoldSource) : FoldingRegions :=
  { regions with
    userDefinedStates := regions.userDefinedStates.set index (source == .userDefined)
    recoveredStates := regions.recoveredStates.set index (source == .recovered) }

/-- The parent's index as it is read out of the upper bytes. -/
def unpackedParent (index : ℕ) : ℤ :=
  let parent := ((regions.startIndexes.at index &&& MASK_INDENT) >>> 24).toNat +
    ((regions.endIndexes.at index &&& MASK_INDENT) >>> 16).toNat
  if parent = MAX_FOLDING_REGIONS then -1 else parent

def getParentIndex (index : ℕ) : Except String ℤ × FoldingRegions :=
  match regions.ensureParentIndices with
  | (.error e, regions) => (.error e, regions)
  | (.ok (), regions) => (.ok (regions.unpackedParent index), regions)

def contains (index : ℕ) (line : UInt32) : Bool :=
  regions.getStartLineNumber index ≤ line && regions.getEndLineNumber index ≥ line

def findIndexFrom (regions : FoldingRegions) (line : UInt32) (low high : ℕ) : ℤ :=
  if h : low < high then
    let mid := (low + high) / 2
    if line < regions.getStartLineNumber mid then findIndexFrom regions line low mid
    else findIndexFrom regions line (mid + 1) high
  else (low : ℤ) - 1
termination_by high - low

def findIndex (line : UInt32) : ℤ :=
  if regions.length = 0 then -1 else findIndexFrom regions line 0 regions.length

/-- Up the parents from `index`; the fuel is for the rounds of the loop. -/
def findParent : (fuel : ℕ) → FoldingRegions → ℤ → UInt32 →
    Option (Except String ℤ × FoldingRegions)
  | 0, _, _, _ => none
  | fuel + 1, regions, index, line =>
    if index = -1 then some (.ok (-1), regions)
    else if regions.contains index.toNat line then some (.ok index, regions)
    else
      match regions.getParentIndex index.toNat with
      | (.error e, regions) => some (.error e, regions)
      | (.ok index, regions) => findParent fuel regions index line

def findRange (fuel : ℕ) (regions : FoldingRegions) (line : UInt32) :
    Option (Except String ℤ × FoldingRegions) :=
  let index := regions.findIndex line
  if index ≥ 0 then
    if regions.getEndLineNumber index.toNat ≥ line then some (.ok index, regions)
    else
      match regions.getParentIndex index.toNat with
      | (.error e, regions) => some (.error e, regions)
      | (.ok index, regions) => findParent fuel regions index line
  else some (.ok (-1), regions)

end FoldingRegions

end CodeOss.Folding
