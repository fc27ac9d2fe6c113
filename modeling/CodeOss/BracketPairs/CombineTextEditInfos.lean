import CodeOss.BracketPairs.Length

/-! Two lists of edit infos, one after the other, as one list. -/

namespace CodeOss

structure TextEditInfo where
  startOffset : Nat
  endOffset : Nat
  newLength : Nat
  deriving DecidableEq

/-- If `modified` is false, length before and length after are equal. -/
structure LengthMapping where
  modified : Bool
  lengthBefore : Nat
  lengthAfter : Nat
  deriving DecidableEq

namespace LengthMapping

def splitAt (m : LengthMapping) (lengthAfter : Nat) : LengthMapping × Option LengthMapping :=
  let remainingLengthAfter := lengthDiffNonNegative lengthAfter m.lengthAfter
  if lengthEquals remainingLengthAfter lengthZero then (m, none)
  else if m.modified then
    (⟨m.modified, m.lengthBefore, lengthAfter⟩,
      some ⟨m.modified, lengthZero, remainingLengthAfter⟩)
  else
    (⟨m.modified, lengthAfter, lengthAfter⟩,
      some ⟨m.modified, remainingLengthAfter, remainingLengthAfter⟩)

theorem splitAt_lengthAfter {m item remainingItem : LengthMapping} {lengthAfter : Nat}
    (h : m.splitAt lengthAfter = (item, some remainingItem)) : item.lengthAfter = lengthAfter := by
  simp only [splitAt] at h
  split_ifs at h
  · simp at h
  · rw [Prod.mk.injEq] at h
    rw [← h.1]
  · rw [Prod.mk.injEq] at h
    rw [← h.1]

end LengthMapping

def toLengthMappingFrom (lastOffset : Nat) : List TextEditInfo → List LengthMapping
  | [] => []
  | textEditInfo :: textEditInfos =>
    let spaceLength := lengthDiffNonNegative lastOffset textEditInfo.startOffset
    let space := if lengthIsZero spaceLength then [] else [⟨false, spaceLength, spaceLength⟩]
    let lengthBefore := lengthDiffNonNegative textEditInfo.startOffset textEditInfo.endOffset
    space ++ ⟨true, lengthBefore, textEditInfo.newLength⟩ ::
      toLengthMappingFrom textEditInfo.endOffset textEditInfos

def toLengthMapping (textEditInfos : List TextEditInfo) : List LengthMapping :=
  toLengthMappingFrom lengthZero textEditInfos

/-- `curItem` and the items still in the queue. -/
structure S0ToS1Map where
  curItem : Option LengthMapping
  queue : List LengthMapping

namespace S0ToS1Map

def ofItems (items : List LengthMapping) : S0ToS1Map := ⟨items.head?, items.tail⟩

/-- The loop of `nextS0ToS1MapWithS1LengthOf` and what follows it. -/
def takeLength (map : S0ToS1Map) (s1Length : Nat) : List LengthMapping × S0ToS1Map :=
  match map with
  | ⟨none, queue⟩ =>
    (if lengthIsZero s1Length then [] else [⟨false, s1Length, s1Length⟩], ⟨none, queue⟩)
  | ⟨some curItem, queue⟩ =>
    if lengthIsZero s1Length then ([], ⟨some curItem, queue⟩)
    else
      match _hsplit : curItem.splitAt s1Length with
      | (item, some remainingItem) =>
        let later := takeLength ⟨some remainingItem, queue⟩
          (lengthDiffNonNegative item.lengthAfter s1Length)
        (item :: later.1, later.2)
      | (item, none) =>
        let later := takeLength (ofItems queue)
          (lengthDiffNonNegative item.lengthAfter s1Length)
        (item :: later.1, later.2)
termination_by (map.curItem.toList.length + map.queue.length, s1Length)
decreasing_by
  · have hzero : lengthDiffNonNegative item.lengthAfter s1Length = 0 := by
      rw [LengthMapping.splitAt_lengthAfter _hsplit]
      exact if_pos le_rfl
    rename_i hlength
    refine Prod.Lex.right _ ?_
    rw [hzero]
    exact Nat.pos_of_ne_zero fun h => hlength (by rw [h]; rfl)
  · refine Prod.Lex.left _ _ ?_
    cases queue <;> simp [ofItems]

theorem takeLength_zero (map : S0ToS1Map) : map.takeLength 0 = ([], map) := by
  obtain ⟨_ | curItem, queue⟩ := map <;> simp [takeLength, lengthIsZero]

theorem takeLength_whole {curItem item : LengthMapping} {s1Length : Nat}
    (hlength : ¬lengthIsZero s1Length) (hsplit : curItem.splitAt s1Length = (item, none))
    (queue : List LengthMapping) :
    takeLength ⟨some curItem, queue⟩ s1Length =
      let later := takeLength (ofItems queue) (lengthDiffNonNegative item.lengthAfter s1Length)
      (item :: later.1, later.2) := by
  rw [takeLength, if_neg hlength]
  split <;> simp_all

theorem takeLength_part
    {curItem item remainingItem : LengthMapping} {s1Length : Nat} (hlength : ¬lengthIsZero s1Length)
    (hsplit : curItem.splitAt s1Length = (item, some remainingItem)) (queue : List LengthMapping) :
    takeLength ⟨some curItem, queue⟩ s1Length = ([item], ⟨some remainingItem, queue⟩) := by
  have hzero : lengthDiffNonNegative s1Length s1Length = 0 := if_pos le_rfl
  rw [takeLength, if_neg hlength]
  split
  · next later h =>
    rw [hsplit, Prod.mk.injEq, Option.some.injEq] at h
    obtain ⟨rfl, rfl⟩ := h
    rw [LengthMapping.splitAt_lengthAfter hsplit, hzero, takeLength_zero]
  · next h => simp [hsplit] at h

/-- `nextS0ToS1MapWithS1LengthOf`; without a length all the rest is taken. -/
def next (map : S0ToS1Map) (s1Length : Option Nat) : List LengthMapping × S0ToS1Map :=
  match s1Length with
  | none => (map.curItem.toList ++ map.queue, { map with queue := [] })
  | some s1Length => map.takeLength s1Length

end S0ToS1Map

def pushEdit (result : List TextEditInfo) (startOffset endOffset newLength : Nat) :
    List TextEditInfo :=
  match result.getLast? with
  | some lastResult =>
    if lengthEquals lastResult.endOffset startOffset then
      result.dropLast ++
        [⟨lastResult.startOffset, endOffset, lengthAdd lastResult.newLength newLength⟩]
    else result ++ [⟨startOffset, endOffset, newLength⟩]
  | none => result ++ [⟨startOffset, endOffset, newLength⟩]

structure CombineState where
  result : List TextEditInfo
  s0offset : Nat
  s0ToS1Map : S0ToS1Map

namespace CombineState

/-- An item of the first map in a part that the second edits do not modify. -/
def copyItem (st : CombineState) (s1 : LengthMapping) : CombineState :=
  let s0offset := lengthAdd st.s0offset s1.lengthBefore
  { st with
    result := if s1.modified then pushEdit st.result st.s0offset s0offset s1.lengthAfter
      else st.result
    s0offset }

/-- An item of the second map; behind the last of them everything is copied. -/
def step (st : CombineState) (s1ToS2 : Option LengthMapping) : CombineState :=
  let (s0ToS1Map, map) := st.s0ToS1Map.next (s1ToS2.map (·.lengthBefore))
  let st := { st with s0ToS1Map := map }
  match s1ToS2 with
  | some ⟨true, _, lengthAfter⟩ =>
    let s0Length := sumLengths s0ToS1Map (·.lengthBefore)
    let s0EndOffset := lengthAdd st.s0offset s0Length
    { st with
      result := pushEdit st.result st.s0offset s0EndOffset lengthAfter
      s0offset := s0EndOffset }
  | _ => s0ToS1Map.foldl copyItem st

end CombineState

def combineTextEditInfos (textEditInfoFirst textEditInfoSecond : List TextEditInfo) :
    List TextEditInfo :=
  if textEditInfoFirst.length = 0 then textEditInfoSecond
  else if textEditInfoSecond.length = 0 then textEditInfoFirst
  else
    let s1ToS2Map := (toLengthMapping textEditInfoSecond).map some ++ [none]
    (s1ToS2Map.foldl CombineState.step
      ⟨[], lengthZero, .ofItems (toLengthMapping textEditInfoFirst)⟩).result

end CodeOss
