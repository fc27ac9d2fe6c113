import CodeOss.Folding.FoldingRegions
import CodeOss.Library.Cut

/-! Merging the ranges of a provider with those the user has folded or made: the result is nested
properly, and a user's range is lost only to a provider's range that took another's place. -/

namespace CodeOss.Folding

open List

structure FoldRange where
  startLineNumber : ℤ
  endLineNumber : ℤ
  type : Option String
  isCollapsed : Bool
  source : FoldSource
  deriving DecidableEq

/-- What the merge keeps while it goes on: `topStackedRange` and below it the `stackedRanges`, the
start of the last range taken, and the ranges taken, the last one first. -/
structure MergeState where
  stackedRanges : List FoldRange
  prevLineNumber : ℤ
  resultRanges : List FoldRange

namespace MergeState

def start : MergeState := ⟨[], 0, []⟩

/-- Takes a range unless it is invalid, out of sequence or overlaps the range it starts in. -/
def take (maxLineNumber : Option ℤ) (state : MergeState) (useRange : FoldRange) : MergeState :=
  let stackedRanges :=
    state.stackedRanges.dropWhile fun range => range.endLineNumber < useRange.startLineNumber
  if useRange.endLineNumber > useRange.startLineNumber ∧
      useRange.startLineNumber > state.prevLineNumber ∧
      (∀ max ∈ maxLineNumber, useRange.endLineNumber ≤ max) ∧
      ∀ top ∈ stackedRanges.head?, top.endLineNumber ≥ useRange.endLineNumber then
    ⟨useRange :: stackedRanges, useRange.startLineNumber, useRange :: state.resultRanges⟩
  else { state with stackedRanges }

end MergeState

/-- The look-ahead in the second list for a user's range that overlaps `nextA`. -/
def scan (nextA : FoldRange) : List FoldRange → Bool
  | [] => true
  | prescanB :: rest =>
    if prescanB.startLineNumber > nextA.endLineNumber then true
    else if prescanB.source = .userDefined ∧ prescanB.endLineNumber > nextA.endLineNumber then
      false
    else scan nextA rest

/-- A range of the first list takes the place of a folded range that starts on the same line. -/
def replacing (selection : Option (ℤ → ℤ → Bool)) (nextA nextB : FoldRange) : FoldRange :=
  { nextA with
    isCollapsed := nextB.isCollapsed &&
      (nextA.endLineNumber == nextB.endLineNumber ||
        !(selection.any fun startsInside =>
          startsInside (nextA.startLineNumber + 1) (nextA.endLineNumber + 1)))
    source := .provider }

def recovering (nextB : FoldRange) : FoldRange :=
  if nextB.isCollapsed && nextB.source == .provider then { nextB with source := .recovered }
  else nextB

/-- The range a round of the loop uses, if any, and what is left of the two lists. -/
def useNext (selection : Option (ℤ → ℤ → Bool)) :
    List FoldRange → List FoldRange → Option FoldRange × List FoldRange × List FoldRange
  | [], [] => (none, [], [])
  | [], nextB :: restB => (some (recovering nextB), [], restB)
  | nextA :: restA, [] => (some nextA, restA, [])
  | nextA :: restA, nextB :: restB =>
    if nextA.startLineNumber = nextB.startLineNumber then
      if nextB.source = .userDefined then (some nextB, restA, restB)
      else (some (replacing selection nextA nextB), restA, restB)
    else if nextA.startLineNumber > nextB.startLineNumber then
      (some (recovering nextB), nextA :: restA, restB)
    else (if scan nextA (nextB :: restB) then some nextA else none, restA, nextB :: restB)

/-- The rounds of the loop; each one uses up a range, so there are no more than ranges. -/
def mergeLoop (maxLineNumber : Option ℤ) (selection : Option (ℤ → ℤ → Bool)) :
    ℕ → List FoldRange → List FoldRange → MergeState → MergeState
  | 0, _, _, state => state
  | rounds + 1, rangesA, rangesB, state =>
    let (useRange, restA, restB) := useNext selection rangesA rangesB
    mergeLoop maxLineNumber selection rounds restA restB
      (useRange.elim state (state.take maxLineNumber))

def sanitizeAndMerge (rangesA rangesB : List FoldRange) (maxLineNumber : Option ℤ)
    (selection : Option (ℤ → ℤ → Bool)) : List FoldRange :=
  (mergeLoop maxLineNumber selection (rangesA.length + rangesB.length) rangesA rangesB
    .start).resultRanges.reverse

/-- `b` starts in `a` and ends behind it. -/
def Crosses (a b : FoldRange) : Prop :=
  a.startLineNumber < b.startLineNumber ∧ b.startLineNumber ≤ a.endLineNumber ∧
    a.endLineNumber < b.endLineNumber

/-- Valid ranges in the order of their start lines, each two of them disjoint or nested. -/
structure ProperlyNested (maxLineNumber : Option ℤ) (ranges : List FoldRange) : Prop where
  valid : ∀ range ∈ ranges, range.startLineNumber < range.endLineNumber ∧
    ∀ max ∈ maxLineNumber, range.endLineNumber ≤ max
  pairwise : ranges.Pairwise fun a b => a.startLineNumber < b.startLineNumber ∧
    (a.endLineNumber < b.startLineNumber ∨ b.endLineNumber ≤ a.endLineNumber)

def SortedByStart (ranges : List FoldRange) : Prop :=
  ranges.Pairwise fun a b => a.startLineNumber ≤ b.startLineNumber

/-- `a` is the range of the first list that takes the place of a range of the second one which is
not the user's. -/
def Replaces (rangesA rangesB : List FoldRange) (a b : FoldRange) : Prop :=
  rangesA.find? (·.startLineNumber == b.startLineNumber) = some a ∧ b ∈ rangesB ∧
    b.source ≠ .userDefined

/-- A range with the lines and the collapse state of a user's range. -/
def Occurs (user : FoldRange) (ranges : List FoldRange) : Prop :=
  ∃ range ∈ ranges, range.startLineNumber = user.startLineNumber ∧
    range.endLineNumber = user.endLineNumber ∧ range.isCollapsed = user.isCollapsed ∧
    range.source = .userDefined

/-- What holds when ranges from line `line` on are still to come. -/
structure MergeState.Nested (maxLineNumber : Option ℤ) (line : ℤ) (state : MergeState) : Prop where
  valid : ∀ range ∈ state.resultRanges, range.startLineNumber < range.endLineNumber ∧
    ∀ max ∈ maxLineNumber, range.endLineNumber ≤ max
  pairwise : state.resultRanges.Pairwise fun b a => a.startLineNumber < b.startLineNumber ∧
    (a.endLineNumber < b.startLineNumber ∨ b.endLineNumber ≤ a.endLineNumber)
  prev : ∀ range ∈ state.resultRanges, range.startLineNumber ≤ state.prevLineNumber
  stacked : ∀ range ∈ state.stackedRanges, range ∈ state.resultRanges
  outward : state.stackedRanges.Pairwise fun inner outer =>
    inner.endLineNumber ≤ outer.endLineNumber
  closed : ∀ range ∈ state.resultRanges, range ∉ state.stackedRanges → range.endLineNumber < line

namespace MergeState

variable {maxLineNumber : Option ℤ} {line : ℤ} {state : MergeState} {useRange : FoldRange}

theorem nested_start : Nested maxLineNumber line start :=
  ⟨fun _ h => absurd h (by simp [start]), List.Pairwise.nil, fun _ h => absurd h (by simp [start]),
    fun _ h => absurd h (by simp [start]), List.Pairwise.nil, fun _ h => absurd h (by simp [start])⟩

variable {range : FoldRange}

section

variable (h : Nested maxLineNumber line state)
include h

theorem Nested.popped (hline : line ≤ useRange.startLineNumber)
    (hrange : range ∈ state.resultRanges) : range.endLineNumber < useRange.startLineNumber ∨ range ∈
    state.stackedRanges.dropWhile fun range => range.endLineNumber < useRange.startLineNumber := by
  by_cases hstacked : range ∈ state.stackedRanges
  · by_cases hend : range.endLineNumber < useRange.startLineNumber
    · exact Or.inl hend
    · exact Or.inr (List.mem_dropWhile_of_false hstacked (by simpa using hend))
  · exact Or.inl ((h.closed range hrange hstacked).trans_le hline)

theorem Nested.top_le {p : FoldRange → Bool} (hrange : range ∈ state.stackedRanges.dropWhile p) :
    ∃ top ∈ (state.stackedRanges.dropWhile p).head?, top.endLineNumber ≤ range.endLineNumber := by
  have hpairs := h.outward.sublist (dropWhile_sublist p)
  cases hopen : state.stackedRanges.dropWhile p with
  | nil => simp [hopen] at hrange
  | cons top rest =>
    rw [hopen] at hrange hpairs
    refine ⟨top, rfl, ?_⟩
    rcases mem_cons.1 hrange with rfl | hrest
    · exact le_rfl
    · exact (pairwise_cons.1 hpairs).1 range hrest

theorem Nested.take (hline : line ≤ useRange.startLineNumber) :
    Nested maxLineNumber useRange.startLineNumber (state.take maxLineNumber useRange) := by
  have hsub := dropWhile_sublist (l := state.stackedRanges)
    fun range => decide (range.endLineNumber < useRange.startLineNumber)
  rw [MergeState.take]
  split_ifs with haccept
  · obtain ⟨hvalid, hprev, hmax, htop⟩ := haccept
    refine ⟨?_, ?_, ?_, ?_, ?_, ?_⟩
    · intro range hrange
      rcases mem_cons.1 hrange with rfl | hrange
      · exact ⟨hvalid, hmax⟩
      · exact h.valid range hrange
    · refine pairwise_cons.2 ⟨fun range hrange => ⟨?_, ?_⟩, h.pairwise⟩
      · exact (h.prev range hrange).trans_lt hprev
      · rcases h.popped hline hrange with hend | hopen
        · exact Or.inl hend
        · obtain ⟨top, htop', hle⟩ := h.top_le hopen
          exact Or.inr ((htop top htop').trans hle)
    · intro range hrange
      rcases mem_cons.1 hrange with rfl | hrange
      · exact le_rfl
      · exact ((h.prev range hrange).trans_lt hprev).le
    · intro range hrange
      rcases mem_cons.1 hrange with rfl | hrange
      · exact mem_cons_self
      · exact mem_cons_of_mem _ (h.stacked range (hsub.subset hrange))
    · refine pairwise_cons.2 ⟨fun range hrange => ?_, h.outward.sublist hsub⟩
      obtain ⟨top, htop', hle⟩ := h.top_le hrange
      exact (htop top htop').trans hle
    · intro range hrange hclosed
      obtain ⟨hne, hclosed⟩ := not_or.1 (mt mem_cons.2 hclosed)
      rcases mem_cons.1 hrange with rfl | hrange
      · exact absurd rfl hne
      · exact (h.popped hline hrange).resolve_right hclosed
  · exact ⟨h.valid, h.pairwise, h.prev, fun range hrange => h.stacked range (hsub.subset hrange),
      h.outward.sublist hsub, fun range hrange hclosed =>
        (h.popped hline hrange).resolve_right hclosed⟩

end

theorem take_resultRanges : (state.take maxLineNumber useRange).resultRanges = state.resultRanges ∧
    (state.take maxLineNumber useRange).prevLineNumber = state.prevLineNumber ∨
    (state.take maxLineNumber useRange).resultRanges = useRange :: state.resultRanges ∧
    (state.take maxLineNumber useRange).prevLineNumber = useRange.startLineNumber := by
  rw [MergeState.take]
  split_ifs
  · exact Or.inr ⟨rfl, rfl⟩
  · exact Or.inl ⟨rfl, rfl⟩

theorem take_mono :
    ∀ range ∈ state.resultRanges, range ∈ (state.take maxLineNumber useRange).resultRanges := by
  intro range hrange
  rcases take_resultRanges with ⟨hresult, -⟩ | ⟨hresult, -⟩ <;> rw [hresult]
  · exact hrange
  · exact mem_cons_of_mem _ hrange

theorem take_prevLineNumber_lt {line' : ℤ} (hprev : state.prevLineNumber < line')
    (hstart : useRange.startLineNumber < line') :
    (state.take maxLineNumber useRange).prevLineNumber < line' := by
  rcases take_resultRanges with ⟨-, hnext⟩ | ⟨-, hnext⟩ <;> rw [hnext]
  · exact hprev
  · exact hstart

theorem mem_of_mem_take (h : range ∈ (state.take maxLineNumber useRange).resultRanges) :
    range = useRange ∨ range ∈ state.resultRanges := by
  rcases take_resultRanges with ⟨hresult, -⟩ | ⟨hresult, -⟩ <;> rw [hresult] at h
  · exact Or.inr h
  · exact mem_cons.1 h

theorem Nested.mem_take (h : Nested maxLineNumber line state)
    (hvalid : useRange.startLineNumber < useRange.endLineNumber ∧ ∀ max ∈ maxLineNumber,
    useRange.endLineNumber ≤ max) (hprev : state.prevLineNumber < useRange.startLineNumber)
    (hcross : ∀ range ∈ state.resultRanges, ¬ Crosses range useRange) :
    (state.take maxLineNumber useRange).resultRanges = useRange :: state.resultRanges := by
  have htops : ∀ top ∈ (state.stackedRanges.dropWhile fun range =>
      range.endLineNumber < useRange.startLineNumber).head?,
      top.endLineNumber ≥ useRange.endLineNumber := by
    intro top htop
    have hmem : top ∈ state.resultRanges :=
      h.stacked top ((dropWhile_sublist _).subset (mem_of_head? htop))
    have hopen : useRange.startLineNumber ≤ top.endLineNumber := by
      have hhead := head?_dropWhile_not
        (fun range => decide (range.endLineNumber < useRange.startLineNumber)) state.stackedRanges
      rw [htop] at hhead
      simpa using hhead
    by_contra hlt
    exact hcross top hmem ⟨(h.prev top hmem).trans_lt hprev, hopen, not_le.1 hlt⟩
  rw [MergeState.take, if_pos ⟨hvalid.1, hprev, hvalid.2, htops⟩]

end MergeState

section Round

variable {selection : Option (ℤ → ℤ → Bool)} {maxLineNumber : Option ℤ} {line : ℤ}
  {state : MergeState}

theorem recovering_lines (b : FoldRange) : (recovering b).startLineNumber = b.startLineNumber ∧
    (recovering b).endLineNumber = b.endLineNumber := by
  rw [recovering]
  split_ifs <;> exact ⟨rfl, rfl⟩

theorem recovering_user {b : FoldRange} (h : b.source = .userDefined) : recovering b = b := by
  rw [recovering, h, if_neg (by simp)]

theorem scan_eq_true {a : FoldRange} {ranges : List FoldRange} (hsorted : SortedByStart ranges)
    (h : scan a ranges = true) : ∀ u ∈ ranges, u.source = .userDefined →
    u.startLineNumber ≤ a.endLineNumber → u.endLineNumber ≤ a.endLineNumber := by
  induction ranges with
  | nil => exact fun u hu => absurd hu (by simp)
  | cons b rest ih =>
    obtain ⟨hb, hrest⟩ := pairwise_cons.1 hsorted
    intro u hu huser hstart
    rw [scan] at h
    split_ifs at h with hbehind hover
    · rcases mem_cons.1 hu with rfl | hu
      · omega
      · have hle := hb u hu
        omega
    · rcases mem_cons.1 hu with rfl | hu
      · by_contra hlt
        exact hover ⟨huser, not_le.1 hlt⟩
      · exact ih hrest h u hu huser hstart

inductive Round (selection : Option (ℤ → ℤ → Bool)) :
    List FoldRange → List FoldRange → Option FoldRange → List FoldRange → List FoldRange → Prop
  | done : Round selection [] [] none [] []
  | user {a b : FoldRange} {restA restB : List FoldRange}
      (hstart : a.startLineNumber = b.startLineNumber) (huser : b.source = .userDefined) :
      Round selection (a :: restA) (b :: restB) (some b) restA restB
  | replace {a b : FoldRange} {restA restB : List FoldRange}
      (hstart : a.startLineNumber = b.startLineNumber) (huser : b.source ≠ .userDefined) :
      Round selection (a :: restA) (b :: restB) (some (replacing selection a b)) restA restB
  | second {b : FoldRange} {rangesA restB : List FoldRange}
      (hstart : ∀ a ∈ rangesA.head?, b.startLineNumber < a.startLineNumber) :
      Round selection rangesA (b :: restB) (some (recovering b)) rangesA restB
  | first {a : FoldRange} {restA rangesB : List FoldRange}
      (hstart : ∀ b ∈ rangesB.head?, a.startLineNumber < b.startLineNumber)
      (hscan : scan a rangesB = true) : Round selection (a :: restA) rangesB (some a) restA rangesB
  | skip {a : FoldRange} {restA rangesB : List FoldRange}
      (hstart : ∀ b ∈ rangesB.head?, a.startLineNumber < b.startLineNumber) :
      Round selection (a :: restA) rangesB none restA rangesB

theorem useNext_round (rangesA rangesB : List FoldRange) :
    Round selection rangesA rangesB (useNext selection rangesA rangesB).1
      (useNext selection rangesA rangesB).2.1 (useNext selection rangesA rangesB).2.2 := by
  cases rangesA with
  | nil =>
    cases rangesB with
    | nil => exact .done
    | cons b restB => exact .second (by simp)
  | cons a restA =>
    cases rangesB with
    | nil => exact .first (by simp) rfl
    | cons b restB =>
      rw [useNext]
      split_ifs with heq huser hgt hscan
      · exact .user heq huser
      · exact .replace heq huser
      · exact .second (by simpa using hgt)
      · exact .first (by simp; omega) hscan
      · exact .skip (by simp; omega)

/-- The ranges to come start at the line or behind it. -/
structure Coming (line : ℤ) (rangesA rangesB : List FoldRange) : Prop where
  sortedA : SortedByStart rangesA
  sortedB : SortedByStart rangesB
  fromA : ∀ a ∈ rangesA, line ≤ a.startLineNumber
  fromB : ∀ b ∈ rangesB, line ≤ b.startLineNumber

variable {rangesA rangesB restA restB : List FoldRange} {use : Option FoldRange}

theorem SortedByStart.head_lt {ranges : List FoldRange} (h : SortedByStart ranges) {line : ℤ}
    (hhead : ∀ range ∈ ranges.head?, line < range.startLineNumber) :
    ∀ range ∈ ranges, line < range.startLineNumber := by
  cases ranges with
  | nil => exact fun range hrange => absurd hrange (by simp)
  | cons first rest =>
    intro range hrange
    rcases mem_cons.1 hrange with rfl | hrest
    · exact hhead range rfl
    · exact (hhead first rfl).trans_le ((pairwise_cons.1 h).1 range hrest)

variable (h : Round selection rangesA rangesB use restA restB)
include h

theorem Round.coming (hcoming : Coming line rangesA rangesB) : ∃ line', line ≤ line' ∧ Coming line'
    restA restB ∧ (∀ range ∈ use, line' = range.startLineNumber) ∧ (use = none → line' = line) := by
  obtain ⟨hA, hB, hfromA, hfromB⟩ := hcoming
  cases h with
  | done => exact ⟨line, le_rfl, ⟨hA, hB, hfromA, hfromB⟩, by simp, fun _ => rfl⟩
  | user hstart huser =>
    rename_i a b
    obtain ⟨ha, hA⟩ := pairwise_cons.1 hA
    obtain ⟨hb, hB⟩ := pairwise_cons.1 hB
    exact ⟨b.startLineNumber, hfromB b mem_cons_self,
      ⟨hA, hB, fun x hx => hstart ▸ ha x hx, hb⟩, by simp, by simp⟩
  | replace hstart huser =>
    rename_i a b
    obtain ⟨ha, hA⟩ := pairwise_cons.1 hA
    obtain ⟨hb, hB⟩ := pairwise_cons.1 hB
    exact ⟨a.startLineNumber, hfromA a mem_cons_self,
      ⟨hA, hB, ha, fun x hx => hstart ▸ hb x hx⟩, by simp [replacing], by simp⟩
  | second hstart =>
    rename_i b
    obtain ⟨hb, hB⟩ := pairwise_cons.1 hB
    refine ⟨b.startLineNumber, hfromB b mem_cons_self, ⟨hA, hB, ?_, hb⟩, ?_, by simp⟩
    · exact fun a ha => (hA.head_lt hstart a ha).le
    · simp [(recovering_lines b).1]
  | first hstart hscan =>
    rename_i a
    obtain ⟨ha, hA⟩ := pairwise_cons.1 hA
    refine ⟨a.startLineNumber, hfromA a mem_cons_self, ⟨hA, hB, ha, ?_⟩, by simp, by simp⟩
    exact fun b hb => (hB.head_lt hstart b hb).le
  | skip hstart =>
    rename_i a
    exact ⟨line, le_rfl, ⟨(pairwise_cons.1 hA).2, hB,
      fun x hx => hfromA x (mem_cons_of_mem a hx), hfromB⟩, by simp, fun _ => rfl⟩

theorem Round.nested (hcoming : Coming line rangesA rangesB)
    (hnested : state.Nested maxLineNumber line) : ∃ line', Coming line' restA restB ∧
    (use.elim state (state.take maxLineNumber)).Nested maxLineNumber line' := by
  obtain ⟨line', hle, hrest, hsome, hnone⟩ := h.coming hcoming
  refine ⟨line', hrest, ?_⟩
  cases use with
  | none => exact hnone rfl ▸ hnested
  | some range =>
    obtain rfl := hsome range rfl
    exact hnested.take hle

theorem Round.length {rounds : ℕ} (hrounds : rangesA.length + rangesB.length ≤ rounds + 1) :
    restA.length + restB.length ≤ rounds := by
  cases h <;> simp only [length_cons, length_nil] at hrounds ⊢ <;> omega

end Round

variable {selection : Option (ℤ → ℤ → Bool)} {maxLineNumber : Option ℤ}

variable {rangesA rangesB : List FoldRange} {state : MergeState} {line : ℤ} {b : FoldRange}
  {restB : List FoldRange} {a : FoldRange} {restA : List FoldRange} {use : Option FoldRange}

theorem mergeLoop_nested (rounds : ℕ) (hcoming : Coming line rangesA rangesB)
    (hnested : state.Nested maxLineNumber line) : ∃ line', (mergeLoop
    maxLineNumber selection rounds rangesA rangesB state).Nested maxLineNumber line' := by
  induction rounds generalizing rangesA rangesB state line with
  | zero => exact ⟨line, hnested⟩
  | succ rounds ih =>
    obtain ⟨line', hrest, hnext⟩ := (useNext_round rangesA rangesB).nested hcoming hnested
    exact ih hrest hnext

/-- The second list is nested properly behind what was taken, and nothing that was taken or will
take another's place crosses a user's range of it. -/
structure Ready (maxLineNumber : Option ℤ) (rangesA rangesB : List FoldRange)
    (state : MergeState) : Prop where
  nestedB : ProperlyNested maxLineNumber rangesB
  before : ∀ b ∈ rangesB, state.prevLineNumber < b.startLineNumber
  apart : ∀ range ∈ state.resultRanges, ∀ u ∈ rangesB, u.source = .userDefined → ¬ Crosses range u
  replaced : ∀ a b u, Replaces rangesA rangesB a b → u ∈ rangesB → u.source = .userDefined →
    ¬ Crosses a u

theorem ProperlyNested.rest (h : ProperlyNested maxLineNumber (b :: restB)) :
    ProperlyNested maxLineNumber restB :=
  ⟨fun range hrange => h.valid range (mem_cons_of_mem b hrange), (pairwise_cons.1 h.pairwise).2⟩

theorem Replaces.cons {a a' b : FoldRange} {restA rangesB : List FoldRange}
    (h : Replaces restA rangesB a b) (hne : a'.startLineNumber ≠ b.startLineNumber)
    {rangesB' : List FoldRange} (hsub : ∀ b ∈ rangesB, b ∈ rangesB') :
    Replaces (a' :: restA) rangesB' a b := by
  refine ⟨?_, hsub b h.2.1, h.2.2⟩
  rw [List.find?_cons_of_neg (by simpa using hne), h.1]

theorem Ready.take {useRange : FoldRange} (h : Ready maxLineNumber rangesA rangesB state)
    (hnested : ProperlyNested maxLineNumber restB) (hsub : ∀ b ∈ restB, b ∈ rangesB)
    (hstart : ∀ b ∈ restB, useRange.startLineNumber < b.startLineNumber)
    (hcross : ∀ u ∈ restB, u.source = .userDefined → ¬ Crosses useRange u)
    (hreplaces : ∀ a b, Replaces restA restB a b → Replaces rangesA rangesB a b) :
    Ready maxLineNumber restA restB (state.take maxLineNumber useRange) := by
  refine ⟨hnested, ?_, ?_, fun a b u hab hu => h.replaced a b u (hreplaces a b hab) (hsub u hu)⟩
  · exact fun b hb => MergeState.take_prevLineNumber_lt (h.before b (hsub b hb)) (hstart b hb)
  · intro range hrange u hu huser
    rcases MergeState.mem_of_mem_take hrange with rfl | hrange
    · exact hcross u hu huser
    · exact h.apart range hrange u (hsub u hu) huser

theorem ProperlyNested.head (h : ProperlyNested maxLineNumber (b :: restB)) :
    ∀ x ∈ restB, b.startLineNumber < x.startLineNumber ∧ ¬ Crosses b x := fun x hx => by
  obtain ⟨hstart, hnested⟩ := (pairwise_cons.1 h.pairwise).1 x hx
  exact ⟨hstart, fun hcross => by
    obtain ⟨-, hin, hover⟩ := hcross
    omega⟩

theorem ProperlyNested.sorted {ranges : List FoldRange} (h : ProperlyNested maxLineNumber ranges) :
    SortedByStart ranges :=
  h.pairwise.imp fun hab => hab.1.le

theorem Round.ready (h : Round selection rangesA rangesB use restA restB)
    (hcoming : Coming line rangesA rangesB) (hnested : state.Nested maxLineNumber line)
    (hready : Ready maxLineNumber rangesA rangesB state) : Ready maxLineNumber restA restB
    (use.elim state (state.take maxLineNumber)) ∧ ∀ u ∈ rangesB, u.source = .userDefined →
    u ∈ restB ∨ u ∈ (use.elim state (state.take maxLineNumber)).resultRanges := by
  -- a user's range at the head of the second list is taken
  have htaken : ∀ {b : FoldRange} {restB : List FoldRange}, rangesB = b :: restB →
      b.source = .userDefined → b ∈ (state.take maxLineNumber b).resultRanges := by
    rintro b restB rfl huser
    rw [hnested.mem_take (hready.nestedB.valid b mem_cons_self)
      (hready.before b mem_cons_self) fun range hrange =>
        hready.apart range hrange b mem_cons_self huser]
    exact mem_cons_self
  cases h with
  | done => exact ⟨hready, fun u hu => absurd hu (by simp)⟩
  | user hstart huser =>
    rename_i a b
    have hhead := hready.nestedB.head
    refine ⟨hready.take hready.nestedB.rest (fun x hx => mem_cons_of_mem b hx)
      (fun x hx => (hhead x hx).1) (fun x hx _ => (hhead x hx).2) fun a' b' hab => ?_, ?_⟩
    · refine hab.cons ?_ fun x hx => mem_cons_of_mem b hx
      exact (hstart.trans_lt (hhead b' hab.2.1).1).ne
    · intro u hu huser'
      rcases mem_cons.1 hu with rfl | hu
      · exact Or.inr (htaken rfl huser)
      · exact Or.inl hu
  | replace hstart huser =>
    rename_i a b
    have hhead := hready.nestedB.head
    have hreplaces : Replaces (a :: restA) (b :: restB) a b :=
      ⟨find?_cons_of_pos (by simpa using hstart), mem_cons_self, huser⟩
    refine ⟨hready.take hready.nestedB.rest (fun x hx => mem_cons_of_mem b hx)
      (fun x hx => hstart.trans_lt (hhead x hx).1)
      (fun x hx hx' => hready.replaced a b x hreplaces (mem_cons_of_mem b hx) hx')
      fun a' b' hab => ?_, ?_⟩
    · refine hab.cons ?_ fun x hx => mem_cons_of_mem b hx
      exact (hstart.trans_lt (hhead b' hab.2.1).1).ne
    · intro u hu huser'
      rcases mem_cons.1 hu with rfl | hu
      · exact absurd huser' huser
      · exact Or.inl hu
  | second hstart =>
    rename_i b
    have hhead := hready.nestedB.head
    obtain ⟨hfirst, hlast⟩ := recovering_lines b
    refine ⟨hready.take hready.nestedB.rest (fun x hx => mem_cons_of_mem b hx)
      (fun x hx => hfirst ▸ (hhead x hx).1) (fun x hx _ => ?_)
      fun a' b' hab => ⟨hab.1, mem_cons_of_mem b hab.2.1, hab.2.2⟩, ?_⟩
    · rw [Crosses, hfirst, hlast]
      exact (hhead x hx).2
    · intro u hu huser
      rcases mem_cons.1 hu with rfl | hu
      · rw [recovering_user huser]
        exact Or.inr (htaken rfl huser)
      · exact Or.inl hu
  | first hstart hscan =>
    rename_i a
    have hbefore : ∀ b ∈ rangesB, a.startLineNumber < b.startLineNumber :=
      hcoming.sortedB.head_lt hstart
    refine ⟨hready.take hready.nestedB (fun x hx => hx) hbefore (fun u hu huser hcross => ?_)
      fun a' b' hab => hab.cons (hbefore b' hab.2.1).ne fun x hx => hx,
      fun u hu _ => Or.inl hu⟩
    exact absurd (scan_eq_true hcoming.sortedB hscan u hu huser hcross.2.1) (not_le.2 hcross.2.2)
  | skip hstart =>
    rename_i a
    have hbefore : ∀ b ∈ rangesB, a.startLineNumber < b.startLineNumber :=
      hcoming.sortedB.head_lt hstart
    exact ⟨⟨hready.nestedB, hready.before, hready.apart, fun a' b' u hab =>
      hready.replaced a' b' u (hab.cons (hbefore b' hab.2.1).ne fun x hx => hx)⟩,
      fun u hu _ => Or.inl hu⟩

theorem mergeLoop_mono (rounds : ℕ) (rangesA rangesB : List FoldRange) (state : MergeState) :
    ∀ range ∈ state.resultRanges,
      range ∈ (mergeLoop maxLineNumber selection rounds rangesA rangesB state).resultRanges := by
  induction rounds generalizing rangesA rangesB state with
  | zero => exact fun _ => id
  | succ rounds ih =>
    have hround : ∀ (use : Option FoldRange), ∀ range ∈ state.resultRanges,
        range ∈ (use.elim state (state.take maxLineNumber)).resultRanges := by
      intro use range hrange
      cases use with
      | none => exact hrange
      | some useRange => exact MergeState.take_mono range hrange
    exact fun range hrange => ih _ _ _ range (hround _ range hrange)

theorem mergeLoop_users (rounds : ℕ) (hrounds : rangesA.length + rangesB.length ≤ rounds)
    (hcoming : Coming line rangesA rangesB) (hnested : state.Nested maxLineNumber line)
    (hready : Ready maxLineNumber rangesA rangesB state) : ∀ u ∈ rangesB, u.source = .userDefined →
    u ∈ (mergeLoop maxLineNumber selection rounds rangesA rangesB state).resultRanges := by
  induction rounds generalizing rangesA rangesB state line with
  | zero =>
    have hnil : rangesB = [] := length_eq_zero_iff.1 (by omega)
    exact fun u hu => absurd hu (by simp [hnil])
  | succ rounds ih =>
    have hround : Round selection rangesA rangesB _ _ _ := useNext_round rangesA rangesB
    obtain ⟨line', hrest, hnext⟩ := hround.nested hcoming hnested
    obtain ⟨hready', htaken⟩ := hround.ready hcoming hnested hready
    intro u hu huser
    rcases htaken u hu huser with hu | hu
    · exact ih (hround.length hrounds) hrest hnext hready' u hu huser
    · exact mergeLoop_mono rounds _ _ _ u hu

/-- Before `a` takes the place of `b`: nothing that was or will be taken crosses `a`. -/
structure Awaits (rangesA rangesB : List FoldRange) (state : MergeState) (a b : FoldRange) :
    Prop where
  replaces : Replaces rangesA rangesB a b
  before : state.prevLineNumber < a.startLineNumber
  apart : ∀ range ∈ state.resultRanges, ¬ Crosses range a
  apartA : ∀ range ∈ rangesA, ¬ Crosses range a
  apartB : ∀ range ∈ rangesB, ¬ Crosses range a

theorem Replaces.start_eq (h : Replaces rangesA rangesB a b) :
    a.startLineNumber = b.startLineNumber := by
  simpa using find?_some h.1

theorem Replaces.of_cons {a' : FoldRange} (h : Replaces (a' :: restA) rangesB a b)
    (hne : a'.startLineNumber ≠ b.startLineNumber) {rangesB' : List FoldRange}
    (hmem : b ∈ rangesB') : Replaces restA rangesB' a b := by
  refine ⟨?_, hmem, h.2.2⟩
  rw [← h.1, find?_cons_of_neg (by simpa using hne)]

theorem Awaits.take {useRange : FoldRange} (h : Awaits rangesA rangesB state a b)
    (hreplaces : Replaces restA restB a b) (hsubA : ∀ range ∈ restA, range ∈ rangesA)
    (hsubB : ∀ range ∈ restB, range ∈ rangesB)
    (hstart : useRange.startLineNumber < a.startLineNumber) (hcross : ¬ Crosses useRange a) :
    Awaits restA restB (state.take maxLineNumber useRange) a b := by
  refine ⟨hreplaces, MergeState.take_prevLineNumber_lt h.before hstart, fun range hrange => ?_,
    fun range hrange => h.apartA range (hsubA range hrange),
    fun range hrange => h.apartB range (hsubB range hrange)⟩
  rcases MergeState.mem_of_mem_take hrange with rfl | hrange
  · exact hcross
  · exact h.apart range hrange

theorem Round.awaits
    (h : Round selection rangesA rangesB use restA restB) (hcoming : Coming line rangesA rangesB)
    (hnestedB : ProperlyNested maxLineNumber rangesB) (hnested : state.Nested maxLineNumber line)
    (hvalid : a.startLineNumber < a.endLineNumber ∧ ∀ max ∈ maxLineNumber, a.endLineNumber ≤ max)
    (hawaits : Awaits rangesA rangesB state a b) :
    Awaits restA restB (use.elim state (state.take maxLineNumber)) a b ∨
    replacing selection a b ∈ (use.elim state (state.take maxLineNumber)).resultRanges := by
  have hreplaces := hawaits.replaces
  have heq := hreplaces.start_eq
  cases h with
  | done => exact absurd hreplaces.2.1 (by simp)
  | user hstart huser =>
    rename_i a' b'
    rcases mem_cons.1 hreplaces.2.1 with rfl | hb
    · exact absurd huser hreplaces.2.2
    have hlt := (hnestedB.head b hb).1
    refine Or.inl (hawaits.take (hreplaces.of_cons (by omega) hb)
      (fun _ => mem_cons_of_mem a') (fun _ => mem_cons_of_mem b') (by omega) ?_)
    exact hawaits.apartB b' mem_cons_self
  | replace hstart huser =>
    rename_i a' b'
    rcases mem_cons.1 hreplaces.2.1 with rfl | hb
    · obtain rfl : a' = a := by
        simpa [find?_cons_of_pos, hstart] using hreplaces.1
      right
      have htake : (state.take maxLineNumber (replacing selection a' b)).resultRanges =
          replacing selection a' b :: state.resultRanges :=
        hnested.mem_take hvalid hawaits.before hawaits.apart
      rw [Option.elim_some, htake]
      exact mem_cons_self
    · have hlt := (hnestedB.head b hb).1
      refine Or.inl (hawaits.take (hreplaces.of_cons (by omega) hb)
        (fun _ => mem_cons_of_mem a') (fun _ => mem_cons_of_mem b') ?_ ?_)
      · exact hstart.trans_lt (hlt.trans_eq heq.symm)
      · exact hawaits.apartA a' mem_cons_self
  | second hstart =>
    rename_i b'
    obtain ⟨hfirst, hlast⟩ := recovering_lines b'
    have hlt := hcoming.sortedA.head_lt hstart a (mem_of_find?_eq_some hreplaces.1)
    have hb : b ∈ restB := by
      rcases mem_cons.1 hreplaces.2.1 with rfl | hb
      · omega
      · exact hb
    refine Or.inl (hawaits.take ⟨hreplaces.1, hb, hreplaces.2.2⟩ (fun _ => id)
      (fun _ => mem_cons_of_mem b') (hfirst ▸ hlt) ?_)
    rw [Crosses, hfirst, hlast]
    exact hawaits.apartB b' mem_cons_self
  | first hstart hscan =>
    rename_i a'
    have hlt := hcoming.sortedB.head_lt hstart b hreplaces.2.1
    exact Or.inl (hawaits.take (hreplaces.of_cons hlt.ne hreplaces.2.1)
      (fun _ => mem_cons_of_mem a') (fun _ => id) (hlt.trans_eq heq.symm)
      (hawaits.apartA a' mem_cons_self))
  | skip hstart =>
    rename_i a'
    have hlt := hcoming.sortedB.head_lt hstart b hreplaces.2.1
    exact Or.inl ⟨hreplaces.of_cons hlt.ne hreplaces.2.1, hawaits.before, hawaits.apart,
      fun range hrange => hawaits.apartA range (mem_cons_of_mem a' hrange), hawaits.apartB⟩

theorem Round.nestedB (h : Round selection rangesA rangesB use restA restB)
    (hnestedB : ProperlyNested maxLineNumber rangesB) : ProperlyNested maxLineNumber restB := by
  cases h with
  | done => exact hnestedB
  | user hstart huser => exact hnestedB.rest
  | replace hstart huser => exact hnestedB.rest
  | second hstart => exact hnestedB.rest
  | first hstart hscan => exact hnestedB
  | skip hstart => exact hnestedB

theorem mergeLoop_replaces (rounds : ℕ)
    (hrounds : rangesA.length + rangesB.length ≤ rounds) (hcoming : Coming line rangesA rangesB)
    (hnestedB : ProperlyNested maxLineNumber rangesB) (hnested : state.Nested maxLineNumber line)
    (hvalid : a.startLineNumber < a.endLineNumber ∧ ∀ max ∈ maxLineNumber, a.endLineNumber ≤ max)
    (hawaits : Awaits rangesA rangesB state a b) : replacing selection a b ∈
    (mergeLoop maxLineNumber selection rounds rangesA rangesB state).resultRanges := by
  induction rounds generalizing rangesA rangesB state line with
  | zero =>
    have hnil : rangesB = [] := length_eq_zero_iff.1 (by omega)
    exact absurd hawaits.replaces.2.1 (by simp [hnil])
  | succ rounds ih =>
    have hround : Round selection rangesA rangesB _ _ _ := useNext_round rangesA rangesB
    obtain ⟨line', hrest, hnext⟩ := hround.nested hcoming hnested
    rcases hround.awaits hcoming hnestedB hnested hvalid hawaits with hawaits' | htaken
    · exact ih (hround.length hrounds) hrest (hround.nestedB hnestedB) hnext hawaits'
    · exact mergeLoop_mono rounds _ _ _ _ htaken

section

variable (hA : SortedByStart rangesA)
include hA

theorem Coming.exists (hB : SortedByStart rangesB) : ∃ line, Coming line rangesA rangesB := by
  have hfirst : ∀ ranges, SortedByStart ranges →
      ∃ line, ∀ range ∈ ranges, line ≤ range.startLineNumber := by
    intro ranges hsorted
    cases ranges with
    | nil => exact ⟨0, by simp⟩
    | cons first rest =>
      refine ⟨first.startLineNumber, fun range hrange => ?_⟩
      rcases mem_cons.1 hrange with rfl | hrest
      · exact le_rfl
      · exact (pairwise_cons.1 hsorted).1 range hrest
  obtain ⟨lineA, hlineA⟩ := hfirst rangesA hA
  obtain ⟨lineB, hlineB⟩ := hfirst rangesB hB
  exact ⟨min lineA lineB, hA, hB, fun a ha => (min_le_left _ _).trans (hlineA a ha),
    fun b hb => (min_le_right _ _).trans (hlineB b hb)⟩

theorem sanitizeAndMerge_nested (hB : SortedByStart rangesB) :
    ProperlyNested maxLineNumber (sanitizeAndMerge rangesA rangesB maxLineNumber selection) := by
  obtain ⟨line, hcoming⟩ := Coming.exists hA hB
  have hstart : MergeState.start.Nested maxLineNumber line := MergeState.nested_start
  obtain ⟨line', hnested⟩ : ∃ line', (mergeLoop maxLineNumber selection
      (rangesA.length + rangesB.length) rangesA rangesB .start).Nested maxLineNumber line' :=
    mergeLoop_nested _ hcoming hstart
  exact ⟨fun range hrange => hnested.valid range (mem_reverse.1 hrange),
    pairwise_reverse.2 hnested.pairwise⟩

omit hA in
theorem ProperlyNested.not_crosses {ranges : List FoldRange}
    (h : ProperlyNested maxLineNumber ranges) (ha : a ∈ ranges) (hb : b ∈ ranges) :
    ¬ Crosses a b := by
  have hself : ∀ a ∈ ranges, ¬ Crosses a a := fun a _ hcross => hcross.1.ne rfl
  have hforth : ranges.Pairwise fun a b => ¬ Crosses a b := h.pairwise.imp fun hab => by
    unfold Crosses
    omega
  have hback : ranges.Pairwise (flip fun a b => ¬ Crosses a b) := h.pairwise.imp fun hab => by
    unfold flip Crosses
    omega
  exact hforth.forall_of_forall_of_flip hself hback ha hb

theorem sanitizeAndMerge_users
    (hB : ProperlyNested maxLineNumber rangesB) (hpos : ∀ b ∈ rangesB, 0 < b.startLineNumber)
    (hreplaced : ∀ a b u, Replaces rangesA rangesB a b → u ∈ rangesB →
    u.source = .userDefined → ¬ Crosses a u) : ∀ u ∈ rangesB, u.source = .userDefined →
    Occurs u (sanitizeAndMerge rangesA rangesB maxLineNumber selection) := by
  obtain ⟨line, hcoming⟩ := Coming.exists hA hB.sorted
  intro u hu huser
  refine ⟨u, mem_reverse.2 ?_, rfl, rfl, rfl, huser⟩
  exact mergeLoop_users _ le_rfl hcoming MergeState.nested_start
    ⟨hB, hpos, fun range hrange => absurd hrange (by simp [MergeState.start]), hreplaced⟩ u hu huser

theorem sanitizeAndMerge_loses
    (hB : ProperlyNested maxLineNumber rangesB) (hpos : ∀ b ∈ rangesB, 0 < b.startLineNumber)
    {u : FoldRange} (hreplaces : Replaces rangesA rangesB a b) (hcross : Crosses a u)
    (hmax : ∀ max ∈ maxLineNumber, a.endLineNumber ≤ max)
    (hapart : ∀ range ∈ rangesA ++ rangesB, ¬ Crosses range a) :
    ¬ Occurs u (sanitizeAndMerge rangesA rangesB maxLineNumber selection) := by
  obtain ⟨line, hcoming⟩ := Coming.exists hA hB.sorted
  have htaken : replacing selection a b ∈
      sanitizeAndMerge rangesA rangesB maxLineNumber selection := by
    refine mem_reverse.2 (mergeLoop_replaces _ le_rfl hcoming hB MergeState.nested_start
      ⟨hcross.1.trans_le hcross.2.1, hmax⟩ ⟨hreplaces, ?_, ?_, ?_, ?_⟩)
    · exact (hpos b hreplaces.2.1).trans_eq hreplaces.start_eq.symm
    · exact fun range hrange => absurd hrange (by simp [MergeState.start])
    · exact fun range hrange => hapart range (mem_append_left _ hrange)
    · exact fun range hrange => hapart range (mem_append_right _ hrange)
  rintro ⟨range, hrange, hstart, hend, -⟩
  refine (sanitizeAndMerge_nested hA hB.sorted).not_crosses htaken hrange ?_
  obtain ⟨hbefore, hin, hover⟩ := hcross
  exact ⟨hstart ▸ hbefore, hstart ▸ hin, hend ▸ hover⟩

end

/-- The merge nests the ranges properly, and keeps the user's ranges of the second list unless a
range that takes the place of another one crosses them. -/
theorem merge_keeps_users (rangesA rangesB : List FoldRange) (maxLineNumber : Option ℤ)
    (selection : Option (ℤ → ℤ → Bool)) (hA : SortedByStart rangesA)
    (hB : SortedByStart rangesB) :
    ProperlyNested maxLineNumber (sanitizeAndMerge rangesA rangesB maxLineNumber selection) ∧
      (ProperlyNested maxLineNumber rangesB → (∀ b ∈ rangesB, 0 < b.startLineNumber) →
        ((∀ a b u, Replaces rangesA rangesB a b → u ∈ rangesB → u.source = .userDefined →
            ¬ Crosses a u) →
          ∀ u ∈ rangesB, u.source = .userDefined →
            Occurs u (sanitizeAndMerge rangesA rangesB maxLineNumber selection)) ∧
        ∀ a b u, Replaces rangesA rangesB a b → Crosses a u →
          (∀ max ∈ maxLineNumber, a.endLineNumber ≤ max) →
          (∀ range ∈ rangesA ++ rangesB, ¬ Crosses range a) →
          ¬ Occurs u (sanitizeAndMerge rangesA rangesB maxLineNumber selection)) :=
  ⟨sanitizeAndMerge_nested hA hB, fun hnested hpos =>
    ⟨sanitizeAndMerge_users hA hnested hpos, fun _ _ _ hreplaces hcross hmax hapart =>
      sanitizeAndMerge_loses hA hnested hpos hreplaces hcross hmax hapart⟩⟩

/-- The ranges of a provider that has found a shorter range than the recovered one. -/
def shortened : List FoldRange := [⟨1, 6, none, false, .provider⟩]

def recoveredAndUser : List FoldRange :=
  [⟨1, 10, none, true, .recovered⟩, ⟨5, 8, none, true, .userDefined⟩]

theorem merge_keeps_users_disjoint :
    ProperlyNested (some 20) (sanitizeAndMerge [⟨2, 4, none, false, .provider⟩] recoveredAndUser
        (some 20) none) ∧
      ∀ u ∈ recoveredAndUser, u.source = .userDefined →
        Occurs u (sanitizeAndMerge [⟨2, 4, none, false, .provider⟩] recoveredAndUser (some 20)
          none) := by
  have hnested : ProperlyNested (some 20) recoveredAndUser :=
    ⟨by decide, by unfold recoveredAndUser; simp⟩
  obtain ⟨hmerged, hmore⟩ := merge_keeps_users [⟨2, 4, none, false, .provider⟩] recoveredAndUser
    (some 20) none (List.pairwise_singleton _ _) hnested.sorted
  obtain ⟨hkeeps, -⟩ := hmore hnested (by decide)
  refine ⟨hmerged, hkeeps fun a b u hreplaces hu huser => ?_⟩
  have hstart := hreplaces.start_eq
  obtain rfl := List.mem_singleton.1 (List.mem_of_find?_eq_some hreplaces.1)
  have hb : ∀ b ∈ recoveredAndUser, b.startLineNumber ≠ 2 := by decide
  exact absurd hstart.symm (hb b hreplaces.2.1)

theorem merge_loses_user :
    ¬ ∀ (rangesA rangesB : List FoldRange) (maxLineNumber : Option ℤ)
      (selection : Option (ℤ → ℤ → Bool)), SortedByStart rangesA → SortedByStart rangesB →
      ProperlyNested maxLineNumber (sanitizeAndMerge rangesA rangesB maxLineNumber selection) ∧
        (ProperlyNested maxLineNumber rangesB → (∀ b ∈ rangesB, 0 < b.startLineNumber) →
          ∀ u ∈ rangesB, u.source = .userDefined →
            Occurs u (sanitizeAndMerge rangesA rangesB maxLineNumber selection)) := by
  intro h
  have hnested : ProperlyNested (some 20) recoveredAndUser :=
    ⟨by decide, by unfold recoveredAndUser; simp⟩
  obtain ⟨-, hkeeps⟩ := h shortened recoveredAndUser (some 20) none (List.pairwise_singleton _ _)
    hnested.sorted
  obtain ⟨range, hrange, hstart, -⟩ := hkeeps hnested (by decide) ⟨5, 8, none, true, .userDefined⟩
    (by decide) rfl
  have hlost : ∀ range ∈ sanitizeAndMerge shortened recoveredAndUser (some 20) none,
      range.startLineNumber ≠ 5 := by decide
  exact hlost range hrange hstart

end CodeOss.Folding
