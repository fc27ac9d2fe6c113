import Mathlib

/-! The sizes of the rows of a list, kept as runs of rows of one size.
A map of ranges is compared with the plain list of the sizes. -/

namespace CodeOss.Ui

open List

structure IRange where
  start : ℤ
  stop : ℤ
  deriving DecidableEq, Repr

structure RangedGroup where
  range : IRange
  size : ℤ
  deriving DecidableEq, Repr

structure IItem where
  size : ℤ
  deriving DecidableEq, Repr

/-- A range that is looked for; without a stop it goes on to `Number.POSITIVE_INFINITY`. -/
structure Bounds where
  start : ℤ
  stop : Option ℤ

def IRange.isEmpty (range : IRange) : Bool := range.stop - range.start ≤ 0

def Bounds.intersect (one : Bounds) (other : IRange) : IRange :=
  if one.start ≥ other.stop ∨ one.stop.any (other.start ≥ ·) then ⟨0, 0⟩
  else
    let start := max one.start other.start
    let stop := one.stop.elim other.stop (min · other.stop)
    if stop - start ≤ 0 then ⟨0, 0⟩ else ⟨start, stop⟩

def groupIntersect (range : Bounds) : List RangedGroup → List RangedGroup
  | [] => []
  | r :: groups =>
    if range.start ≥ r.range.stop then groupIntersect range groups
    else if range.stop.any (· < r.range.start) then []
    else if (range.intersect r.range).isEmpty then groupIntersect range groups
    else ⟨range.intersect r.range, r.size⟩ :: groupIntersect range groups

def shift (range : IRange) (much : ℤ) : IRange := ⟨range.start + much, range.stop + much⟩

/-- The rest of the loop of `consolidate`, behind its previous group. -/
def consolidateFrom (previousGroup : RangedGroup) : List RangedGroup → List RangedGroup
  | [] => [previousGroup]
  | group :: groups =>
    if group.size = previousGroup.size then
      consolidateFrom ⟨⟨previousGroup.range.start, group.range.stop⟩, previousGroup.size⟩ groups
    else previousGroup :: consolidateFrom group groups

def consolidate : List RangedGroup → List RangedGroup
  | [] => []
  | group :: groups => consolidateFrom group groups

structure RangeMap where
  groups : List RangedGroup
  size : ℤ
  paddingTop : ℤ
  deriving DecidableEq, Repr

namespace RangeMap

def new (topPadding : ℤ) : RangeMap := ⟨[], topPadding, topPadding⟩

variable (map : RangeMap)

def setPaddingTop (paddingTop : ℤ) : RangeMap :=
  { map with size := map.size + paddingTop - map.paddingTop, paddingTop }

def splice (index deleteCount : ℤ) (items : List IItem) : RangeMap :=
  let diff := items.length - deleteCount
  let before := groupIntersect ⟨0, some index⟩ map.groups
  let after := (groupIntersect ⟨index + deleteCount, none⟩ map.groups).map fun g =>
    RangedGroup.mk (shift g.range diff) g.size
  let middle := items.mapIdx fun i item => RangedGroup.mk ⟨index + i, index + i + 1⟩ item.size
  let groups := consolidate (before ++ middle ++ after)
  { map with
    groups
    size := map.paddingTop +
      (groups.map fun g => g.size * (g.range.stop - g.range.start)).sum }

def count : ℤ := map.groups.getLast?.elim 0 (·.range.stop)

def indexFrom (index size position : ℤ) : List RangedGroup → ℤ
  | [] => index
  | group :: groups =>
    let count := group.range.stop - group.range.start
    let newSize := size + count * group.size
    if position < newSize then index + (position - size).fdiv group.size
    else indexFrom (index + count) newSize position groups

def indexAt (position : ℤ) : ℤ :=
  if position < 0 then -1
  else if position < map.paddingTop then 0
  else indexFrom 0 map.paddingTop position map.groups

def positionFrom (paddingTop position count index : ℤ) : List RangedGroup → ℤ
  | [] => -1
  | group :: groups =>
    let groupCount := group.range.stop - group.range.start
    let newCount := count + groupCount
    if index < newCount then paddingTop + position + (index - count) * group.size
    else positionFrom paddingTop (position + groupCount * group.size) newCount index groups

def positionAt (index : ℤ) : ℤ :=
  if index < 0 then -1 else positionFrom map.paddingTop 0 0 index map.groups

end RangeMap

def sizesOf (groups : List RangedGroup) : List ℤ :=
  groups.flatMap fun g => List.replicate (g.range.stop - g.range.start).toNat g.size

/-- The groups are not empty and follow each other from `s` on. -/
def Covers : ℤ → List RangedGroup → Prop
  | _, [] => True
  | s, g :: groups => g.range.start = s ∧ s < g.range.stop ∧ Covers g.range.stop groups

section

variable {s a b : ℤ} {g : RangedGroup} {groups rest : List RangedGroup}

@[simp] theorem sizesOf_nil : sizesOf [] = [] := rfl

theorem sizesOf_cons : sizesOf (g :: groups) =
    List.replicate (g.range.stop - g.range.start).toNat g.size ++ sizesOf groups :=
  flatMap_cons

@[simp] theorem sizesOf_append : sizesOf (groups ++ rest) = sizesOf groups ++ sizesOf rest :=
  flatMap_append

theorem length_sizesOf_cons (h : g.range.start < g.range.stop) : ((sizesOf (g :: groups)).length :
    ℤ) = g.range.stop - g.range.start + (sizesOf groups).length := by
  rw [sizesOf_cons, List.length_append, List.length_replicate]
  omega

theorem Covers.append (h : Covers s groups) (hrest : Covers (s + (sizesOf groups).length) rest) :
    Covers s (groups ++ rest) := by
  induction groups generalizing s with
  | nil => simpa using hrest
  | cons g groups ih =>
    obtain ⟨rfl, hlt, htail⟩ := h
    refine ⟨rfl, hlt, ih htail ?_⟩
    rw [length_sizesOf_cons hlt] at hrest
    convert hrest using 1
    omega

theorem consolidateFrom_spec (h : Covers s (g :: groups)) : Covers s (consolidateFrom g groups) ∧
    sizesOf (consolidateFrom g groups) = sizesOf (g :: groups) := by
  induction groups generalizing s g with
  | nil => exact ⟨h, rfl⟩
  | cons next groups ih =>
    obtain ⟨rfl, hlt, hstart, hnext, htail⟩ := h
    rw [consolidateFrom]
    split
    · next hsize =>
        have hjoined : Covers g.range.start
            (⟨⟨g.range.start, next.range.stop⟩, g.size⟩ :: groups) :=
          ⟨rfl, hlt.trans hnext, htail⟩
        obtain ⟨hcovers, hsizes⟩ := ih hjoined
        refine ⟨hcovers, hsizes.trans ?_⟩
        rw [sizesOf_cons, sizesOf_cons, sizesOf_cons, hsize, ← append_assoc,
          replicate_append_replicate]
        congr 2
        dsimp only
        omega
    · obtain ⟨hcovers, hsizes⟩ := ih ⟨hstart, hstart ▸ hnext, htail⟩
      exact ⟨⟨rfl, hlt, hcovers⟩, by rw [sizesOf_cons, sizesOf_cons, hsizes]⟩

theorem consolidate_spec (h : Covers s groups) :
    Covers s (consolidate groups) ∧ sizesOf (consolidate groups) = sizesOf groups := by
  cases groups with
  | nil => exact ⟨trivial, rfl⟩
  | cons g groups => exact consolidateFrom_spec h

theorem intersect_before (hs : 0 ≤ s) (h : Covers s groups) :
    Covers s (groupIntersect ⟨0, some b⟩ groups) ∧
      sizesOf (groupIntersect ⟨0, some b⟩ groups) = (sizesOf groups).take (b - s).toNat := by
  induction groups generalizing s with
  | nil => simp [groupIntersect, Covers]
  | cons g groups ih =>
    obtain ⟨rfl, hlt, htail⟩ := h
    rw [groupIntersect, if_neg (not_le.2 (hs.trans_lt hlt))]
    by_cases hend : b ≤ g.range.start
    · have hnone : groupIntersect ⟨0, some b⟩ groups = [] := by
        cases groups with
        | nil => rfl
        | cons next rest =>
          obtain ⟨hstart, hnext, -⟩ := htail
          rw [groupIntersect, if_neg (by dsimp only; omega), if_pos]
          simp only [Option.any_some, decide_eq_true_eq]
          omega
      have htake : (b - g.range.start).toNat = 0 := by omega
      have hempty : ((⟨0, some b⟩ : Bounds).intersect g.range).isEmpty = true := by
        rw [Bounds.intersect, if_pos (.inr (by simpa using hend))]
        rfl
      rw [hempty, if_pos rfl, hnone, htake, take_zero]
      split <;> exact ⟨trivial, rfl⟩
    · have hstop : ¬((some b : Option ℤ).any (· < g.range.start) = true) := by
        simp only [Option.any_some, decide_eq_true_eq]
        omega
      have hsome : (⟨0, some b⟩ : Bounds).intersect g.range =
          ⟨g.range.start, min b g.range.stop⟩ := by
        rw [Bounds.intersect, if_neg]
        · simp only [max_eq_right hs, Option.elim_some]
          exact if_neg (by omega)
        · simp only [Option.any_some, ge_iff_le, decide_eq_true_eq]
          omega
      have hempty : ¬((IRange.mk g.range.start (min b g.range.stop)).isEmpty = true) := by
        simp only [IRange.isEmpty, decide_eq_true_eq]
        omega
      obtain ⟨hcovers, hsizes⟩ := ih (hs.trans hlt.le) htail
      rw [if_neg hstop, hsome, if_neg hempty]
      by_cases hcut : b ≤ g.range.stop
      · -- the range ends in this group
        have hrest : sizesOf (groupIntersect ⟨0, some b⟩ groups) = [] := by
          rw [hsizes, show (b - g.range.stop).toNat = 0 by omega, take_zero]
        have hnone : groupIntersect ⟨0, some b⟩ groups = [] := by
          cases hgroups : groupIntersect ⟨0, some b⟩ groups with
          | nil => rfl
          | cons next rest =>
            rw [hgroups] at hcovers hrest
            have hlength := @length_sizesOf_cons next rest (hcovers.1 ▸ hcovers.2.1)
            rw [hrest, length_nil] at hlength
            have hstart := hcovers.1
            have hnext := hcovers.2.1
            omega
        rw [hnone, min_eq_left hcut, sizesOf_cons, sizesOf_cons, sizesOf_nil, append_nil,
          take_append_of_le_length (by rw [length_replicate]; omega),
          take_replicate]
        refine ⟨⟨rfl, by dsimp only; omega, trivial⟩, ?_⟩
        congr 1
        dsimp only
        omega
      · rw [min_eq_right (by omega), sizesOf_cons, sizesOf_cons, hsizes, take_append,
          length_replicate, take_replicate, min_eq_right (by omega)]
        refine ⟨⟨rfl, hlt, hcovers⟩, ?_⟩
        congr 2
        omega

theorem intersect_after (h : Covers s groups) : Covers (max a s) (groupIntersect ⟨a, none⟩ groups) ∧
    sizesOf (groupIntersect ⟨a, none⟩ groups) = (sizesOf groups).drop (a - s).toNat := by
  induction groups generalizing s with
  | nil => simp [groupIntersect, Covers]
  | cons g groups ih =>
    obtain ⟨rfl, hlt, htail⟩ := h
    obtain ⟨hcovers, hsizes⟩ := ih htail
    rw [groupIntersect]
    by_cases hskip : g.range.stop ≤ a
    · rw [if_pos hskip, hsizes, sizesOf_cons, drop_append, length_replicate,
        drop_replicate, show (g.range.stop - g.range.start).toNat -
          (a - g.range.start).toNat = 0 by omega, replicate_zero, nil_append]
      rw [max_eq_left hskip] at hcovers
      rw [max_eq_left (hlt.le.trans hskip)]
      refine ⟨hcovers, ?_⟩
      congr 1
      omega
    · have hsome : (⟨a, none⟩ : Bounds).intersect g.range =
          ⟨max a g.range.start, g.range.stop⟩ := by
        rw [Bounds.intersect, if_neg (by simpa using hskip)]
        exact if_neg (by dsimp only [Option.elim_none]; omega)
      have hempty : ¬((IRange.mk (max a g.range.start) g.range.stop).isEmpty = true) := by
        simp only [IRange.isEmpty, decide_eq_true_eq]
        omega
      rw [if_neg hskip, if_neg (by simp), hsome, if_neg hempty, sizesOf_cons, sizesOf_cons,
        hsizes, drop_append, length_replicate, drop_replicate]
      rw [max_eq_right (by omega)] at hcovers
      refine ⟨⟨rfl, by dsimp only; omega, hcovers⟩, ?_⟩
      congr 2
      · dsimp only
        omega
      · omega

theorem shift_spec (much : ℤ) (h : Covers s groups) :
    Covers (s + much) (groups.map fun g => RangedGroup.mk (shift g.range much) g.size) ∧
    sizesOf (groups.map fun g => RangedGroup.mk (shift g.range much) g.size) = sizesOf groups := by
  induction groups generalizing s with
  | nil => exact ⟨trivial, rfl⟩
  | cons g groups ih =>
    obtain ⟨rfl, hlt, htail⟩ := h
    obtain ⟨hcovers, hsizes⟩ := ih htail
    rw [map_cons, sizesOf_cons, sizesOf_cons, hsizes]
    refine ⟨⟨rfl, by simpa [shift] using hlt, hcovers⟩, ?_⟩
    congr 2
    simp [shift]

theorem items_spec (index : ℤ) (items : List IItem) : Covers index (items.mapIdx fun i item =>
    RangedGroup.mk ⟨index + i, index + i + 1⟩ item.size) ∧ sizesOf (items.mapIdx fun i item =>
    RangedGroup.mk ⟨index + i, index + i + 1⟩ item.size) = items.map (·.size) := by
  induction items generalizing index with
  | nil => exact ⟨trivial, rfl⟩
  | cons item items ih =>
    have hshift : (fun (i : ℕ) (item : IItem) =>
        RangedGroup.mk ⟨index + (i + 1 : ℕ), index + (i + 1 : ℕ) + 1⟩ item.size) =
        fun (i : ℕ) item => RangedGroup.mk ⟨index + 1 + i, index + 1 + i + 1⟩ item.size := by
      funext i item
      congr 2 <;> push_cast <;> ring
    obtain ⟨hcovers, hsizes⟩ := ih (index + 1)
    rw [mapIdx_cons, hshift, map_cons, sizesOf_cons, hsizes]
    refine ⟨⟨by simp, by simp, ?_⟩, by simp⟩
    simpa using hcovers

end

namespace RangeMap

section

variable {s count position size paddingTop : ℤ} {groups : List RangedGroup} {i : ℕ}

theorem count_spec (h : Covers s groups) :
    groups.getLast?.elim s (·.range.stop) = s + (sizesOf groups).length := by
  induction groups generalizing s with
  | nil => simp
  | cons g groups ih =>
    obtain ⟨rfl, hlt, htail⟩ := h
    have hlast := ih htail
    rw [length_sizesOf_cons hlt, getLast?_cons]
    cases hgroups : groups.getLast? with
    | none =>
      rw [hgroups] at hlast
      simp only [Option.elim_none, Option.getD_none, Option.elim_some] at hlast ⊢
      omega
    | some last =>
      rw [hgroups] at hlast
      simp only [Option.elim_some, Option.getD_some] at hlast ⊢
      omega

theorem weight_spec (h : Covers s groups) :
    (groups.map fun g => g.size * (g.range.stop - g.range.start)).sum = (sizesOf groups).sum := by
  induction groups generalizing s with
  | nil => rfl
  | cons g groups ih =>
    obtain ⟨rfl, hlt, htail⟩ := h
    rw [map_cons, sum_cons, ih htail, sizesOf_cons, sum_append,
      sum_replicate, nsmul_eq_mul, Int.toNat_of_nonneg (by omega), mul_comm]

theorem positionFrom_spec (h : Covers s groups) (hi : i < (sizesOf groups).length) :
    positionFrom paddingTop position count (count + i) groups =
      paddingTop + position + ((sizesOf groups).take i).sum := by
  induction groups generalizing s position count i with
  | nil => exact absurd hi (Nat.not_lt_zero _)
  | cons g groups ih =>
    obtain ⟨rfl, hlt, htail⟩ := h
    have hlength := @length_sizesOf_cons g groups hlt
    rw [positionFrom, sizesOf_cons]
    split
    · rw [take_append_of_le_length (by rw [length_replicate]; omega),
        take_replicate, min_eq_left (by omega), sum_replicate, nsmul_eq_mul]
      ring
    · obtain ⟨j, rfl⟩ : ∃ j, i = (g.range.stop - g.range.start).toNat + j :=
        Nat.exists_eq_add_of_le (by omega)
      have hj : j < (sizesOf groups).length := by omega
      rw [show count + (((g.range.stop - g.range.start).toNat + j : ℕ) : ℤ) =
        count + (g.range.stop - g.range.start) + j by omega, ih htail hj, take_append,
        length_replicate, Nat.add_sub_cancel_left, take_replicate,
        min_eq_right (Nat.le_add_right _ _), sum_append, sum_replicate, nsmul_eq_mul,
        Int.toNat_of_nonneg (by omega)]
      ring

/-- The row whose half-open interval holds the position, counted from the start of the groups. -/
def RowAt (sizes : List ℤ) (start position : ℤ) (i : ℕ) : Prop :=
  i < sizes.length ∧ start + (sizes.take i).sum ≤ position ∧
    position < start + (sizes.take (i + 1)).sum

theorem fdiv_row {n w : ℤ} (hw : 0 ≤ w) (hsize : size ≤ position) (hlt : position < size + n * w) :
    0 ≤ (position - size).fdiv w ∧ (position - size).fdiv w < n ∧ size + (position - size).fdiv w *
    w ≤ position ∧ position < size + ((position - size).fdiv w + 1) * w := by
  have hpos : 0 < w := by
    refine hw.lt_of_ne fun h => ?_
    rw [← h, mul_zero] at hlt
    omega
  rw [Int.fdiv_eq_ediv_of_nonneg _ hw]
  have hle := Int.ediv_mul_le (position - size) hpos.ne'
  have hgt := Int.lt_ediv_add_one_mul_self (position - size) hpos
  exact ⟨Int.ediv_nonneg (by omega) hw, Int.ediv_lt_of_lt_mul hpos (by omega), by omega, by omega⟩

theorem RowAt.behind {sizes rest : List ℤ} {start : ℤ}
    (h : RowAt rest (start + sizes.sum) position i) :
    RowAt (sizes ++ rest) start position (sizes.length + i) := by
  obtain ⟨hi, hle, hlt⟩ := h
  refine ⟨by rw [length_append]; omega, ?_, ?_⟩
  · rwa [take_append, take_of_length_le (Nat.le_add_right _ _), Nat.add_sub_cancel_left,
      sum_append, ← add_assoc]
  · rwa [add_assoc, take_append, take_of_length_le (Nat.le_add_right _ _),
      Nat.add_sub_cancel_left, sum_append, ← add_assoc]

theorem rowAt_replicate {n : ℕ} {w start : ℤ} (rest : List ℤ) (hi : i < n)
    (hle : start + i * w ≤ position) (hlt : position < start + (i + 1) * w) :
    RowAt (List.replicate n w ++ rest) start position i := by
  refine ⟨by simp; omega, ?_, ?_⟩
  · rwa [take_append_of_le_length (by rw [length_replicate]; omega),
      take_replicate, min_eq_left hi.le, sum_replicate, nsmul_eq_mul]
  · rw [take_append_of_le_length (by rw [length_replicate]; omega),
      take_replicate, min_eq_left hi, sum_replicate, nsmul_eq_mul]
    exact_mod_cast hlt

theorem sum_run {g : RangedGroup} (h : g.range.start < g.range.stop) : (List.replicate
    (g.range.stop - g.range.start).toNat g.size).sum = (g.range.stop - g.range.start) * g.size := by
  rw [sum_replicate, nsmul_eq_mul, Int.toNat_of_nonneg (by omega)]

theorem indexFrom_inside (h : Covers s groups) (hsizes : ∀ x ∈ sizesOf groups, 0 ≤ x)
    (hsize : size ≤ position) (hlt : position < size + (sizesOf groups).sum) : ∃ i : ℕ,
    RowAt (sizesOf groups) size position i ∧ indexFrom count size position groups = count + i := by
  induction groups generalizing s count size with
  | nil =>
    rw [sizesOf_nil, sum_nil] at hlt
    omega
  | cons g groups ih =>
    obtain ⟨rfl, hrun, htail⟩ := h
    rw [sizesOf_cons] at hsizes hlt ⊢
    have hw : 0 ≤ g.size := hsizes g.size
      (mem_append_left _ (mem_replicate.2 ⟨by omega, rfl⟩))
    rw [sum_append, sum_run hrun] at hlt
    rw [indexFrom]
    split
    · next hhere =>
        obtain ⟨hnonneg, hn, hle, hgt⟩ := fdiv_row hw hsize hhere
        obtain ⟨i, hi⟩ := Int.eq_ofNat_of_zero_le hnonneg
        rw [hi] at hn hle hgt ⊢
        exact ⟨i, rowAt_replicate _ (by omega) hle hgt, rfl⟩
    · next hbehind =>
        obtain ⟨i, hrow, hindex⟩ := ih htail (fun x hx => hsizes x (mem_append_right _ hx))
          (not_lt.1 hbehind) (by omega)
        rw [← sum_run hrun] at hrow
        refine ⟨_, hrow.behind, ?_⟩
        rw [hindex, length_replicate]
        omega

theorem indexFrom_end (h : Covers s groups) (hsizes : ∀ x ∈ sizesOf groups, 0 ≤ x)
    (hle : size + (sizesOf groups).sum ≤ position) :
    indexFrom count size position groups = count + (sizesOf groups).length := by
  induction groups generalizing s count size with
  | nil => simp [indexFrom]
  | cons g groups ih =>
    obtain ⟨rfl, hrun, htail⟩ := h
    have hlength := @length_sizesOf_cons g groups hrun
    rw [sizesOf_cons] at hsizes hle
    have htailSizes : ∀ x ∈ sizesOf groups, 0 ≤ x :=
      fun x hx => hsizes x (mem_append_right _ hx)
    have hsum := sum_nonneg htailSizes
    rw [sum_append, sum_run hrun] at hle
    rw [indexFrom, if_neg (by omega), ih htail htailSizes (by omega)]
    omega

end

structure Holds (map : RangeMap) (sizes : List ℤ) : Prop where
  covers : Covers 0 map.groups
  sizes_eq : sizesOf map.groups = sizes
  size_eq : map.size = map.paddingTop + sizes.sum

section

variable {map : RangeMap} {sizes : List ℤ}

theorem new_holds (topPadding : ℤ) : (new topPadding).Holds [] := ⟨trivial, rfl, by simp [new]⟩

theorem Holds.setPaddingTop (h : map.Holds sizes) (paddingTop : ℤ) :
    (map.setPaddingTop paddingTop).Holds sizes := by
  refine ⟨h.covers, h.sizes_eq, ?_⟩
  rw [RangeMap.setPaddingTop]
  dsimp only
  rw [h.size_eq]
  ring

theorem Holds.splice (h : map.Holds sizes) {index : ℕ} (hindex : index ≤ sizes.length)
    (deleteCount : ℕ) (items : List IItem) : (map.splice index deleteCount items).Holds
    (sizes.take index ++ items.map (·.size) ++ sizes.drop (index + deleteCount)) := by
  obtain ⟨hcovers, rfl, -⟩ := h
  obtain ⟨hbefore, hbeforeSizes⟩ := intersect_before (b := index) le_rfl hcovers
  obtain ⟨hafter, hafterSizes⟩ := intersect_after (a := index + deleteCount) hcovers
  obtain ⟨hmiddle, hmiddleSizes⟩ := items_spec index items
  obtain ⟨hshift, hshiftSizes⟩ := shift_spec (items.length - deleteCount) hafter
  rw [sub_zero, Int.toNat_natCast] at hbeforeSizes
  rw [sub_zero, show (index + deleteCount : ℤ).toNat = index + deleteCount by omega]
    at hafterSizes
  rw [hafterSizes] at hshiftSizes
  rw [max_eq_left (by omega),
    show (index + deleteCount : ℤ) + (items.length - deleteCount) = index + items.length by ring]
    at hshift
  have hindexLength : ((sizesOf map.groups).take index).length = index :=
    length_take_of_le hindex
  have hall := (hbefore.append (by rw [hbeforeSizes, hindexLength, zero_add]; exact hmiddle)).append
    (by
      rw [sizesOf_append, hbeforeSizes, hmiddleSizes, length_append, hindexLength,
        length_map, zero_add, Nat.cast_add]
      exact hshift)
  obtain ⟨hnew, hnewSizes⟩ := consolidate_spec hall
  rw [sizesOf_append, sizesOf_append, hbeforeSizes, hmiddleSizes, hshiftSizes] at hnewSizes
  refine ⟨hnew, hnewSizes, ?_⟩
  rw [← hnewSizes]
  exact congrArg (map.paddingTop + ·) (weight_spec hnew)

end

/-- What a map says about a list of sizes; `indexAt` answers the positions from `0` on, as a
negative one is outside of the list for it. -/
structure BehavesAs (map : RangeMap) (sizes : List ℤ) : Prop where
  count : map.count = sizes.length
  size : map.size = map.paddingTop + sizes.sum
  positionAt : ∀ i < sizes.length, map.positionAt i = map.paddingTop + (sizes.take i).sum
  indexAt : ∀ position, 0 ≤ position → map.paddingTop ≤ position → position < map.size →
    ∃ i : ℕ, RowAt sizes map.paddingTop position i ∧ map.indexAt position = i
  indexAt_end : ∀ position, 0 ≤ position → map.size ≤ position → map.indexAt position = map.count
  indexAt_positionAt : ∀ i, ∀ hi : i < sizes.length, 0 < sizes[i] → 0 ≤ map.positionAt i →
    map.indexAt (map.positionAt i) = i

section

variable {map : RangeMap} {sizes : List ℤ}

theorem RowAt.unique {start position : ℤ} {i j : ℕ} (hsizes : ∀ x ∈ sizes, 0 ≤ x)
    (hi : RowAt sizes start position i) (hj : RowAt sizes start position j) : i = j := by
  have hmono : ∀ {m n : ℕ}, m ≤ n → (sizes.take m).sum ≤ (sizes.take n).sum := by
    intro m n hmn
    obtain ⟨k, rfl⟩ := Nat.exists_eq_add_of_le hmn
    rw [take_add, sum_append]
    have hrest : 0 ≤ ((sizes.drop m).take k).sum := sum_nonneg fun x hx =>
      hsizes x (mem_of_mem_drop (List.mem_of_mem_take hx))
    omega
  rcases Nat.lt_trichotomy i j with h | h | h
  · have hle := hmono (Nat.succ_le_of_lt h)
    have hbelow := hi.2.2
    have habove := hj.2.1
    rw [Nat.succ_eq_add_one] at hle
    omega
  · exact h
  · have hle := hmono (Nat.succ_le_of_lt h)
    have hbelow := hj.2.2
    have habove := hi.2.1
    rw [Nat.succ_eq_add_one] at hle
    omega

theorem Holds.behavesAs (h : map.Holds sizes) (hsizes : ∀ x ∈ sizes, 0 ≤ x) :
    map.BehavesAs sizes := by
  obtain ⟨hcovers, rfl, hsize⟩ := h
  have hsum := sum_nonneg hsizes
  have hcount : map.count = (sizesOf map.groups).length := by
    rw [count, count_spec hcovers, zero_add]
  have hposition : ∀ i < (sizesOf map.groups).length,
      map.positionAt i = map.paddingTop + ((sizesOf map.groups).take i).sum := by
    intro i hi
    have hfrom : positionFrom map.paddingTop 0 0 (0 + i) map.groups =
        map.paddingTop + 0 + ((sizesOf map.groups).take i).sum := positionFrom_spec hcovers hi
    rw [positionAt, if_neg (by omega), ← zero_add (i : ℤ), hfrom, add_zero]
  have hinside : ∀ position, 0 ≤ position → map.paddingTop ≤ position → position < map.size →
      ∃ i : ℕ, RowAt (sizesOf map.groups) map.paddingTop position i ∧
        map.indexAt position = i := by
    intro position hnonneg hle hlt
    have hfound : ∃ i : ℕ, RowAt (sizesOf map.groups) map.paddingTop position i ∧
        indexFrom 0 map.paddingTop position map.groups = 0 + i :=
      indexFrom_inside hcovers hsizes hle (hsize ▸ hlt)
    obtain ⟨i, hrow, hindex⟩ := hfound
    refine ⟨i, hrow, ?_⟩
    rw [indexAt, if_neg (by omega), if_neg (by omega), hindex, zero_add]
  refine ⟨hcount, hsize, hposition, hinside, ?_, ?_⟩
  · intro position hnonneg hle
    rw [indexAt, if_neg (by omega), if_neg (by omega), hcount,
      indexFrom_end hcovers hsizes (hsize ▸ hle), zero_add]
  · intro i hi hpos hnonneg
    have htake : ((sizesOf map.groups).take (i + 1)).sum =
        ((sizesOf map.groups).take i).sum + (sizesOf map.groups)[i] := by
      rw [take_succ_eq_append_getElem hi, sum_append, sum_singleton]
    have htakeNonneg : 0 ≤ ((sizesOf map.groups).take i).sum :=
      sum_nonneg fun x hx => hsizes x (List.mem_of_mem_take hx)
    have hdropNonneg : 0 ≤ ((sizesOf map.groups).drop (i + 1)).sum :=
      sum_nonneg fun x hx => hsizes x (mem_of_mem_drop hx)
    have htotal := sum_take_add_sum_drop (sizesOf map.groups) (i + 1)
    have hat := hposition i hi
    have hrow : RowAt (sizesOf map.groups) map.paddingTop (map.positionAt i) i :=
      ⟨hi, hat.ge, by omega⟩
    obtain ⟨j, hother, hindex⟩ := hinside _ hnonneg (by omega) (by omega)
    rw [hindex, hrow.unique hsizes hother]

end

inductive Call
  | splice (index deleteCount : ℕ) (items : List IItem)
  | paddingTop (paddingTop : ℤ)

variable (map : RangeMap)

def call : Call → RangeMap
  | .splice index deleteCount items => map.splice index deleteCount items
  | .paddingTop paddingTop => map.setPaddingTop paddingTop

def run (calls : List Call) : RangeMap := calls.foldl call map

def Call.onSizes (sizes : List ℤ) : Call → List ℤ
  | .splice index deleteCount items =>
    sizes.take index ++ items.map (·.size) ++ sizes.drop (index + deleteCount)
  | .paddingTop _ => sizes

def sizesAfter (calls : List Call) : List ℤ := calls.foldl Call.onSizes []

def Call.Allowed : Call → Prop
  | .splice index _ items => index ≤ map.count ∧ ∀ item ∈ items, 0 ≤ item.size
  | .paddingTop _ => True

/-- Every splice is at an index of the map it meets, with sizes that are not negative. -/
def AllowedRun (map : RangeMap) : List Call → Prop
  | [] => True
  | c :: calls => c.Allowed map ∧ AllowedRun (map.call c) calls

theorem Holds.call {map : RangeMap} {sizes : List ℤ} (h : map.Holds sizes)
    (hsizes : ∀ x ∈ sizes, 0 ≤ x) {c : Call} (hc : c.Allowed map) :
    (map.call c).Holds (c.onSizes sizes) ∧ ∀ x ∈ c.onSizes sizes, 0 ≤ x := by
  cases c with
  | splice index deleteCount items =>
    obtain ⟨hindex, hitems⟩ := hc
    rw [(h.behavesAs hsizes).count] at hindex
    refine ⟨h.splice (by exact_mod_cast hindex) deleteCount items, fun x hx => ?_⟩
    rcases List.mem_append.1 hx with hx | hx
    · rcases List.mem_append.1 hx with hx | hx
      · exact hsizes x (List.mem_of_mem_take hx)
      · obtain ⟨item, hitem, rfl⟩ := mem_map.1 hx
        exact hitems item hitem
    · exact hsizes x (mem_of_mem_drop hx)
  | paddingTop paddingTop => exact ⟨h.setPaddingTop paddingTop, hsizes⟩

theorem Holds.run {map : RangeMap} {sizes : List ℤ} {calls : List Call} (h : map.Holds sizes)
    (hsizes : ∀ x ∈ sizes, 0 ≤ x) (hcalls : AllowedRun map calls) : (map.run calls).Holds
    (calls.foldl Call.onSizes sizes) ∧ ∀ x ∈ calls.foldl Call.onSizes sizes, 0 ≤ x := by
  induction calls generalizing map sizes with
  | nil => exact ⟨h, hsizes⟩
  | cons c calls ih =>
    obtain ⟨hnext, hnextSizes⟩ := h.call hsizes hcalls.1
    exact ih hnext hnextSizes hcalls.2

/-- After any run a map answers as the plain list of the sizes does. -/
theorem run_behavesAs (topPadding : ℤ) (calls : List Call)
    (hcalls : AllowedRun (new topPadding) calls) :
    ((new topPadding).run calls).BehavesAs (sizesAfter calls) := by
  obtain ⟨hholds, hsizes⟩ := (new_holds topPadding).run (by simp) hcalls
  exact hholds.behavesAs hsizes

/-- Three rows, one of them empty, the first two of which are then replaced by one. -/
theorem run_behavesAs_three : ((new 2).run [.splice 0 0 [⟨10⟩, ⟨10⟩, ⟨0⟩], .paddingTop 4,
    .splice 0 2 [⟨7⟩]]).BehavesAs (sizesAfter [.splice 0 0 [⟨10⟩, ⟨10⟩, ⟨0⟩], .paddingTop 4,
    .splice 0 2 [⟨7⟩]]) :=
  run_behavesAs 2 _ ⟨⟨by decide, by decide⟩, trivial, ⟨by decide, by decide⟩, trivial⟩

/-- With a negative padding the first row has negative positions, which `indexAt` refuses. -/
theorem indexAt_negative :
    ∃ calls, AllowedRun (new 0) calls ∧
      ∃ position, ((new 0).run calls).paddingTop ≤ position ∧
        position < ((new 0).run calls).size ∧
          ¬∃ i : ℕ, RowAt (sizesAfter calls) ((new 0).run calls).paddingTop position i ∧
            ((new 0).run calls).indexAt position = i := by
  refine ⟨[.splice 0 0 [⟨10⟩], .paddingTop (-5)], ⟨⟨by decide, by decide⟩, trivial, trivial⟩, -3,
    by decide, by decide, ?_⟩
  rintro ⟨i, -, hindex⟩
  have hminus : ((new 0).run [.splice 0 0 [⟨10⟩], .paddingTop (-5)]).indexAt (-3) = -1 := by decide
  omega

end RangeMap

end CodeOss.Ui
