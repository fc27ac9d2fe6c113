import Mathlib

/-! Numbers held between two bounds, of which the upper one may be infinite, and the sharing of
a rest among them: what one share leaves over, and what the sum is after all have had theirs. -/

namespace CodeOss

section Clamp

variable {α : Type*} [LinearOrder α]

def atLeast (value : α) : WithBot α → α
  | ⊥ => value
  | (min : α) => max value min

def atMost (value : α) : WithTop α → α
  | ⊤ => value
  | (max : α) => min value max

def clamp (value : α) (min : WithBot α) (max : WithTop α) : α := atMost (atLeast value min) max

theorem coe_atMost (value : α) (max : WithTop α) :
    ((atMost value max : α) : WithTop α) = min ↑value max := by
  cases max with
  | top => simp [atMost]
  | coe max => simp [atMost]

end Clamp

structure Limits (α : Type*) [LE α] where
  lo : α
  hi : WithTop α
  le : lo ≤ hi

namespace Limits

section Order

variable {α : Type*} [LinearOrder α] {limits : Limits α} {value : α}

def Contains (limits : Limits α) (value : α) : Prop := limits.lo ≤ value ∧ value ≤ limits.hi

def clamp (limits : Limits α) (value : α) : α := CodeOss.clamp value limits.lo limits.hi

theorem clamp_eq : (limits.clamp value : WithTop α) = min (max ↑value ↑limits.lo) limits.hi := by
  rw [clamp, CodeOss.clamp, coe_atMost, ← WithTop.coe_max]
  rfl

theorem clamp_mem : limits.Contains (limits.clamp value) := by
  refine ⟨?_, ?_⟩
  · rw [← WithTop.coe_le_coe, clamp_eq]
    exact le_min (le_max_right _ _) limits.le
  · rw [clamp_eq]
    exact min_le_right _ _

theorem Contains.clamp (h : limits.Contains value) : limits.clamp value = value := by
  rw [← WithTop.coe_inj, clamp_eq, max_eq_left (WithTop.coe_le_coe.mpr h.1), min_eq_left h.2]

end Order

section Sharing

variable {α : Type*} [AddCommGroup α] [LinearOrder α] [IsOrderedAddMonoid α] {limits : Limits α}
  {value rest : α}

theorem share_nonneg (h : limits.Contains value) (hrest : 0 ≤ rest) : 0 ≤ rest -
    (limits.clamp (value + rest) - value) ∧ (rest - (limits.clamp (value + rest) - value) ≠ 0 →
    (limits.clamp (value + rest) : WithTop α) = limits.hi) := by
  have hlo : limits.lo ≤ value + rest := h.1.trans (le_add_of_nonneg_right hrest)
  have hclamp : (limits.clamp (value + rest) : WithTop α) = min ↑(value + rest) limits.hi := by
    rw [clamp_eq, max_eq_left (WithTop.coe_le_coe.mpr hlo)]
  have hle : limits.clamp (value + rest) ≤ value + rest := by
    rw [← WithTop.coe_le_coe, hclamp]
    exact min_le_left _ _
  refine ⟨?_, fun hne => ?_⟩
  · rw [sub_nonneg, sub_le_iff_le_add']
    exact hle
  · rcases min_choice (↑(value + rest) : WithTop α) limits.hi with hall | hfull
    · rw [hall] at hclamp
      refine absurd ?_ hne
      rw [WithTop.coe_inj.mp hclamp]
      abel
    · rw [hclamp, hfull]

theorem share_nonpos (h : limits.Contains value) (hrest : rest ≤ 0) :
    rest - (limits.clamp (value + rest) - value) ≤ 0 ∧ (rest -
    (limits.clamp (value + rest) - value) ≠ 0 → limits.clamp (value + rest) = limits.lo) := by
  have hhi : (↑(max (value + rest) limits.lo) : WithTop α) ≤ limits.hi := by
    rw [WithTop.coe_max]
    refine max_le (le_trans ?_ h.2) limits.le
    exact WithTop.coe_le_coe.mpr (add_le_of_nonpos_right hrest)
  have hclamp : limits.clamp (value + rest) = max (value + rest) limits.lo := by
    rw [← WithTop.coe_inj, clamp_eq, ← WithTop.coe_max, min_eq_left hhi]
  refine ⟨?_, fun hne => ?_⟩
  · rw [sub_nonpos, le_sub_iff_add_le', hclamp]
    exact le_max_left _ _
  · rcases max_choice (value + rest) limits.lo with hall | hfull
    · refine absurd ?_ hne
      rw [hclamp, hall]
      abel
    · rw [hclamp, hfull]

def Shared (slots : List (Limits α × α)) (rest : α) : Prop :=
  rest = 0 ∨ (0 < rest ∧ ∀ s ∈ slots, (s.2 : WithTop α) = s.1.hi) ∨
    (rest < 0 ∧ ∀ s ∈ slots, s.2 = s.1.lo)

variable {slots : List (Limits α × α)}

omit [IsOrderedAddMonoid α] in
theorem coe_sum :
    (((slots.map (·.2)).sum : α) : WithTop α) = (slots.map fun s => (s.2 : WithTop α)).sum := by
  induction slots with
  | nil => rfl
  | cons s slots ih =>
    rw [List.map_cons, List.map_cons, List.sum_cons, List.sum_cons, WithTop.coe_add, ih]

theorem sum_contains (h : ∀ s ∈ slots, s.1.Contains s.2) : (slots.map (·.1.lo)).sum ≤ (slots.map
    (·.2)).sum ∧ (((slots.map (·.2)).sum : α) : WithTop α) ≤ (slots.map (·.1.hi)).sum := by
  induction slots with
  | nil => simp
  | cons s slots ih =>
    obtain ⟨hs, hrest⟩ := List.forall_mem_cons.mp h
    obtain ⟨hlo, hhi⟩ := ih hrest
    refine ⟨add_le_add hs.1 hlo, ?_⟩
    rw [List.map_cons, List.map_cons, List.sum_cons, List.sum_cons, WithTop.coe_add]
    exact add_le_add hs.2 hhi

theorem sum_eq_clamp (h : ∀ s ∈ slots, s.1.Contains s.2) (hshared : Shared slots rest) :
    (slots.map (·.2)).sum = CodeOss.clamp
    ((slots.map (·.2)).sum + rest) ((slots.map (·.1.lo)).sum : α) (slots.map (·.1.hi)).sum := by
  obtain ⟨hlo, hhi⟩ := sum_contains h
  let whole : Limits α := ⟨(slots.map (·.1.lo)).sum, (slots.map (·.1.hi)).sum,
    (WithTop.coe_le_coe.mpr hlo).trans hhi⟩
  have hwhole : whole.Contains (slots.map (·.2)).sum := ⟨hlo, hhi⟩
  change _ = whole.clamp _
  rcases hshared with hzero | ⟨hpos, hfull⟩ | ⟨hneg, hempty⟩
  · rw [hzero, add_zero, hwhole.clamp]
  · have htop : (((slots.map (·.2)).sum : α) : WithTop α) = whole.hi := by
      rw [coe_sum, List.map_congr_left hfull]
    rw [← WithTop.coe_inj, clamp_eq, max_eq_left, min_eq_right]
    · exact htop
    · rw [← htop]
      exact WithTop.coe_le_coe.mpr (le_add_of_nonneg_right hpos.le)
    · exact WithTop.coe_le_coe.mpr (hlo.trans (le_add_of_nonneg_right hpos.le))
  · have hbottom : (slots.map (·.2)).sum = whole.lo := by rw [List.map_congr_left hempty]
    rw [← WithTop.coe_inj, clamp_eq, max_eq_right, min_eq_left whole.le, hbottom]
    rw [← hbottom]
    exact WithTop.coe_le_coe.mpr (add_le_of_nonpos_right hneg.le)

end Sharing

end Limits

end CodeOss
