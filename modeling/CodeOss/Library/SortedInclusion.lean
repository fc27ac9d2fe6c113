import Mathlib

/-! Comparison functions that agree with a linear order, and the test with two pointers
whether the elements of one sorted list are among those of another. -/

namespace CodeOss.SortedInclusion

open List

variable {α β : Type} [LinearOrder β]

/-- The sign of `cmp` on the elements of `S` is that of the order of their ranks. -/
def Agrees (cmp : α → α → Int) (S : α → Prop) (rank : α → β) : Prop :=
  ∀ a b, S a → S b → (cmp a b < 0 ↔ rank a < rank b) ∧ (cmp a b > 0 ↔ rank b < rank a)

def Ascending (cmp : α → α → Int) (xs : List α) : Prop := xs.Pairwise fun a b => cmp a b < 0

/-- Both lists are read from the front. -/
def included (cmp : α → α → Int) : List α → List α → Bool
  | [], _ => true
  | _ :: _, [] => false
  | x :: xs, y :: ys =>
    if cmp x y < 0 then false
    else if cmp x y = 0 then included cmp xs ys
    else included cmp (x :: xs) ys

variable {cmp : α → α → Int} {S : α → Prop} {rank : α → β} {xs ys : List α}

theorem Agrees.eq_zero (h : Agrees cmp S rank) {a b : α} (ha : S a) (hb : S b) :
    cmp a b = 0 ↔ rank a = rank b := by
  obtain ⟨hlt, hgt⟩ := h a b ha hb
  constructor
  · intro hzero
    refine le_antisymm (not_lt.mp fun hc => ?_) (not_lt.mp fun hc => ?_)
    · have := hgt.mpr hc
      omega
    · have := hlt.mpr hc
      omega
  · intro heq
    have h₁ : ¬ cmp a b < 0 := fun hc => (hlt.mp hc).ne heq
    have h₂ : ¬ cmp a b > 0 := fun hc => (hgt.mp hc).ne heq.symm
    omega

theorem exists_of_included (h : included cmp xs ys = true) : ∀ x ∈ xs, ∃ y ∈ ys, cmp x y = 0 := by
  induction ys generalizing xs with
  | nil =>
    cases xs with
    | nil => intro x hx; cases hx
    | cons x xs => cases h
  | cons y ys ih =>
    cases xs with
    | nil => intro x hx; cases hx
    | cons x xs =>
      simp only [included] at h
      split_ifs at h with hlt hzero
      · intro a ha
        rcases mem_cons.mp ha with rfl | ha
        · exact ⟨y, mem_cons_self, hzero⟩
        · obtain ⟨b, hb, hab⟩ := ih h a ha
          exact ⟨b, mem_cons_of_mem _ hb, hab⟩
      · intro a ha
        obtain ⟨b, hb, hab⟩ := ih h a ha
        exact ⟨b, mem_cons_of_mem _ hb, hab⟩

theorem included_self (h : ∀ x ∈ xs, cmp x x = 0) : included cmp xs xs = true := by
  induction xs with
  | nil => rfl
  | cons x xs ih =>
    obtain ⟨hx, hxs⟩ := forall_mem_cons.mp h
    rw [included, hx, if_neg (lt_irrefl 0), if_pos rfl, ih hxs]

variable (h : Agrees cmp S rank)
include h

theorem included_of_exists (hxs : ∀ x ∈ xs, S x) (hys : ∀ y ∈ ys, S y)
    (hasc : Ascending cmp xs) (hasc' : Ascending cmp ys)
    (hall : ∀ x ∈ xs, ∃ y ∈ ys, rank y = rank x) : included cmp xs ys = true := by
  induction ys generalizing xs with
  | nil =>
    cases xs with
    | nil => rfl
    | cons x xs =>
      obtain ⟨y, hy, -⟩ := hall x mem_cons_self
      cases hy
  | cons y ys ih =>
    cases xs with
    | nil => rfl
    | cons x xs =>
      obtain ⟨hx, hxs'⟩ := forall_mem_cons.mp hxs
      obtain ⟨hy, hys'⟩ := forall_mem_cons.mp hys
      obtain ⟨hfirst, hasc₁⟩ := pairwise_cons.mp hasc
      obtain ⟨hfirst', hasc₂⟩ := pairwise_cons.mp hasc'
      have hbehind : ∀ a ∈ ys, rank y < rank a := fun a ha =>
        (h y a hy (hys' a ha)).1.mp (hfirst' a ha)
      have hle : rank y ≤ rank x := by
        obtain ⟨a, ha, heq⟩ := hall x mem_cons_self
        rcases mem_cons.mp ha with rfl | ha
        · exact heq.le
        · exact (hbehind a ha).le.trans heq.le
      rw [included, if_neg fun hc => ((h x y hx hy).1.mp hc).not_ge hle]
      split
      · next hzero =>
          have hrank := (h.eq_zero hx hy).mp hzero
          refine ih hxs' hys' hasc₁ hasc₂ fun a ha => ?_
          obtain ⟨b, hb, heq⟩ := hall a (mem_cons_of_mem _ ha)
          rcases mem_cons.mp hb with rfl | hb
          · have hlt := (h x a hx (hxs' a ha)).1.mp (hfirst a ha)
            exact absurd (heq.symm.trans hrank.symm) hlt.ne'
          · exact ⟨b, hb, heq⟩
      · next hzero =>
          have hlt : rank y < rank x := lt_of_le_of_ne hle fun heq =>
            hzero ((h.eq_zero hx hy).mpr heq.symm)
          refine ih hxs hys' hasc hasc₂ fun a ha => ?_
          obtain ⟨b, hb, heq⟩ := hall a ha
          rcases mem_cons.mp hb with rfl | hb
          · rcases mem_cons.mp ha with rfl | ha
            · exact absurd heq hlt.ne
            · have hlt' := (h x a hx (hxs' a ha)).1.mp (hfirst a ha)
              exact absurd heq (hlt.trans hlt').ne
          · exact ⟨b, hb, heq⟩

theorem Agrees.le_zero {a b : α} (ha : S a) (hb : S b) : cmp a b ≤ 0 ↔ rank a ≤ rank b := by
  rw [← not_lt, ← not_lt]
  exact not_congr (h a b ha hb).2

theorem pairwise_orderedInsert {a : α} (ha : S a)
    (hxs : ∀ x ∈ xs, S x) (hsorted : xs.Pairwise fun a b => rank a ≤ rank b) :
    (xs.orderedInsert (fun a b => cmp a b ≤ 0) a).Pairwise fun a b => rank a ≤ rank b := by
  induction xs with
  | nil => exact pairwise_singleton _ _
  | cons x xs ih =>
    obtain ⟨hx, hxs'⟩ := forall_mem_cons.mp hxs
    obtain ⟨hfirst, hrest⟩ := pairwise_cons.mp hsorted
    rw [orderedInsert_cons]
    split
    · next hle =>
        have hle := (h.le_zero ha hx).mp hle
        refine pairwise_cons.mpr ⟨fun b hb => ?_, hsorted⟩
        rcases mem_cons.mp hb with rfl | hb
        · exact hle
        · exact hle.trans (hfirst b hb)
    · next hle =>
        have hlt : rank x ≤ rank a := (not_le.mp fun hc => hle ((h.le_zero ha hx).mpr hc)).le
        refine pairwise_cons.mpr ⟨fun b hb => ?_, ih hxs' hrest⟩
        rcases (mem_orderedInsert _).mp hb with rfl | hb
        · exact hlt
        · exact hfirst b hb

theorem pairwise_insertionSort (hxs : ∀ x ∈ xs, S x) :
    (xs.insertionSort fun a b => cmp a b ≤ 0).Pairwise fun a b => rank a ≤ rank b := by
  induction xs with
  | nil => exact List.Pairwise.nil
  | cons x xs ih =>
    obtain ⟨hx, hxs'⟩ := forall_mem_cons.mp hxs
    rw [insertionSort_cons]
    refine pairwise_orderedInsert h hx (fun y hy => hxs' y ?_) (ih hxs')
    exact (perm_insertionSort _ xs).mem_iff.mp hy

end CodeOss.SortedInclusion
