import Mathlib

/-! Lists in strictly ascending order of a key: looking a key up, and putting
something else in its place. -/

open List

namespace CodeOss.KeyedCells

variable {α β : Type} [LinearOrder β] (key : α → β)

def Ascending (cells : List α) : Prop := cells.Pairwise fun a b => key a < key b

def lookup (x : β) (cells : List α) : Option α := cells.find? fun a => key a = x

/-- The list with `o` in the place of `x`: nothing, or something whose key is `x`. -/
def change (x : β) (o : Option α) (cells : List α) : List α :=
  cells.filter (fun a => key a < x) ++ (o.toList ++ cells.filter (fun a => x < key a))

variable {key} {x y : β} {a b : α} {o : Option α} {cells front back : List α}

theorem ascending_split : Ascending key (front ++ b :: back) ↔ Ascending key front ∧
    Ascending key back ∧ (∀ a ∈ front, key a < key b) ∧ ∀ a ∈ back, key b < key a := by
  simp only [Ascending, pairwise_append, pairwise_cons, mem_cons]
  constructor
  · rintro ⟨hf, ⟨hb, hbb⟩, h⟩
    exact ⟨hf, hbb, fun a ha => h a ha b (.inl rfl), hb⟩
  · rintro ⟨hf, hbb, hfb, hb⟩
    refine ⟨hf, ⟨hb, hbb⟩, fun a ha c hc => ?_⟩
    rcases hc with rfl | hc
    · exact hfb a ha
    · exact (hfb a ha).trans (hb c hc)

theorem lookup_eq_none : lookup key x cells = none ↔ ∀ a ∈ cells, key a ≠ x := by
  simp [lookup]

theorem lookup_eq_some (h : Ascending key cells) :
    lookup key x cells = some a ↔ a ∈ cells ∧ key a = x := by
  constructor
  · intro ha
    refine ⟨mem_of_find?_eq_some ha, ?_⟩
    simpa using find?_some ha
  · rintro ⟨ha, rfl⟩
    obtain ⟨front, back, rfl⟩ := append_of_mem ha
    obtain ⟨-, -, hf, -⟩ := ascending_split.mp h
    rw [lookup, find?_append]
    have hnone : front.find? (fun b => key b = key a) = none := by
      simpa using fun b hb => (hf b hb).ne
    simp [hnone]

theorem mem_change : b ∈ change key x o cells ↔ (b ∈ cells ∧ key b ≠ x) ∨ b ∈ o := by
  have hne : key b < x ∨ x < key b ↔ key b ≠ x := ne_iff_lt_or_gt.symm
  simp only [change, List.mem_append, mem_filter, decide_eq_true_eq, Option.mem_toList, ← hne]
  tauto

theorem ascending_change (h : Ascending key cells) (ho : ∀ a ∈ o, key a = x) :
    Ascending key (change key x o cells) := by
  have hlow : Ascending key (cells.filter fun a => key a < x) := h.filter _
  have hhigh : Ascending key (cells.filter fun a => x < key a) := h.filter _
  cases o with
  | none =>
    refine pairwise_append.mpr ⟨hlow, hhigh, fun a ha b hb => ?_⟩
    have ha' : key a < x := of_decide_eq_true (mem_filter.mp ha).2
    have hb' : x < key b := of_decide_eq_true (mem_filter.mp hb).2
    exact ha'.trans hb'
  | some c =>
    have hc := ho c rfl
    refine ascending_split.mpr ⟨hlow, hhigh, fun a ha => ?_, fun a ha => ?_⟩
    · exact hc.symm ▸ of_decide_eq_true (mem_filter.mp ha).2
    · exact hc.symm ▸ of_decide_eq_true (mem_filter.mp ha).2

theorem lookup_change (h : Ascending key cells) (ho : ∀ a ∈ o, key a = x) :
    lookup key y (change key x o cells) = if y = x then o else lookup key y cells := by
  have hc := ascending_change h ho
  split
  · next hy =>
      cases o with
      | none =>
        rw [lookup_eq_none]
        intro a ha
        rcases mem_change.mp ha with ⟨-, hne⟩ | ha
        · exact hy ▸ hne
        · cases ha
      | some c =>
        rw [lookup_eq_some hc]
        exact ⟨mem_change.mpr (.inr rfl), hy ▸ ho c rfl⟩
  · next hy =>
      apply Option.ext
      intro a
      rw [lookup_eq_some hc, lookup_eq_some h, mem_change]
      constructor
      · rintro ⟨⟨ha, -⟩ | ha, rfl⟩
        · exact ⟨ha, rfl⟩
        · exact absurd (ho a ha) hy
      · rintro ⟨ha, rfl⟩
        exact ⟨.inl ⟨ha, hy⟩, rfl⟩

section Split

variable (h : Ascending key (front ++ b :: back))
include h

theorem lookup_split : lookup key x (front ++ b :: back) =
    if x < key b then lookup key x front
    else if key b < x then lookup key x back else some b := by
  obtain ⟨hf, hbb, hfb, hb⟩ := ascending_split.mp h
  apply Option.ext
  intro a
  rw [lookup_eq_some h]
  simp only [List.mem_append, mem_cons]
  split_ifs with h₁ h₂
  · rw [lookup_eq_some hf]
    constructor
    · rintro ⟨ha | rfl | ha, rfl⟩
      · exact ⟨ha, rfl⟩
      · exact absurd h₁ (lt_irrefl _)
      · exact absurd (h₁.trans (hb a ha)) (lt_irrefl _)
    · rintro ⟨ha, rfl⟩
      exact ⟨.inl ha, rfl⟩
  · rw [lookup_eq_some hbb]
    constructor
    · rintro ⟨ha | rfl | ha, rfl⟩
      · exact absurd (hfb a ha) h₁
      · exact absurd h₂ (lt_irrefl _)
      · exact ⟨ha, rfl⟩
    · rintro ⟨ha, rfl⟩
      exact ⟨.inr (.inr ha), rfl⟩
  · have hx : key b = x := le_antisymm (not_lt.mp h₁) (not_lt.mp h₂)
    rw [Option.some_inj]
    constructor
    · rintro ⟨ha | rfl | ha, hax⟩
      · exact absurd (hax.trans hx.symm) (hfb a ha).ne
      · rfl
      · exact absurd (hax.trans hx.symm) (hb a ha).ne'
    · rintro rfl
      exact ⟨.inr (.inl rfl), hx⟩

theorem change_front (hx : x < key b) :
    change key x o (front ++ b :: back) = change key x o front ++ b :: back := by
  obtain ⟨hf, hbb, hfb, hb⟩ := ascending_split.mp h
  have hlow : back.filter (fun a => key a < x) = [] := by
    simpa using fun a ha => (hx.trans (hb a ha)).le
  have hhigh : back.filter (fun a => x < key a) = back := by
    simpa using fun a ha => hx.trans (hb a ha)
  simp [change, hx, hx.le, hlow, hhigh]

theorem change_back (hx : key b < x) :
    change key x o (front ++ b :: back) = front ++ b :: change key x o back := by
  obtain ⟨hf, hbb, hfb, hb⟩ := ascending_split.mp h
  have hlow : front.filter (fun a => key a < x) = front := by
    simpa using fun a ha => (hfb a ha).trans hx
  have hhigh : front.filter (fun a => x < key a) = [] := by
    simpa using fun a ha => ((hfb a ha).trans hx).le
  simp [change, hx, hx.le, hlow, hhigh]

theorem change_here (hx : key b = x) :
    change key x o (front ++ b :: back) = front ++ (o.toList ++ back) := by
  subst hx
  obtain ⟨hf, hbb, hfb, hb⟩ := ascending_split.mp h
  have hlow : front.filter (fun a => key a < key b) = front := by
    simpa using hfb
  have hhigh : front.filter (fun a => key b < key a) = [] := by
    simpa using fun a ha => (hfb a ha).le
  have hlow' : back.filter (fun a => key a < key b) = [] := by
    simpa using fun a ha => (hb a ha).le
  have hhigh' : back.filter (fun a => key b < key a) = back := by
    simpa using hb
  simp [change, hlow, hhigh, hlow', hhigh']

end Split

end CodeOss.KeyedCells

/-! Loops over distinct keys whose body touches its own key only. What such a loop
leaves at a key is what one round of its body leaves there. -/

namespace KeyedFold

variable {κ σ τ : Type} [DecidableEq κ]

/-- A body that changes what the state says about its key and about no other. -/
def Touches (view : σ → κ → τ) (body : σ → κ → σ) (effect : κ → τ → τ) : Prop :=
  ∀ state key k, view (body state key) k =
    if k = key then effect k (view state k) else view state k

theorem view_foldl {view : σ → κ → τ} {body : σ → κ → σ} {effect : κ → τ → τ} (h : Touches view body
    effect) {keys : List κ} (hnodup : keys.Nodup) (state : σ) (k : κ) : view (keys.foldl body state)
    k = if k ∈ keys then effect k (view state k) else view state k := by
  induction keys generalizing state with
  | nil => simp
  | cons key rest ih =>
    obtain ⟨hkey, hrest⟩ := nodup_cons.1 hnodup
    rw [foldl_cons, ih hrest, h]
    by_cases hk : k = key
    · subst hk
      simp [hkey]
    · simp [hk]

theorem Touches.id {view : σ → κ → τ} {body : σ → κ → σ} {effect : κ → τ → τ} (guard : κ → Bool) (h
    : Touches view body effect) : Touches view (fun state key => if guard key then state else body
    state key) (fun k before => if guard k then before else effect k before) := by
  intro state key k
  by_cases hguard : guard key = true
  · by_cases hk : k = key
    · subst hk
      simp [hguard]
    · simp [hguard, hk]
  · by_cases hk : k = key
    · subst hk
      simp [hguard, h state k k]
    · simp [hguard, hk, h state key k]

end KeyedFold
