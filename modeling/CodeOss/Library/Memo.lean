import Mathlib

/-! Tables of results that were computed before: reading one through a table gives what the
computation gives, as long as the table has nothing else in it. -/

namespace CodeOss

structure Memo (κ α : Type) where
  entries : κ → Option α

namespace Memo

variable {κ α : Type}

def empty : Memo κ α := ⟨fun _ => none⟩

section Update

variable [DecidableEq κ]

def erase (m : Memo κ α) (k : κ) : Memo κ α := ⟨Function.update m.entries k none⟩

/-- The entry, or what is computed, which is then kept. -/
def read (m : Memo κ α) (k : κ) (compute : Option α) : Option α × Memo κ α :=
  match m.entries k with
  | some a => (some a, m)
  | none =>
    match compute with
    | some a => (some a, ⟨Function.update m.entries k (some a)⟩)
    | none => (none, m)

/-- The same for a computation that gives a result for every key. -/
def fetch (m : Memo κ α) (k : κ) (a : α) : α × Memo κ α :=
  match m.entries k with
  | some b => (b, m)
  | none => (a, ⟨Function.update m.entries k (some a)⟩)

end Update

def Faithful (m : Memo κ α) (f : κ → Option α) : Prop :=
  ∀ k a, m.entries k = some a → f k = some a

variable {m : Memo κ α} {f g : κ → Option α} {k : κ}

theorem faithful_empty : Faithful (empty : Memo κ α) f := fun _ _ h => by cases h

theorem Faithful.congr (h : m.Faithful f) (hfg : ∀ k, m.entries k ≠ none → f k = g k) :
    m.Faithful g := fun k a hk => by
  rw [← hfg k (by rw [hk]; exact Option.some_ne_none a)]
  exact h k a hk

variable [DecidableEq κ]

theorem Faithful.read_fst (h : m.Faithful f) : (m.read k (f k)).1 = f k := by
  rw [read.eq_def]
  cases hentry : m.entries k with
  | some a => exact (h k a hentry).symm
  | none =>
    simp only
    cases f k <;> rfl

theorem Faithful.read_snd (h : m.Faithful f) : (m.read k (f k)).2.Faithful f := by
  rw [read.eq_def]
  cases hentry : m.entries k with
  | some a => exact h
  | none =>
    simp only
    cases hf : f k with
    | none => exact h
    | some a =>
      intro k' a' hk'
      by_cases heq : k' = k
      · subst heq
        simp only [Function.update_self] at hk'
        rw [hf, hk']
      · simp only [Function.update_of_ne heq] at hk'
        exact h k' a' hk'

theorem Faithful.fetch {f : κ → α} (h : m.Faithful fun k => some (f k)) :
    (m.fetch k (f k)).1 = f k ∧ (m.fetch k (f k)).2.Faithful fun k => some (f k) := by
  rw [Memo.fetch.eq_def]
  cases hentry : m.entries k with
  | some a => exact ⟨(Option.some_inj.mp (h k a hentry)).symm, h⟩
  | none =>
    refine ⟨rfl, fun k' a' hk' => ?_⟩
    by_cases heq : k' = k
    · subst heq
      simpa using hk'
    · simp only [Function.update_of_ne heq] at hk'
      exact h k' a' hk'

end Memo

end CodeOss
