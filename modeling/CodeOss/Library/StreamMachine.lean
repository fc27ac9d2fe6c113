import Mathlib

/-! Machines that read a stream while it comes in.
A machine asks for a number of items and waits until they are there. What it does depends on
the items alone, not on how the stream was cut into chunks. -/

universe u v w

/-- In state `s` the machine looks at the next `need s` items and takes the first `used s` of
them; `rank` makes sure that it does not look forever. -/
structure StreamMachine (β : Type u) (σ : Type v) (ε : Type w) where
  need : σ → Nat
  used : σ → Nat
  step : σ → List β → σ × List ε
  weight : Nat
  rank : σ → Nat
  used_le : ∀ s, used s ≤ need s
  progress : ∀ s items, rank (step s items).1 < rank s + weight * used s

namespace StreamMachine

variable {β : Type u} {σ : Type v} {ε : Type w} (M : StreamMachine β σ ε)

/-- All the steps that can be made: the state, the items left over and the output. -/
def run (s : σ) (items : List β) : σ × List β × List ε :=
  if M.need s ≤ items.length then
    let next := M.step s (items.take (M.need s))
    let rest := run next.1 (items.drop (M.used s))
    (rest.1, rest.2.1, next.2 ++ rest.2.2)
  else (s, items, [])
termination_by M.weight * items.length + M.rank s
decreasing_by
  have hprogress := M.progress s (items.take (M.need s))
  have hused := M.used_le s
  have hmul := Nat.mul_le_mul_left M.weight (show M.used s ≤ items.length by omega)
  rw [List.length_drop, Nat.mul_sub]
  omega

variable {s : σ} {items : List β}

theorem run_wait (h : items.length < M.need s) : M.run s items = (s, items, []) := by
  rw [run, if_neg (by omega)]

theorem run_step (h : M.need s ≤ items.length) :
    M.run s items = ((M.run (M.step s (items.take (M.need s))).1 (items.drop (M.used s))).1,
    (M.run (M.step s (items.take (M.need s))).1 (items.drop (M.used s))).2.1,
    (M.step s (items.take (M.need s))).2 ++
    (M.run (M.step s (items.take (M.need s))).1 (items.drop (M.used s))).2.2) := by
  rw [run, if_pos h]

theorem run_take (hneed : M.need s = items.length) (hused : M.used s = items.length)
    (rest : List β) : M.run s (items ++ rest) = ((M.run (M.step s items).1 rest).1, (M.run
    (M.step s items).1 rest).2.1, (M.step s items).2 ++ (M.run (M.step s items).1 rest).2.2) := by
  rw [M.run_step (by rw [hneed, List.length_append]; omega), hneed, hused, List.take_left,
    List.drop_left]

theorem run_append (s : σ) (xs ys : List β) : M.run s (xs ++ ys) = ((M.run
    (M.run s xs).1 ((M.run s xs).2.1 ++ ys)).1, (M.run (M.run s xs).1 ((M.run s xs).2.1 ++ ys)).2.1,
    (M.run s xs).2.2 ++ (M.run (M.run s xs).1 ((M.run s xs).2.1 ++ ys)).2.2) := by
  induction s, xs using run.induct M with
  | case1 s xs h next ih =>
    have hused := M.used_le s
    rw [M.run_step (show M.need s ≤ (xs ++ ys).length by rw [List.length_append]; omega),
      M.run_step h, List.take_append_of_le_length h, List.drop_append_of_le_length (by omega), ih]
    simp only [List.append_assoc]
    rfl
  | case2 s xs h =>
    rw [M.run_wait (Nat.lt_of_not_le h)]
    simp

theorem run_waits (s : σ) (items : List β) :
    (M.run s items).2.1.length < M.need (M.run s items).1 := by
  induction s, items using run.induct M with
  | case1 s items h next ih =>
    rw [M.run_step h]
    exact ih
  | case2 s items h =>
    rw [M.run_wait (Nat.lt_of_not_le h)]
    simpa using h

end StreamMachine
