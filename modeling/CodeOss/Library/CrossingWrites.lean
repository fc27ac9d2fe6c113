import Mathlib

/-! A register with two replicas that write on their own and send each other their writes in
order. What both will hold in the end is decided when a write is made, by what is then on its
way to the replica that makes it. -/

namespace CodeOss.CrossingWrites

variable {V : Type} {w : Option V} {ws front back : List (Option V)} {m v : V}

/-- The last write of several. An update of a map need not write every register of it. -/
def last : List (Option V) → Option V
  | [] => none
  | w :: ws => (last ws).or w

@[simp] theorem last_nil : last ([] : List (Option V)) = none := rfl

@[simp] theorem last_cons : last (w :: ws) = (last ws).or w := rfl

@[simp] theorem last_append : last (front ++ back) = (last back).or (last front) := by
  induction front with
  | nil => simp
  | cons w front ih => rw [List.cons_append, last_cons, ih, last_cons, Option.or_assoc]

/-- What a register holds after the writes, from the first to the last. -/
def after (ws : List (Option V)) (m : V) : V := (last ws).getD m

@[simp] theorem after_nil : after [] m = m := rfl

@[simp] theorem after_cons : after (w :: ws) m = after ws (w.getD m) := by
  rw [after, after, last_cons]
  cases last ws <;> simp

@[simp] theorem after_append : after (front ++ back) m = after back (after front m) := by
  rw [after, after, after, last_append]
  cases last back <;> simp

/-- Both replicas hold `v` when every write has arrived. -/
structure Agree (toA : List (Option V)) (a : V) (toB : List (Option V)) (b v : V) : Prop where
  left : after toA a = v
  right : after toB b = v

section Agree

variable {toA toA' toB : List (Option V)} {a b : V}

theorem agree_write (hmet : after toB v = v) : Agree (toA ++ [some v]) a toB v v :=
  ⟨by simp, hmet⟩

theorem Agree.symm (h : Agree toA a toB b v) : Agree toB b toA a v := ⟨h.right, h.left⟩

theorem agree_receive : Agree (w :: toA) a toB b v ↔ Agree toA (w.getD a) toB b v :=
  ⟨fun h => ⟨by rw [← after_cons]; exact h.left, h.right⟩,
    fun h => ⟨by rw [after_cons]; exact h.left, h.right⟩⟩

theorem Agree.congr (h : Agree toA a toB b v) (hlast : last toA' = last toA) :
    Agree toA' a toB b v := by
  refine ⟨?_, h.right⟩
  rw [after, hlast]
  exact h.left

theorem agree_settled : Agree [] a [] b v ↔ a = v ∧ b = v :=
  ⟨fun h => ⟨h.left, h.right⟩, fun h => ⟨h.1, h.2⟩⟩

end Agree

end CodeOss.CrossingWrites
