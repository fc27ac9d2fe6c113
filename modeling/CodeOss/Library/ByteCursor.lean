import Mathlib

/-! Writers and readers that walk a buffer with an explicit offset.
A writer takes a buffer and the offset to write at, and returns both; `Writes` says which
items it lays down, `Reads` what a reader gets back from them. Both compose. -/

universe u v w

variable {β : Type u} {α : Type v} {γ : Type w}

/-- The writer replaces the items at its offset by `items`, as long as there is room. -/
def Writes (write : List β → Nat → List β × Nat) (items : List β) : Prop :=
  ∀ done rest : List β, items.length ≤ rest.length →
    write (done ++ rest) done.length =
      (done ++ items ++ rest.drop items.length, done.length + items.length)

/-- At every offset that is `ok` the reader takes `value` from the items there and stops
behind them. -/
def Reads (ok : Nat → Prop) (read : List β → Nat → Option (α × Nat)) (items : List β)
    (value : α) : Prop :=
  ∀ done rest : List β, ok done.length → read (done ++ items ++ rest) done.length =
    some (value, done.length + items.length)

namespace Writes

theorem skip : Writes (fun b offset => (b, offset)) ([] : List β) := by
  intro done rest _
  simp

theorem seq {write write' : List β → Nat → List β × Nat} {x y : List β} (hx : Writes write x)
    (hy : Writes write' y) :
    Writes (fun b offset => write' (write b offset).1 (write b offset).2) (x ++ y) := by
  intro done rest hroom
  rw [List.length_append] at hroom
  have hy' := hy (done ++ x) (rest.drop x.length) (by
    rw [List.length_drop]
    omega)
  rw [List.length_append] at hy'
  simp only [hx done rest (by omega)]
  rw [hy', List.drop_drop, List.length_append, List.append_assoc done x y, Nat.add_assoc]

theorem foldl {write : γ → List β → Nat → List β × Nat}
    {items : γ → List β} (cs : List γ) (h : ∀ c ∈ cs, Writes (write c) (items c)) : Writes
    (fun b offset => cs.foldl (fun p c => write c p.1 p.2) (b, offset)) (cs.flatMap items) := by
  induction cs with
  | nil => exact skip
  | cons c cs ih =>
    have hc := h c List.mem_cons_self
    exact hc.seq (ih fun d hd => h d (List.mem_cons_of_mem _ hd))

theorem fill {write : List β → Nat → List β × Nat} {x : List β} (h : Writes write x) {b : List β}
    (hb : b.length = x.length) : write b 0 = (x, b.length) := by
  have hfill := h [] b hb.ge
  simpa [← hb] using hfill

end Writes

namespace Reads

theorem pure (ok : Nat → Prop) (value : α) :
    Reads ok (fun _ offset => some (value, offset)) ([] : List β) value := by
  intro done rest _
  simp

variable {ok : Nat → Prop} {read : List β → Nat → Option (α × Nat)} {x : List β} {a : α}

theorem bind (ok' : Nat → Prop) {f : α × Nat → List β → Option (γ × Nat)} {y : List β} {c : γ}
    (hok : ∀ n, ok n → ok' (n + x.length)) (hx : Reads ok read x a)
    (hy : Reads ok' (fun b offset => f (a, offset) b) y c) :
    Reads ok (fun b offset => (read b offset).bind fun p => f p b) (x ++ y) c := by
  intro done rest hdone
  have hx' := hx done (y ++ rest) hdone
  have hy' := hy (done ++ x) rest (by
    rw [List.length_append]
    exact hok _ hdone)
  rw [List.length_append] at hy'
  simp only [List.append_assoc] at hx' hy' ⊢
  rw [hx', Option.bind_some, hy', List.length_append, Nat.add_assoc]

theorem map {f : α × Nat → Option (γ × Nat)} {c : γ} (hx : Reads ok read x a)
    (hf : ∀ offset, f (a, offset) = some (c, offset)) :
    Reads ok (fun b offset => (read b offset).bind f) x c := by
  intro done rest hdone
  simp only [hx done rest hdone, Option.bind_some, hf]

theorem whole (h : Reads ok read x a) (hok : ok 0) : read x 0 = some (a, x.length) := by
  simpa using h [] [] hok

end Reads
