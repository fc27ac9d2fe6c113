import Mathlib

/-! Regular expressions over classes of letters: the language of one, a test by derivatives, and
what a star is made of. -/

namespace CodeOss

inductive Regex (σ : Type) where
  | zero
  | one
  | atom (a : σ)
  | alt (r s : Regex σ)
  | seq (r s : Regex σ)
  | star (r : Regex σ)
deriving DecidableEq

namespace Regex

variable {σ α : Type}

def seqAll (rs : List (Regex σ)) : Regex σ := rs.foldr seq one

def altAll (rs : List (Regex σ)) : Regex σ := rs.foldr alt zero

def nullable : Regex σ → Bool
  | zero => false
  | one => true
  | atom _ => false
  | alt r s => nullable r || nullable s
  | seq r s => nullable r && nullable s
  | star _ => true

section Language

-- Which letters are in a class.
variable (sat : σ → α → Bool)

def language : Regex σ → Language α
  | zero => 0
  | one => 1
  | atom a => {w | ∃ c, w = [c] ∧ sat a c = true}
  | alt r s => language r + language s
  | seq r s => language r * language s
  | star r => KStar.kstar (language r)

/-- What may follow a letter. -/
def deriv (c : α) : Regex σ → Regex σ
  | zero => zero
  | one => zero
  | atom a => if sat a c then one else zero
  | alt r s => alt (deriv c r) (deriv c s)
  | seq r s =>
    if nullable r then alt (seq (deriv c r) s) (deriv c s) else seq (deriv c r) s
  | star r => seq (deriv c r) (star r)

def test (r : Regex σ) (w : List α) : Bool := (w.foldl (fun r c => deriv sat c r) r).nullable

end Language

section Membership

variable {sat : σ → α → Bool} {r s : Regex σ} {rs : List (Regex σ)} {w : List α} {c : α} {a : σ}

@[simp]
theorem mem_one : w ∈ language sat one ↔ w = [] := Iff.rfl

@[simp]
theorem mem_zero : w ∈ language sat zero ↔ False := Iff.rfl

theorem mem_atom : w ∈ language sat (atom a) ↔ ∃ c, w = [c] ∧ sat a c = true := Iff.rfl

theorem mem_alt :
    w ∈ language sat (alt r s) ↔ w ∈ language sat r ∨ w ∈ language sat s := Iff.rfl

theorem mem_seq :
    w ∈ language sat (seq r s) ↔ ∃ u ∈ language sat r, ∃ v ∈ language sat s, u ++ v = w :=
  Language.mem_mul

theorem mem_seqAll_cons :
    w ∈ language sat (seqAll (r :: rs)) ↔
      ∃ u ∈ language sat r, ∃ v ∈ language sat (seqAll rs), u ++ v = w := mem_seq

theorem mem_altAll : w ∈ language sat (altAll rs) ↔ ∃ r ∈ rs, w ∈ language sat r := by
  induction rs with
  | nil => simp [altAll]
  | cons r rs ih =>
    rw [List.exists_mem_cons_iff, ← ih]
    exact mem_alt

theorem seqAll_append (rs rs' : List (Regex σ)) :
    language sat (seqAll (rs ++ rs')) = language sat (seqAll rs) * language sat (seqAll rs') := by
  induction rs with
  | nil => exact (one_mul _).symm
  | cons r rs ih =>
    calc language sat (seqAll (r :: (rs ++ rs')))
        = language sat r * language sat (seqAll (rs ++ rs')) := rfl
      _ = language sat r * (language sat (seqAll rs) * language sat (seqAll rs')) := by rw [ih]
      _ = language sat (seqAll (r :: rs)) * language sat (seqAll rs') := (mul_assoc _ _ _).symm

theorem nil_mem_star : [] ∈ language sat (star r) := Language.nil_mem_kstar _

theorem append_mem_star {u v : List α} (hu : u ∈ language sat r)
    (hv : v ∈ language sat (star r)) : u ++ v ∈ language sat (star r) := by
  obtain ⟨L, rfl, hL⟩ := Language.mem_kstar.mp hv
  exact Language.mem_kstar.mpr ⟨u :: L, rfl, List.forall_mem_cons.mpr ⟨hu, hL⟩⟩

theorem star_induction {p : List α → Prop} (nil : p [])
    (append : ∀ u v, u ∈ language sat r → v ∈ language sat (star r) → p v → p (u ++ v))
    (h : w ∈ language sat (star r)) : p w := by
  obtain ⟨L, rfl, hL⟩ := Language.mem_kstar.mp h
  clear h
  induction L with
  | nil => exact nil
  | cons u L ih =>
    obtain ⟨hu, hL⟩ := List.forall_mem_cons.mp hL
    have hrest : L.flatten ∈ language sat (star r) := Language.mem_kstar.mpr ⟨L, rfl, hL⟩
    exact append u L.flatten hu hrest (ih hL)

theorem cons_mem_star : c :: w ∈ language sat (star r) ↔
    ∃ u v, w = u ++ v ∧ c :: u ∈ language sat r ∧ v ∈ language sat (star r) := by
  constructor
  · intro h
    refine star_induction (p := fun cw => c :: w = cw → ∃ u v, w = u ++ v ∧
      c :: u ∈ language sat r ∧ v ∈ language sat (star r)) (fun hnil => ?_) ?_ h rfl
    · cases hnil
    · intro u v hu hv ih hcw
      cases u with
      | nil => exact ih hcw
      | cons d u =>
        obtain ⟨rfl, rfl⟩ := List.cons.inj hcw
        exact ⟨u, v, rfl, hu, hv⟩
  · rintro ⟨u, v, rfl, hu, hv⟩
    exact append_mem_star hu hv

end Membership

section Test

variable {sat : σ → α → Bool} {w : List α} {c : α}

theorem nullable_iff (r : Regex σ) : nullable r = true ↔ [] ∈ language sat r := by
  induction r with
  | zero => simp [nullable]
  | one => simp [nullable]
  | atom a => simp [nullable, mem_atom]
  | alt r s ihr ihs => rw [nullable, Bool.or_eq_true, ihr, ihs, mem_alt]
  | seq r s ihr ihs =>
    rw [nullable, Bool.and_eq_true, ihr, ihs, mem_seq]
    constructor
    · rintro ⟨hr, hs⟩
      exact ⟨[], hr, [], hs, rfl⟩
    · rintro ⟨u, hu, v, hv, huv⟩
      obtain ⟨rfl, rfl⟩ := List.append_eq_nil_iff.mp huv
      exact ⟨hu, hv⟩
  | star r _ => exact iff_of_true rfl nil_mem_star

theorem mem_deriv (r : Regex σ) : w ∈ language sat (deriv sat c r) ↔ c :: w ∈ language sat r := by
  induction r generalizing w with
  | zero => simp [deriv]
  | one => simp [deriv]
  | atom a =>
    rw [deriv, mem_atom]
    cases h : sat a c with
    | true => simp [h]
    | false => simp [h]
  | alt r s ihr ihs => rw [deriv, mem_alt, mem_alt, ihr, ihs]
  | seq r s ihr ihs =>
    have hfirst : w ∈ language sat (seq (deriv sat c r) s) ↔
        ∃ u v, w = u ++ v ∧ c :: u ∈ language sat r ∧ v ∈ language sat s := by
      rw [mem_seq]
      constructor
      · rintro ⟨u, hu, v, hv, rfl⟩
        exact ⟨u, v, rfl, ihr.mp hu, hv⟩
      · rintro ⟨u, v, rfl, hu, hv⟩
        exact ⟨u, ihr.mpr hu, v, hv, rfl⟩
    have hseq : c :: w ∈ language sat (seq r s) ↔
        ([] ∈ language sat r ∧ c :: w ∈ language sat s) ∨
          ∃ u v, w = u ++ v ∧ c :: u ∈ language sat r ∧ v ∈ language sat s := by
      rw [mem_seq]
      constructor
      · rintro ⟨u, hu, v, hv, huv⟩
        cases u with
        | nil => exact .inl ⟨hu, by rwa [← huv]⟩
        | cons d u =>
          obtain ⟨rfl, rfl⟩ := List.cons.inj huv
          exact .inr ⟨u, v, rfl, hu, hv⟩
      · rintro (⟨hr, hs⟩ | ⟨u, v, rfl, hu, hv⟩)
        · exact ⟨[], hr, c :: w, hs, rfl⟩
        · exact ⟨c :: u, hu, v, hv, rfl⟩
    rw [deriv, hseq, ← nullable_iff]
    split
    · rename_i h
      rw [mem_alt, hfirst, ihs, or_comm]
      simp [h]
    · rename_i h
      rw [hfirst]
      simp [h]
  | star r ih =>
    rw [deriv, mem_seq, cons_mem_star]
    constructor
    · rintro ⟨u, hu, v, hv, rfl⟩
      exact ⟨u, v, rfl, ih.mp hu, hv⟩
    · rintro ⟨u, v, rfl, hu, hv⟩
      exact ⟨u, ih.mpr hu, v, hv, rfl⟩

theorem test_iff (r : Regex σ) : test sat r w = true ↔ w ∈ language sat r := by
  rw [test]
  induction w generalizing r with
  | nil => exact nullable_iff r
  | cons c w ih => rw [List.foldl_cons, ih, mem_deriv]

end Test

end Regex

end CodeOss
