import Mathlib

/-! Maps from paths to entries: putting an entry at a path, taking the entry at a path or
those below it away, and reading the entry at the longest prefix of a path. -/

namespace CodeOss

open List

abbrev PrefixMap (β E : Type) := List β → Option E

namespace PrefixMap

variable {β E : Type}

def empty : PrefixMap β E := fun _ => none

/-- `q` properly extends `p`. -/
def Below (p q : List β) : Prop := p <+: q ∧ p ≠ q

variable {p : List β} {m : PrefixMap β E}

theorem below_iff {q : List β} : Below p q ↔ ∃ r, r ≠ [] ∧ q = p ++ r := by
  constructor
  · rintro ⟨⟨r, rfl⟩, hne⟩
    refine ⟨r, ?_, rfl⟩
    rintro rfl
    exact hne (append_nil p).symm
  · rintro ⟨r, hr, rfl⟩
    refine ⟨prefix_append p r, fun heq => hr ?_⟩
    exact append_right_eq_self.mp heq.symm

/-- The entry at the longest prefix of a path that has one. -/
def longest (m : PrefixMap β E) : List β → Option E
  | [] => m []
  | x :: xs => (longest (fun p => m (x :: p)) xs).or (m [])

theorem longest_eq_none : m.longest p = none ↔ ∀ q, q <+: p → m q = none := by
  induction p generalizing m with
  | nil =>
    constructor
    · intro h q hq
      rw [prefix_nil.mp hq]
      exact h
    · exact fun h => h [] prefix_rfl
  | cons x xs ih =>
    rw [longest, Option.or_eq_none_iff, ih]
    constructor
    · rintro ⟨h, hnil⟩ q hq
      cases q with
      | nil => exact hnil
      | cons y q =>
        obtain ⟨rfl, hrest⟩ := cons_prefix_cons.mp hq
        exact h q hrest
    · intro h
      exact ⟨fun q hq => h _ (cons_prefix_cons.mpr ⟨rfl, hq⟩), h [] nil_prefix⟩

theorem longest_eq_some {e : E} : m.longest p = some e ↔
    ∃ q, q <+: p ∧ m q = some e ∧ ∀ q', q' <+: p → Below q q' → m q' = none := by
  induction p generalizing m with
  | nil =>
    constructor
    · intro h
      refine ⟨[], prefix_rfl, h, fun q' hq' hlt => ?_⟩
      exact absurd (prefix_nil.mp hq').symm hlt.2
    · rintro ⟨q, hq, hm, -⟩
      rw [prefix_nil.mp hq] at hm
      exact hm
  | cons x xs ih =>
    rw [longest, Option.or_eq_some_iff, ih, longest_eq_none]
    constructor
    · rintro (⟨q, hq, hm, hmax⟩ | ⟨hnone, hm⟩)
      · refine ⟨x :: q, cons_prefix_cons.mpr ⟨rfl, hq⟩, hm, fun q' hq' hlt => ?_⟩
        cases q' with
        | nil => exact absurd (prefix_nil.mp hlt.1) (cons_ne_nil _ _)
        | cons y q' =>
          obtain ⟨rfl, hrest⟩ := cons_prefix_cons.mp hq'
          exact hmax q' hrest ⟨(cons_prefix_cons.mp hlt.1).2, fun heq => hlt.2 (heq ▸ rfl)⟩
      · refine ⟨[], nil_prefix, hm, fun q' hq' hlt => ?_⟩
        cases q' with
        | nil => exact absurd rfl hlt.2
        | cons y q' =>
          obtain ⟨rfl, hrest⟩ := cons_prefix_cons.mp hq'
          exact hnone q' hrest
    · rintro ⟨q, hq, hm, hmax⟩
      cases q with
      | nil =>
        refine .inr ⟨fun q' hq' => hmax _ (cons_prefix_cons.mpr ⟨rfl, hq'⟩) ?_, hm⟩
        exact ⟨ nil_prefix, (cons_ne_nil _ _).symm⟩
      | cons y q =>
        obtain ⟨rfl, hrest⟩ := cons_prefix_cons.mp hq
        refine .inl ⟨q, hrest, hm, fun q' hq' hlt => ?_⟩
        refine hmax _ (cons_prefix_cons.mpr ⟨rfl, hq'⟩) ⟨?_, ?_⟩
        · exact cons_prefix_cons.mpr ⟨rfl, hlt.1⟩
        · exact fun heq => hlt.2 (List.cons.inj heq).2

theorem longest_cons_congr {m' : PrefixMap β E} {x : β} {xs : List β}
    (h : ∀ p, m (x :: p) = m' (x :: p)) (hnil : m [] = m' []) :
    m.longest (x :: xs) = m'.longest (x :: xs) := by
  rw [longest, longest, hnil, show (fun p => m (x :: p)) = fun p => m' (x :: p) from funext h]

theorem longest_of_root {o : Option E} (hp : p ≠ []) (hnil : m [] = none) {m' : PrefixMap β E}
    (hroot : m' [] = o) (h : ∀ q, q ≠ [] → m' q = m q) : m'.longest p = (m.longest p).or o := by
  cases p with
  | nil => exact absurd rfl hp
  | cons x xs =>
    rw [longest, longest, hnil, hroot, Option.or_none,
      show (fun p => m' (x :: p)) = fun p => m (x :: p) from
        funext fun p => h _ (cons_ne_nil _ _)]

/-- The entries of the map with their paths, in the order of the paths. -/
structure Lists [LT β] (m : PrefixMap β E) (list : List (List β × E)) : Prop where
  ordered : list.Pairwise fun a b => a.1 < b.1
  complete : ∀ p e, (p, e) ∈ list ↔ m p = some e

section Changes

variable [DecidableEq β]

def put (m : PrefixMap β E) (p : List β) (e : E) : PrefixMap β E :=
  fun q => if q = p then some e else m q

def remove (m : PrefixMap β E) (p : List β) : PrefixMap β E :=
  fun q => if q = p then none else m q

instance (p q : List β) : Decidable (Below p q) :=
  inferInstanceAs (Decidable (p <+: q ∧ p ≠ q))

def removeBelow (m : PrefixMap β E) (p : List β) : PrefixMap β E :=
  fun q => if Below p q then none else m q

end Changes

end PrefixMap

end CodeOss
