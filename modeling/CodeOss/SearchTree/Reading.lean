import CodeOss.Library.KeyedCells
import CodeOss.SearchTree.Levels

/-! Reading a ternary search tree as a map from segment lists. Segments are compared by
their rank in a linear order, which the comparison of the iterator has to agree with. -/

namespace CodeOss

open KeyedCells
open List hiding lookup

variable {K V σ β : Type}

namespace IKeyIterator

variable (it : IKeyIterator K σ) (rank : JsString → β)

def path (c : σ) : List β := (it.trail c).map fun d => rank (it.value d)

variable {it rank} {c : σ}

theorem path_of_hasNext (h : it.hasNext c = true) :
    it.path rank c = rank (it.value c) :: it.path rank (it.next c) := by
  rw [path, it.trail_of_hasNext h]
  rfl

theorem path_of_last (h : ¬ it.hasNext c = true) : it.path rank c = [rank (it.value c)] := by
  rw [path, it.trail_of_last (by simpa using h)]
  rfl

theorem exists_path_eq (it : IKeyIterator K σ) (rank : JsString → β) (c : σ) :
    ∃ xs, it.path rank c = rank (it.value c) :: xs := by
  by_cases h : it.hasNext c = true
  · exact ⟨_, path_of_hasNext h⟩
  · exact ⟨_, path_of_last h⟩

theorem path_ne_nil : it.path rank c ≠ [] := by
  obtain ⟨xs, h⟩ := it.exists_path_eq rank c
  rw [h]
  exact cons_ne_nil _ _

theorem cursorInduction {motive : σ → Prop}
    (step : ∀ c, (it.hasNext c = true → motive (it.next c)) → motive c) (c : σ) : motive c := by
  induction hn : it.ahead c using Nat.strong_induction_on generalizing c with
  | _ n ih =>
    subst hn
    exact step c fun h => ih _ (it.ahead_next c h) (it.next c) rfl

end IKeyIterator

variable [LinearOrder β]

namespace IKeyIterator

variable (it : IKeyIterator K σ) (rank : JsString → β) (known : JsString → Prop)

/-- `cmp` of the cursor orders the known segments as their ranks are ordered. -/
def Apt (c : σ) : Prop :=
  known (it.value c) ∧
    ∀ s, known s →
      (it.cmp c s > 0 ↔ rank (it.value c) < rank s) ∧
        (it.cmp c s < 0 ↔ rank s < rank (it.value c))

def AptTrail (c : σ) : Prop := ∀ d ∈ it.trail c, it.Apt rank known d

variable {it rank known} {c : σ}

theorem AptTrail.apt (h : it.AptTrail rank known c) : it.Apt rank known c :=
  h c (it.self_mem_trail c)

theorem AptTrail.next (h : it.AptTrail rank known c) (hn : it.hasNext c = true) :
    it.AptTrail rank known (it.next c) := fun d hd =>
  h d (by rw [it.trail_of_hasNext hn]; exact mem_cons_of_mem _ hd)

end IKeyIterator

namespace SearchCell

def rankOf (rank : JsString → β) (cell : SearchCell K V) : β := rank cell.segment

/-- The entry of a cell, if it has one with a value that is not undefined. -/
def entry (cell : SearchCell K V) : Option (K × V) :=
  match cell.key, cell.value with
  | some key, some (some value) => some (key, value)
  | _, _ => none

/-- A cell whose segment is known, whose key is that of a value, and whose middle child holds
an entry if there is one. -/
structure Sane [JsTruthy K] (known : JsString → Prop) (cell : SearchCell K V) : Prop where
  known : known cell.segment
  keyed : cell.key.isSome = cell.value.isSome
  truthy : ∀ key ∈ cell.key, JsTruthy.truthy key = true
  defined : ∀ element ∈ cell.value, element ≠ none
  inhabited : cell.mid ≠ .undefined → cell.mid.entries ≠ []

end SearchCell

namespace TernarySearchTreeNode

variable (rank : JsString → β) (known : JsString → Prop)

/-- At every level the tree is balanced and in order, and every cell is sane. -/
inductive Sound [JsTruthy K] : TernarySearchTreeNode K V → Prop
  | intro {t : TernarySearchTreeNode K V} (balanced : t.level.Balanced)
      (ascending : Ascending (SearchCell.rankOf rank) t.cells)
      (sane : ∀ cell ∈ t.cells, cell.Sane known) (deeper : ∀ cell ∈ t.cells, Sound cell.mid) :
      Sound t

def findCell : List β → TernarySearchTreeNode K V → Option (SearchCell K V)
  | [], _ => none
  | x :: xs, t =>
    (lookup (SearchCell.rankOf rank) x t.cells).bind fun cell =>
      if xs = [] then some cell else findCell xs cell.mid

def look (p : List β) (t : TernarySearchTreeNode K V) : Option (K × V) :=
  (t.findCell rank p).bind SearchCell.entry

def listing : TernarySearchTreeNode K V → List (List β × K × V)
  | undefined => []
  | node _ s v k l m r =>
    l.listing ++
      ((⟨s, v, k, m⟩ : SearchCell K V).entry.toList.map fun e => ([rank s], e)) ++
      (m.listing.map fun pe => (rank s :: pe.1, pe.2)) ++ r.listing

def cell : TernarySearchTreeNode K V → Option (SearchCell K V)
  | undefined => none
  | node _ s v k _ m _ => some ⟨s, v, k, m⟩

variable {rank known}

section Sound

variable [JsTruthy K] {h : Nat} {s : JsString} {v : Undef.Stored V} {k : Option K}
  {l m r t : TernarySearchTreeNode K V}

section

variable (ht : t.Sound rank known)
include ht

theorem Sound.balanced : t.level.Balanced := by
  cases ht with
  | intro balanced _ _ _ => exact balanced

theorem Sound.ascending : Ascending (SearchCell.rankOf rank) t.cells := by
  cases ht with
  | intro _ ascending _ _ => exact ascending

theorem Sound.sane : ∀ cell ∈ t.cells, cell.Sane known := by
  cases ht with
  | intro _ _ sane _ => exact sane

theorem Sound.deeper : ∀ cell ∈ t.cells, cell.mid.Sound rank known := by
  cases ht with
  | intro _ _ _ deeper => exact deeper

end

theorem sound_undefined : (undefined : TernarySearchTreeNode K V).Sound rank known :=
  .intro trivial List.Pairwise.nil (fun _ h => by cases h) (fun _ h => by cases h)

variable (ht : (node h s v k l m r).Sound rank known)
include ht

theorem Sound.left : l.Sound rank known :=
  .intro ht.balanced.2.2.2.1 (ascending_split.mp ht.ascending).1
    (fun _ hc => ht.sane _ (mem_append_left _ hc))
    (fun _ hc => ht.deeper _ (mem_append_left _ hc))

theorem Sound.right : r.Sound rank known :=
  .intro ht.balanced.2.2.2.2 (ascending_split.mp ht.ascending).2.1
    (fun _ hc => ht.sane _ (mem_append_right _ (mem_cons_of_mem _ hc)))
    (fun _ hc => ht.deeper _ (mem_append_right _ (mem_cons_of_mem _ hc)))

theorem Sound.mid : m.Sound rank known :=
  ht.deeper ⟨s, v, k, m⟩ (mem_append_right _ mem_cons_self)

theorem Sound.here : (⟨s, v, k, m⟩ : SearchCell K V).Sane known :=
  ht.sane _ (mem_append_right _ mem_cons_self)

end Sound

theorem findCell_node (h : Nat) (s : JsString) (v : Undef.Stored V) (k : Option K)
    (l m r : TernarySearchTreeNode K V) (x : β) (xs : List β)
    (ha : Ascending (SearchCell.rankOf rank) (node h s v k l m r).cells) :
    (node h s v k l m r).findCell rank (x :: xs) =
      if x < rank s then l.findCell rank (x :: xs)
      else if rank s < x then r.findCell rank (x :: xs)
      else if xs = [] then some ⟨s, v, k, m⟩ else m.findCell rank xs := by
  rw [cells_node] at ha
  rw [findCell, cells_node, lookup_split ha]
  have hrank : SearchCell.rankOf rank (⟨s, v, k, m⟩ : SearchCell K V) = rank s := rfl
  by_cases h₁ : x < rank s
  · rw [if_pos (hrank ▸ h₁), if_pos h₁]
    rfl
  · rw [if_neg (hrank ▸ h₁), if_neg h₁]
    by_cases h₂ : rank s < x
    · rw [if_pos (hrank ▸ h₂), if_pos h₂]
      rfl
    · rw [if_neg (hrank ▸ h₂), if_neg h₂]
      rfl

variable {t : TernarySearchTreeNode K V}

theorem cell_getNodeAt [JsTruthy K] {it : IKeyIterator K σ} {c : σ}
    (hapt : it.AptTrail rank known c) (ht : t.Sound rank known) :
    (TernarySearchTree.getNodeAt it c t).cell = t.findCell rank (it.path rank c) := by
  induction t generalizing c with
  | undefined =>
    cases hp : it.path rank c <;> simp [TernarySearchTree.getNodeAt, findCell, cell, lookup]
  | node h s v k l m r ihl ihm ihr =>
    obtain ⟨hpos, hneg⟩ := hapt.apt.2 s ht.here.known
    obtain ⟨xs, hp⟩ := it.exists_path_eq rank c
    have hfind := findCell_node h s v k l m r (rank (it.value c)) xs ht.ascending
    rw [← hp] at hfind
    rw [hfind, TernarySearchTree.getNodeAt]
    simp only [gt_iff_lt] at hpos ⊢
    by_cases h₁ : 0 < it.cmp c s
    · rw [if_pos h₁, if_pos (hpos.mp h₁)]
      exact ihl hapt ht.left
    · rw [if_neg h₁, if_neg (fun hc => h₁ (hpos.mpr hc))]
      by_cases h₂ : it.cmp c s < 0
      · rw [if_pos h₂, if_pos (hneg.mp h₂)]
        exact ihr hapt ht.right
      · rw [if_neg h₂, if_neg (fun hc => h₂ (hneg.mpr hc))]
        by_cases hn : it.hasNext c = true
        · rw [IKeyIterator.path_of_hasNext hn] at hp
          rw [if_pos hn, ← (List.cons.inj hp).2, if_neg it.path_ne_nil]
          exact ihm (hapt.next hn) ht.mid
        · rw [IKeyIterator.path_of_last hn] at hp
          rw [if_neg hn, ← (List.cons.inj hp).2, if_pos rfl]
          rfl

theorem Sound.getNodeAt [JsTruthy K] (it : IKeyIterator K σ) (c : σ) (ht : t.Sound rank known) :
    (TernarySearchTree.getNodeAt it c t).Sound rank known := by
  induction t generalizing c with
  | undefined => exact ht
  | node h s v k l m r ihl ihm ihr =>
    simp only [TernarySearchTree.getNodeAt]
    split_ifs
    · exact ihl c ht.left
    · exact ihr c ht.right
    · exact ihm (it.next c) ht.mid
    · exact ht

theorem look_nil (t : TernarySearchTreeNode K V) : t.look rank [] = none := rfl

theorem look_node (h : Nat) (s : JsString) (v : Undef.Stored V) (k : Option K)
    (l m r : TernarySearchTreeNode K V) (x : β) (xs : List β)
    (ha : Ascending (SearchCell.rankOf rank) (node h s v k l m r).cells) :
    (node h s v k l m r).look rank (x :: xs) =
      if x < rank s then l.look rank (x :: xs)
      else if rank s < x then r.look rank (x :: xs)
      else if xs = [] then (⟨s, v, k, m⟩ : SearchCell K V).entry else m.look rank xs := by
  simp only [look, findCell_node h s v k l m r x xs ha]
  split_ifs <;> rfl

theorem mem_of_look {p : List β} {e : K × V} (ha : Ascending (SearchCell.rankOf rank) t.cells)
    (h : t.look rank p = some e) : ∃ cell ∈ t.cells, ∃ xs, p = rank cell.segment :: xs := by
  cases p with
  | nil => cases h
  | cons x xs =>
    obtain ⟨c, hc, -⟩ := Option.bind_eq_some_iff.mp h
    obtain ⟨cell, hcell, -⟩ := Option.bind_eq_some_iff.mp hc
    obtain ⟨hmem, hrank⟩ := (lookup_eq_some ha).mp hcell
    exact ⟨cell, hmem, xs, by rw [← hrank]; rfl⟩

variable [JsTruthy K]

variable (ht : t.Sound rank known)
include ht

theorem mem_listing {p : List β} {e : K × V} :
    (p, e) ∈ t.listing rank ↔ t.look rank p = some e := by
  induction t generalizing p e with
  | undefined => cases p <;> simp [listing, look, findCell, lookup]
  | node h s v k l m r ihl ihm ihr =>
    obtain ⟨-, -, hlow, hhigh⟩ := ascending_split.mp ht.ascending
    have hl : ∀ {x xs e}, l.look rank (x :: xs) = some e → x < rank s := by
      intro x xs e hlook
      obtain ⟨cell, hcell, ys, hp⟩ := mem_of_look ht.left.ascending hlook
      rw [(List.cons.inj hp).1]
      exact hlow cell hcell
    have hr : ∀ {x xs e}, r.look rank (x :: xs) = some e → rank s < x := by
      intro x xs e hlook
      obtain ⟨cell, hcell, ys, hp⟩ := mem_of_look ht.right.ascending hlook
      rw [(List.cons.inj hp).1]
      exact hhigh cell hcell
    have hmem : (p, e) ∈ (node h s v k l m r).listing rank ↔
        l.look rank p = some e ∨ (p = [rank s] ∧ (⟨s, v, k, m⟩ : SearchCell K V).entry = some e) ∨
        (∃ q, p = rank s :: q ∧ m.look rank q = some e) ∨ r.look rank p = some e := by
      simp only [listing, List.mem_append, ihl ht.left, ihr ht.right, mem_map,
        Option.mem_toList, or_assoc]
      constructor
      · rintro (h₁ | ⟨e', he', heq⟩ | ⟨⟨q, e'⟩, hq, heq⟩ | h₄)
        · exact .inl h₁
        · obtain ⟨rfl, rfl⟩ := Prod.mk.inj heq
          exact .inr (.inl ⟨rfl, he'⟩)
        · obtain ⟨rfl, rfl⟩ := Prod.mk.inj heq
          exact .inr (.inr (.inl ⟨q, rfl, (ihm ht.mid).mp hq⟩))
        · exact .inr (.inr (.inr h₄))
      · rintro (h₁ | ⟨rfl, he⟩ | ⟨q, rfl, hq⟩ | h₄)
        · exact .inl h₁
        · exact .inr (.inl ⟨e, he, rfl⟩)
        · exact .inr (.inr (.inl ⟨(q, e), (ihm ht.mid).mpr hq, rfl⟩))
        · exact .inr (.inr (.inr h₄))
    rw [hmem]
    cases p with
    | nil => simp [look_nil]
    | cons x xs =>
      rw [look_node h s v k l m r x xs ht.ascending]
      simp only [List.cons.injEq]
      constructor
      · rintro (h₁ | ⟨⟨rfl, rfl⟩, he⟩ | ⟨q, ⟨rfl, rfl⟩, hq⟩ | h₄)
        · rw [if_pos (hl h₁), h₁]
        · simpa using he
        · have hne : xs ≠ [] := by
            rintro rfl
            cases hq
          simpa [hne] using hq
        · rw [if_neg (hr h₄).le.not_gt, if_pos (hr h₄), h₄]
      · intro hlook
        split_ifs at hlook with h₁ h₂ h₃
        · exact .inl hlook
        · exact .inr (.inr (.inr hlook))
        · exact .inr (.inl ⟨⟨le_antisymm (not_lt.mp h₂) (not_lt.mp h₁), h₃⟩, hlook⟩)
        · exact .inr (.inr (.inl ⟨xs, ⟨le_antisymm (not_lt.mp h₂) (not_lt.mp h₁), rfl⟩, hlook⟩))

theorem pairwise_listing : (t.listing rank).Pairwise fun a b => a.1 < b.1 := by
  induction t with
  | undefined => exact List.Pairwise.nil
  | node h s v k l m r ihl ihm ihr =>
    obtain ⟨-, -, hlow, hhigh⟩ := ascending_split.mp ht.ascending
    have hl : ∀ a ∈ l.listing rank, ∀ xs, a.1 < rank s :: xs := by
      rintro ⟨p, e⟩ ha xs
      obtain ⟨cell, hcell, ys, rfl⟩ :=
        mem_of_look ht.left.ascending ((mem_listing ht.left).mp ha)
      exact cons_lt_cons_iff.mpr (.inl (hlow cell hcell))
    have hr : ∀ a ∈ r.listing rank, ∀ xs, rank s :: xs < a.1 := by
      rintro ⟨p, e⟩ ha xs
      obtain ⟨cell, hcell, ys, rfl⟩ :=
        mem_of_look ht.right.ascending ((mem_listing ht.right).mp ha)
      exact cons_lt_cons_iff.mpr (.inl (hhigh cell hcell))
    have hm : ∀ a ∈ (m.listing rank).map (fun pe => (rank s :: pe.1, pe.2)),
        ∃ q, q ≠ [] ∧ a.1 = rank s :: q := by
      intro a ha
      obtain ⟨⟨q, e⟩, hq, rfl⟩ := mem_map.mp ha
      refine ⟨q, ?_, rfl⟩
      rintro rfl
      have := (mem_listing ht.mid).mp hq
      cases this
    have hself : ∀ a ∈ (⟨s, v, k, m⟩ : SearchCell K V).entry.toList.map
        (fun e => ([rank s], e)), a.1 = [rank s] := by
      intro a ha
      obtain ⟨e, -, rfl⟩ := mem_map.mp ha
      rfl
    simp only [listing]
    refine pairwise_append.mpr ⟨pairwise_append.mpr
      ⟨pairwise_append.mpr ⟨ihl ht.left, ?_, ?_⟩, ?_, ?_⟩, ihr ht.right, ?_⟩
    · cases (⟨s, v, k, m⟩ : SearchCell K V).entry <;> simp
    · intro a ha b hb
      rw [hself b hb]
      exact hl a ha []
    · refine pairwise_map.mpr ((ihm ht.mid).imp fun hlt => ?_)
      exact cons_lt_cons_iff.mpr (.inr ⟨rfl, hlt⟩)
    · intro a ha b hb
      obtain ⟨q, hq, hbq⟩ := hm b hb
      rw [hbq]
      rcases List.mem_append.mp ha with ha | ha
      · exact hl a ha q
      · rw [hself a ha]
        refine cons_lt_cons_iff.mpr (.inr ⟨rfl, ?_⟩)
        obtain ⟨y, ys, rfl⟩ := exists_cons_of_ne_nil hq
        exact nil_lt_cons y ys
    · intro a ha b hb
      rcases List.mem_append.mp ha with ha | ha
      · rcases List.mem_append.mp ha with ha | ha
        · exact (hl a ha []).trans (hr b hb [])
        · rw [hself a ha]
          exact hr b hb []
      · obtain ⟨q, -, haq⟩ := hm a ha
        rw [haq]
        exact hr b hb q

theorem entries_eq : t.entries = (t.listing rank).map fun pe => (some pe.2.1, some pe.2.2) := by
  induction t with
  | undefined => rfl
  | node h s v k l m r ihl ihm ihr =>
    have hself : (if v.isNone then [] else [(k, Undef.unwrap v)]) =
        ((⟨s, v, k, m⟩ : SearchCell K V).entry.toList.map fun e => ([rank s], e)).map
          fun pe => (some pe.2.1, some pe.2.2) := by
      have hkeyed := ht.here.keyed
      have hdefined := ht.here.defined
      match v, k with
      | none, _ => simp [SearchCell.entry]
      | some none, _ => exact absurd rfl (hdefined none rfl)
      | some (some value), none => simp at hkeyed
      | some (some value), some key => simp [SearchCell.entry, Undef.unwrap]
    simp only [entries, listing, map_append, List.map_map, ihl ht.left, ihm ht.mid, ihr ht.right]
    rw [hself, List.map_map]
    rfl

theorem entries_ne_nil : t.entries ≠ [] ↔ ∃ p e, t.look rank p = some e := by
  rw [entries_eq ht, ne_eq, map_eq_nil_iff]
  constructor
  · intro hne
    obtain ⟨⟨p, e⟩, hmem⟩ := exists_mem_of_ne_nil _ hne
    exact ⟨p, e, (mem_listing ht).mp hmem⟩
  · rintro ⟨p, e, hlook⟩ hnil
    have := (mem_listing ht).mpr hlook
    rw [hnil] at this
    cases this

end TernarySearchTreeNode

end CodeOss
