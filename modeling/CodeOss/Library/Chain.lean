import Mathlib

/-! Doubly linked chains. A chain has two sides that are treated alike, so that a fact about one end
is a fact about the other one by reading the chain the other way round. -/

universe u

namespace LinkedChain

open List

inductive Side
  | head
  | tail
  deriving DecidableEq, Repr

namespace Side

def other : Side → Side
  | head => tail
  | tail => head

@[simp] theorem other_other (s : Side) : s.other.other = s := by cases s <;> rfl

@[simp] theorem other_ne (s : Side) : s.other ≠ s := by cases s <;> decide

@[simp] theorem ne_other (s : Side) : s ≠ s.other := (other_ne s).symm

end Side

/-- The two ends of a chain, and the neighbours of each link on either side. -/
structure Links (ι : Type u) where
  ends : Side → Option ι
  toward : ι → Side → Option ι

namespace Links

variable {ι : Type u} {L L' : Links ι} {s : Side} {ids l r : List ι} {x : ι}

def setEnd (L : Links ι) (s : Side) (o : Option ι) : Links ι :=
  { L with ends := fun t => if t = s then o else L.ends t }

def setToward [DecidableEq ι] (L : Links ι) (i : ι) (s : Side) (o : Option ι) : Links ι :=
  { L with toward := fun j t => if j = i ∧ t = s then o else L.toward j t }

@[simp] theorem ends_setEnd (t : Side) (o : Option ι) :
    (L.setEnd s o).ends t = if t = s then o else L.ends t := rfl

@[simp] theorem toward_setEnd (o : Option ι) : (L.setEnd s o).toward = L.toward := rfl

@[simp] theorem ends_setToward [DecidableEq ι] (o : Option ι) :
    (L.setToward x s o).ends = L.ends := rfl

@[simp] theorem toward_setToward [DecidableEq ι] (j : ι) (t : Side) (o : Option ι) :
    (L.setToward x s o).toward j t = if j = x ∧ t = s then o else L.toward j t := rfl

/-- The links hold the list, read from the side `s`. -/
structure Chain (L : Links ι) (s : Side) (ids : List ι) : Prop where
  first : L.ends s = ids.head?
  last : L.ends s.other = ids.getLast?
  nodup : ids.Nodup
  split : ∀ l i r, ids = l ++ i :: r → L.toward i s = l.getLast? ∧ L.toward i s.other = r.head?

namespace Chain

theorem nil (hfirst : L.ends s = none) (hlast : L.ends s.other = none) : Chain L s [] :=
  ⟨hfirst, hlast, List.nodup_nil, fun l i r h => absurd h.symm (by simp)⟩

theorem reverse (h : Chain L s ids) : Chain L s.other ids.reverse where
  first := by rw [h.last, head?_reverse]
  last := by rw [Side.other_other, h.first, getLast?_reverse]
  nodup := nodup_reverse.2 h.nodup
  split l i r he := by
    have hids : ids = r.reverse ++ i :: l.reverse := by
      rw [← reverse_reverse ids, he]
      simp
    have hsplit := h.split _ _ _ hids
    rw [Side.other_other]
    exact ⟨hsplit.2.trans head?_reverse, hsplit.1.trans getLast?_reverse⟩

theorem ends_eq_iff (h : Chain L s (l ++ x :: r)) : L.ends s = some x ↔ l = [] := by
  rw [h.first]
  cases l with
  | nil => simp
  | cons a l =>
    have hne : a ≠ x := by
      rintro rfl
      exact (nodup_cons.1 h.nodup).1 (mem_append_right _ mem_cons_self)
    simp [hne]

theorem other_ends_eq_iff (h : Chain L s (l ++ x :: r)) : L.ends s.other = some x ↔ r = [] := by
  have hreverse := h.reverse
  rw [reverse_append, reverse_cons, append_assoc, singleton_append] at hreverse
  rw [hreverse.ends_eq_iff, reverse_eq_nil_iff]

theorem push (h : Chain L s ids) (hx : x ∉ ids) (hend : L'.ends s = some x)
    (hlast : L'.ends s.other = (x :: ids).getLast?) (hout : L'.toward x s = none)
    (hin : L'.toward x s.other = ids.head?)
    (hfirst : ∀ e ∈ ids.head?, L'.toward e s = some x)
    (hrest : ∀ j ≠ x, ∀ t, ¬(some j = ids.head? ∧ t = s) → L'.toward j t = L.toward j t) :
    Chain L' s (x :: ids) where
  first := hend
  last := hlast
  nodup := nodup_cons.2 ⟨hx, h.nodup⟩
  split l i r he := by
    cases l with
    | nil =>
      obtain ⟨rfl, rfl⟩ := List.cons.inj he
      exact ⟨hout, hin⟩
    | cons a l =>
      obtain ⟨rfl, hids⟩ := List.cons.inj he
      have hne : i ≠ x := by
        rintro rfl
        exact hx (hids ▸ mem_append_right _ mem_cons_self)
      obtain ⟨hleft, hright⟩ := h.split l i r hids
      refine ⟨?_, ?_⟩
      · cases l with
        | nil => exact hfirst i (by rw [hids]; rfl)
        | cons b l =>
          have hhead : some i ≠ ids.head? := by
            have hnodup := h.nodup
            rw [hids] at hnodup ⊢
            intro hi
            obtain rfl := Option.some.inj hi
            exact (nodup_cons.1 hnodup).1 (mem_append_right _ mem_cons_self)
          rw [hrest i hne s fun hcase => hhead hcase.1, hleft, getLast?_cons_cons]
      · rw [hrest i hne s.other fun hcase => Side.other_ne s hcase.2, hright]

theorem unlink (h : Chain L s (l ++ x :: r)) (hfirst : L'.ends s = (l ++ r).head?)
    (hlast : L'.ends s.other = (l ++ r).getLast?)
    (hleft : ∀ a ∈ l.getLast?, L'.toward a s.other = r.head?)
    (hright : ∀ b ∈ r.head?, L'.toward b s = l.getLast?)
    (hrest : ∀ j ≠ x, ∀ t, ¬(some j = l.getLast? ∧ t = s.other) → ¬(some j = r.head? ∧ t = s) →
      L'.toward j t = L.toward j t) :
    Chain L' s (l ++ r) where
  first := hfirst
  last := hlast
  nodup := h.nodup.sublist ((sublist_cons_self x r).append_left l)
  split l' i r' he := by
    have hnodup := h.nodup
    have hmem : i ∈ l ++ r := he ▸ mem_append_right _ mem_cons_self
    have hne : i ≠ x := by
      rintro rfl
      rw [nodup_middle] at hnodup
      exact (nodup_cons.1 hnodup).1 hmem
    have hboth : (l' ++ i :: r').Nodup := he ▸
      h.nodup.sublist ((sublist_cons_self x r).append_left l)
    rcases append_eq_append_iff.1 he with ⟨m, hl', hr⟩ | ⟨m, hl, hr'⟩
    · -- the link stands behind the one that is taken out
      have hsplit := h.split (l ++ x :: m) i r' (by rw [hr]; simp)
      have hlast' : some i ≠ l.getLast? := by
        intro hi
        have hil : i ∈ l' := hl' ▸ mem_append_left _ (mem_of_getLast? hi.symm)
        exact (nodup_append.1 hboth).2.2 i hil i mem_cons_self rfl
      refine ⟨?_, ?_⟩
      · cases m with
        | nil =>
          rw [hl', append_nil]
          exact hright i (by rw [hr]; rfl)
        | cons b m =>
          have hhead : some i ≠ r.head? := by
            rw [hr]
            intro hi
            obtain rfl := Option.some.inj hi
            have hil : i ∈ l' := hl' ▸ mem_append_right _ mem_cons_self
            exact (nodup_append.1 hboth).2.2 i hil i mem_cons_self rfl
          rw [hrest i hne s (fun hcase => hlast' hcase.1) fun hcase => hhead hcase.1, hsplit.1,
            hl', getLast?_append, getLast?_append]
          simp
      · rw [hrest i hne s.other (fun hcase => hlast' hcase.1) fun hcase => Side.other_ne s hcase.2,
          hsplit.2]
    · -- or in front of it
      cases m with
      | nil =>
        rw [nil_append] at hr'
        rw [append_nil] at hl
        subst hl
        have hsplit := h.split (l ++ [x]) i r' (by rw [← hr']; simp)
        refine ⟨hright i (by rw [← hr']; rfl), ?_⟩
        have hlast' : some i ≠ l.getLast? := by
          intro hi
          exact (nodup_append.1 hboth).2.2 i (mem_of_getLast? hi.symm) i mem_cons_self rfl
        rw [hrest i hne s.other (fun hcase => hlast' hcase.1)
          fun hcase => Side.other_ne s hcase.2, hsplit.2]
      | cons b m =>
        obtain ⟨rfl, htail⟩ := List.cons.inj hr'
        replace htail : r' = m ++ r := htail
        have hsplit := h.split l' i (m ++ x :: r) (by rw [hl]; simp)
        have hhead : some i ≠ r.head? := by
          intro hi
          have hir : i ∈ r' := htail ▸ mem_append_right _ (mem_of_head? hi.symm)
          exact (nodup_cons.1 (nodup_append.1 hboth).2.1).1 hir
        refine ⟨?_, ?_⟩
        · rw [hrest i hne s (fun hcase => Side.ne_other s hcase.2) fun hcase => hhead hcase.1,
            hsplit.1]
        · cases m with
          | nil =>
            rw [htail, nil_append]
            exact hleft i (by rw [hl]; simp)
          | cons c m =>
            have hlast' : some i ≠ l.getLast? := by
              rw [hl, getLast?_append_cons, getLast?_cons_cons]
              intro hi
              have hir : i ∈ c :: m := mem_of_getLast? hi.symm
              exact (nodup_cons.1 (nodup_append.1 hboth).2.1).1 (htail ▸ mem_append_left _ hir)
            rw [hrest i hne s.other (fun hcase => hlast' hcase.1)
              fun hcase => hhead hcase.1, hsplit.2, htail]
            rfl

theorem congr (h : Chain L s ids) (hends : L'.ends = L.ends)
    (htoward : ∀ i ∈ ids, ∀ t, L'.toward i t = L.toward i t) : Chain L' s ids where
  first := hends ▸ h.first
  last := hends ▸ h.last
  nodup := h.nodup
  split l i r he := by
    have hmem : i ∈ ids := he ▸ List.mem_append_right _ List.mem_cons_self
    rw [htoward i hmem, htoward i hmem]
    exact h.split l i r he

variable (h : Chain L s (l ++ x :: r))
include h

theorem cut (hfirst : L'.ends s = some x)
    (hlast : L'.ends s.other = L.ends s.other) (hx : L'.toward x s = none)
    (hrest : ∀ j t, ¬(j = x ∧ t = s) → L'.toward j t = L.toward j t) : Chain L' s (x :: r) where
  first := hfirst
  last := by rw [hlast, h.last, getLast?_append_cons]
  nodup := (nodup_append.1 h.nodup).2.1
  split l' i r' he := by
    obtain ⟨hleft, hright⟩ := h.split (l ++ l') i r' (by rw [he, append_assoc])
    rw [hrest i s.other fun hcase => Side.other_ne s hcase.2]
    refine ⟨?_, hright⟩
    cases l' with
    | nil =>
      obtain ⟨rfl, -⟩ := List.cons.inj he
      exact hx
    | cons a l' =>
      obtain ⟨rfl, hr⟩ := List.cons.inj he
      have hne : i ≠ x := by
        rintro rfl
        refine (nodup_cons.1 (nodup_append.1 h.nodup).2.1).1 ?_
        exact (show r = l' ++ i :: r' from hr) ▸ mem_append_right _ mem_cons_self
      rw [hrest i s fun hcase => hne hcase.1, hleft, getLast?_append_cons]

theorem toward_other : L.toward x s.other = r.head? :=
  (h.split l x r rfl).2

theorem toward : L.toward x s = l.getLast? :=
  (h.split l x r rfl).1

end Chain

end Links

end LinkedChain
