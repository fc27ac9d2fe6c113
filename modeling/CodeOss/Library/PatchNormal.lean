import CodeOss.Library.Patch

/-! Lists of patches in normal form: none is empty, no two touch.
What such a list copies, deletes and inserts can be read off from its effect on the texts over
any two letters, so there is only one with that effect. -/

universe u

namespace Patch

open List

variable {α : Type u}

def Acts (p : Patch α) : Prop := p.start < p.stop ∨ p.text ≠ []

def Normal : List (Patch α) → Prop
  | [] => True
  | p :: ps => p.Acts ∧ (∀ q ∈ ps.head?, p.stop < q.start) ∧ Normal ps

variable {ps : List (Patch α)} {p : Patch α} {b e : Int}

theorem normal_append_singleton :
    Normal (ps ++ [p]) ↔ Normal ps ∧ (∀ q ∈ ps.getLast?, q.stop < p.start) ∧ p.Acts := by
  induction ps with
  | nil => simp [Normal]
  | cons q ps ih =>
    cases ps with
    | nil => simp [Normal, and_comm]
    | cons r ps =>
      simp only [cons_append, Normal, head?_cons, Option.mem_some_iff, forall_eq',
        getLast?_cons_cons] at ih ⊢
      rw [ih]
      tauto

/-- The next element is copied. -/
def Copies (b e : Int) (ps : List (Patch α)) : Prop := b < e ∧ Fits (b + 1) e ps

theorem applyFrom_copies (h : Copies b e ps) (x : α) (t : List α) :
    applyFrom b ps (x :: t) = x :: applyFrom (b + 1) ps t :=
  applyFrom_append (x := [x]) t (by simp) h.2

theorem Normal.copies_tail (hn : Normal (p :: ps)) (hf : Fits b e (p :: ps)) (h : p.stop < e) :
    Copies p.stop e ps :=
  ⟨h, hf.2.2.advance (by omega) fun q hq => hn.2.1 q hq⟩

theorem Normal.tail_eq_nil (hn : Normal (p :: ps)) (hf : Fits b e (p :: ps)) (h : e ≤ p.stop) :
    ps = [] := by
  cases ps with
  | nil => rfl
  | cons q ps =>
    have hlt := hn.2.1 q rfl
    have hle := hf.2.2.2.2.le
    have := hf.2.2.2.1
    omega

section TwoLetters

variable {A : Set α} {b e : Int} {p q : Patch α} {ps qs : List (Patch α)}

/-- The lists turn all texts over `A` that reach from `b` to `e` into the same texts. -/
def SameOn (A : Set α) (b e : Int) (ps qs : List (Patch α)) : Prop :=
  ∀ t : List α, (∀ x ∈ t, x ∈ A) → (t.length : Int) = e - b → applyFrom b ps t = applyFrom b qs t

theorem SameOn.symm (h : SameOn A b e ps qs) : SameOn A b e qs ps :=
  fun t ht hlen => (h t ht hlen).symm

theorem not_sameOn_copies (hA : A.Nontrivial) (hacts : p.Acts)
    (hstart : p.start = b) (hq : Copies b e qs) : ¬SameOn A b e (p :: ps) qs := by
  intro h
  obtain ⟨n, hn⟩ := Int.eq_ofNat_of_zero_le (show 0 ≤ e - b - 1 by have := hq.1; omega)
  obtain ⟨x, hx, y, hy, hxy⟩ := hA
  have hout : ∀ z ∈ A, p.text ++ applyFrom p.stop ps ((z :: List.replicate n x).drop
      (p.stop - b).toNat) = z :: applyFrom (b + 1) qs (List.replicate n x) := by
    intro z hz
    have hz' := h (z :: List.replicate n x) (by simp_all) (by simp; omega)
    rw [applyFrom_copies hq, applyFrom_cons, hstart, sub_self, Int.toNat_zero, take_zero,
      nil_append] at hz'
    exact hz'
  have hfirst := hout x hx
  have hsecond := hout y hy
  cases htext : p.text with
  | cons c text =>
    rw [htext, cons_append, List.cons.injEq] at hfirst hsecond
    exact hxy (hfirst.1.symm.trans hsecond.1)
  | nil =>
    -- The element is deleted.
    obtain ⟨k, hk⟩ : ∃ k, (p.stop - b).toNat = k + 1 := by
      have := hacts.resolve_right (not_not.2 htext)
      exact ⟨(p.stop - b).toNat - 1, by omega⟩
    rw [htext, hk, drop_succ_cons] at hfirst hsecond
    exact hxy (List.cons.inj (hfirst.symm.trans hsecond)).1

theorem sameOn_cons (hA : A.Nonempty) (hp : Fits b e (p :: ps)) (hpq : p.stop = q.stop)
    (htext : p.text = q.text) (hps : p.start = b) (hqs : q.start = b)
    (h : SameOn A b e (p :: ps) (q :: qs)) : SameOn A p.stop e ps qs := by
  intro t ht hlen
  obtain ⟨x, hx⟩ := hA
  have hle := hp.2.1
  have hback : (List.replicate (p.stop - b).toNat x ++ t).drop (p.stop - b).toNat = t :=
    drop_left' length_replicate
  have hwhole := h (List.replicate (p.stop - b).toNat x ++ t) (by
    intro y hy
    rcases List.mem_append.1 hy with hy | hy
    · rwa [eq_of_mem_replicate hy]
    · exact ht y hy) (by simp only [length_append, length_replicate]; omega)
  rw [applyFrom_cons, applyFrom_cons, ← hpq, hback, hps, hqs, sub_self, Int.toNat_zero,
    take_zero, htext] at hwhole
  exact append_cancel_left hwhole

theorem SameOn.output (h : SameOn A b e (p :: ps) (q :: qs)) (hps : p.start = b)
    (hqs : q.start = b) {t : List α} (ht : ∀ x ∈ t, x ∈ A) (hlen : (t.length : Int) = e - b) :
    p.text ++ applyFrom p.stop ps (t.drop (p.stop - b).toNat) =
      q.text ++ applyFrom q.stop qs (t.drop (q.stop - b).toNat) := by
  have hout := h t ht hlen
  rwa [applyFrom_cons, applyFrom_cons, hps, hqs, sub_self, Int.toNat_zero, take_zero,
    nil_append, nil_append] at hout

theorem length_text_le (hA : A.Nontrivial) (hp : Fits b e (p :: ps)) (hnp : Normal (p :: ps))
    (hps : p.start = b) (hqs : q.start = b) (h : SameOn A b e (p :: ps) (q :: qs)) :
    q.text.length ≤ p.text.length := by
  by_contra hlt
  push Not at hlt
  have hstop := hp.2.2.le
  have hfirst := hp.2.1
  obtain ⟨x, hx, hne⟩ := hA.exists_ne (q.text[p.text.length])
  obtain ⟨n, hn⟩ := Int.eq_ofNat_of_zero_le (show 0 ≤ e - b by omega)
  have hout := h.output hps hqs (t := List.replicate n x) (by simp_all) (by simp; omega)
  rcases lt_or_eq_of_le hstop with hmore | hend
  · -- The first letter behind the text is a copied one.
    obtain ⟨m, hm⟩ : ∃ m, n - (p.stop - b).toNat = m + 1 := ⟨n - (p.stop - b).toNat - 1, by omega⟩
    rw [drop_replicate, hm, replicate_succ, applyFrom_copies (hnp.copies_tail hp hmore)] at hout
    have hletter := congrArg (·[p.text.length]?) hout
    simp only [getElem?_append_right le_rfl, Nat.sub_self, getElem?_cons_zero,
      getElem?_append_left hlt, getElem?_eq_getElem hlt, Option.some.injEq] at hletter
    exact hne hletter
  · have hnil := hnp.tail_eq_nil hp (le_of_eq hend.symm)
    rw [hnil, applyFrom_nil, drop_of_length_le (by simp; omega)] at hout
    have hlength := congrArg List.length hout
    simp only [length_append, length_nil] at hlength
    omega

theorem stop_le (hA : A.Nontrivial) (hp : Fits b e (p :: ps)) (hnp : Normal (p :: ps))
    (hq : Fits b e (q :: qs)) (hps : p.start = b) (hqs : q.start = b) (htext : p.text = q.text)
    (h : SameOn A b e (p :: ps) (q :: qs)) : q.stop ≤ p.stop := by
  by_contra hlt
  push Not at hlt
  have hstop := hq.2.2.le
  have hfirst := hp.2.1
  obtain ⟨x, hx, y, hy, hxy⟩ := hA
  obtain ⟨k, hk⟩ := Int.eq_ofNat_of_zero_le (show 0 ≤ p.stop - b by omega)
  obtain ⟨n, hn⟩ := Int.eq_ofNat_of_zero_le (show 0 ≤ e - p.stop - 1 by omega)
  obtain ⟨m, hm⟩ := Int.eq_ofNat_of_zero_le (show 0 ≤ q.stop - p.stop - 1 by omega)
  have hpk : (p.stop - b).toNat = k := by omega
  have hqk : (q.stop - b).toNat = k + (m + 1) := by omega
  -- What `q` deletes is copied behind `p`.
  have hout : ∀ z ∈ A, z :: applyFrom (p.stop + 1) ps (List.replicate n x) =
      applyFrom q.stop qs ((List.replicate n x).drop m) := by
    intro z hz
    have hz' := h.output hps hqs (t := List.replicate k x ++ z :: List.replicate n x) (by
      intro u hu
      simp only [List.mem_append, mem_cons, mem_replicate] at hu
      rcases hu with ⟨-, rfl⟩ | rfl | ⟨-, rfl⟩ <;> assumption) (by simp; omega)
    rw [htext, hpk, hqk, drop_left' length_replicate, ← List.drop_drop,
      drop_left' length_replicate, drop_succ_cons,
      applyFrom_copies (hnp.copies_tail hp (by omega))] at hz'
    exact append_cancel_left hz'
  exact hxy (List.cons.inj ((hout x hx).trans (hout y hy).symm)).1

theorem start_cases (hp : Fits b e ps) :
    (∃ p ps', ps = p :: ps' ∧ p.start = b) ∨ Copies b e ps ∨ b = e ∧ ps = [] := by
  cases ps with
  | nil =>
    rcases lt_or_eq_of_le hp with hlt | heq
    · exact .inr (.inl ⟨hlt, by simpa using hlt⟩)
    · exact .inr (.inr ⟨heq, rfl⟩)
  | cons p ps =>
    rcases lt_or_eq_of_le hp.1 with hlt | heq
    · have := hp.2.1
      have := hp.2.2.le
      exact .inr (.inl ⟨by omega, hlt, hp.2⟩)
    · exact .inl ⟨p, ps, rfl, heq.symm⟩

theorem not_sameOn_nil (hp : Fits b b (p :: ps)) (hacts : p.Acts) : ¬SameOn A b b (p :: ps) [] := by
  intro h
  have hout := h [] nofun (by simp)
  have := hp.1
  have := hp.2.1
  have := hp.2.2.le
  have htext := hacts.resolve_left (by omega)
  simp [applyFrom_cons, htext] at hout

theorem eq_of_sameOn (hA : A.Nontrivial) (hp : Fits b e ps) (hnp : Normal ps) (hq : Fits b e qs)
    (hnq : Normal qs) (h : SameOn A b e ps qs) : ps = qs := by
  induction hsize : (e - b).toNat + ps.length using Nat.strongRecOn generalizing b ps qs with
  | ind size ih =>
    subst hsize
    rcases start_cases hp with ⟨p, ps, rfl, hps⟩ | hcopy | ⟨rfl, rfl⟩ <;>
      rcases start_cases hq with ⟨q, qs, rfl, hqs⟩ | hcopy' | ⟨hbe, rfl⟩
    · have hlen := Nat.le_antisymm (length_text_le hA hq hnq hqs hps h.symm)
        (length_text_le hA hp hnp hps hqs h)
      obtain ⟨n, hn⟩ := Int.eq_ofNat_of_zero_le (show 0 ≤ e - b by have := hp.le; omega)
      obtain ⟨x, hx⟩ := hA.nonempty
      have htext := (append_inj (h.output hps hqs (t := List.replicate n x) (by simp_all)
        (by simp; omega)) hlen).1
      have hstop := le_antisymm (stop_le hA hq hnq hp hqs hps htext.symm h.symm)
        (stop_le hA hp hnp hq hps hqs htext h)
      have hrest := ih ((e - p.stop).toNat + ps.length) (by
        have := hp.2.1
        simp only [length_cons]
        omega) hp.2.2 hnp.2.2 (hstop ▸ hq.2.2) hnq.2.2
        (sameOn_cons hA.nonempty hp hstop htext hps hqs h) rfl
      rw [hrest, show p = q by
        cases p
        cases q
        simp_all]
    · exact absurd h (not_sameOn_copies hA hnp.1 hps hcopy')
    · subst hbe
      exact absurd h (not_sameOn_nil hp hnp.1)
    · exact absurd h.symm (not_sameOn_copies hA hnq.1 hqs hcopy)
    · refine ih ((e - (b + 1)).toNat + ps.length) (by have := hcopy.1; omega) hcopy.2 hnp hcopy'.2 hnq
        (fun t ht hlen => ?_) rfl
      obtain ⟨x, hx⟩ := hA.nonempty
      have hout := h (x :: t) (by simp_all) (by simp; omega)
      rw [applyFrom_copies hcopy, applyFrom_copies hcopy'] at hout
      exact (List.cons.inj hout).2
    · have := hcopy.1
      omega
    · exact absurd h.symm (not_sameOn_nil hq hnq.1)
    · have := hcopy'.1
      omega
    · rfl

end TwoLetters

end Patch
