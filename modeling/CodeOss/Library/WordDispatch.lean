import Mathlib

/-! Dispatch of words to rules letter by letter: the last rule whose word begins with the
letters so far decides, and more letters are awaited while its word is longer. A rule is
reached exactly if no later rule begins with its word and no such rule stops before it. -/

namespace CodeOss.WordDispatch

open List

variable {α ρ : Type} [BEq α] [LawfulBEq α] (word : ρ → List α) (rank : ρ → Nat) (rules : List ρ)

/-- The last rule whose word begins with the letters. -/
def lastMatch (letters : List α) : Option ρ :=
  rules.reverse.find? fun r => letters.isPrefixOf (word r)

def Waits (letters : List α) : Prop :=
  ∃ r, lastMatch word rules letters = some r ∧ letters.length < (word r).length

/-- After letters that each left more to await, the rule is reached. -/
def Reaches (letters : List α) (r : ρ) : Prop :=
  letters ≠ [] ∧ (∀ front, front <+: letters → front ≠ [] → front ≠ letters →
    Waits word rules front) ∧ lastMatch word rules letters = some r ∧
    (word r).length ≤ letters.length

/-- No later rule begins with the word of the rule. -/
def Final (r : ρ) : Prop := r ∈ rules ∧ ∀ d ∈ rules, rank r < rank d → ¬ word r <+: word d

def Stopped (letters : List α) : Prop :=
  ∃ s, Final word rank rules s ∧ word s <+: letters ∧ word s ≠ letters

variable {word rank rules} (horder : rules.Pairwise fun a b => rank a < rank b)
include horder

theorem eq_of_rank_eq {a b : ρ} (ha : a ∈ rules) (hb : b ∈ rules) (h : rank a = rank b) :
    a = b := by
  have hnodup : (rules.map rank).Nodup := pairwise_map.mpr (horder.imp fun hlt => hlt.ne)
  exact inj_on_of_nodup_map hnodup ha hb h

variable {r : ρ} {letters : List α}

theorem find?_reverse_eq_some {p : ρ → Bool} : rules.reverse.find? p = some r ↔ r ∈ rules ∧ p r =
    true ∧ ∀ d ∈ rules, rank r < rank d → p d = false := by
  rw [find?_eq_some_iff_append]
  constructor
  · rintro ⟨hp, later, earlier, hsplit, hnone⟩
    have hmem : ∀ x, x ∈ rules ↔ x ∈ later ∨ x = r ∨ x ∈ earlier := fun x => by
      rw [← mem_reverse, hsplit, List.mem_append, mem_cons]
    refine ⟨(hmem r).mpr (.inr (.inl rfl)), hp, fun d hd hlt => ?_⟩
    have hdesc : (later ++ r :: earlier).Pairwise fun a b => rank b < rank a := by
      rw [← hsplit]
      exact pairwise_reverse.mpr horder
    rcases (hmem d).mp hd with hd | rfl | hd
    · simpa using hnone d hd
    · exact absurd hlt (lt_irrefl _)
    · have := (pairwise_cons.mp (pairwise_append.mp hdesc).2.1).1 d hd
      omega
  · rintro ⟨hr, hp, hlast⟩
    obtain ⟨earlier, later, rfl⟩ := append_of_mem hr
    refine ⟨hp, later.reverse, earlier.reverse, by simp, fun d hd => ?_⟩
    have hd' := mem_reverse.mp hd
    have hlt := (pairwise_cons.mp (pairwise_append.mp horder).2.1).1 d hd'
    rw [hlast d (mem_append_right _ (mem_cons_of_mem _ hd')) hlt]
    rfl

theorem lastMatch_eq_some : lastMatch word rules letters = some r ↔ r ∈ rules ∧ letters <+: word r ∧
    ∀ d ∈ rules, rank r < rank d → ¬ letters <+: word d := by
  rw [lastMatch, find?_reverse_eq_some horder, isPrefixOf_iff_prefix]
  simp only [← Bool.not_eq_true, isPrefixOf_iff_prefix]

omit horder in
theorem exists_lastMatch (hr : r ∈ rules) (h : letters <+: word r) :
    ∃ t, lastMatch word rules letters = some t := by
  rw [← Option.isSome_iff_exists, lastMatch, find?_isSome]
  exact ⟨r, mem_reverse.mpr hr, isPrefixOf_iff_prefix.mpr h⟩

theorem not_waits_of_final {s : ρ} (hs : Final word rank rules s) :
    ¬ Waits word rules (word s) := by
  rintro ⟨t, ht, hlt⟩
  obtain ⟨htmem, hbegins, hlast⟩ := (lastMatch_eq_some horder).mp ht
  rcases lt_trichotomy (rank s) (rank t) with hrank | hrank | hrank
  · exact hs.2 t htmem hrank hbegins
  · rw [eq_of_rank_eq horder hs.1 htmem hrank] at hlt
    exact lt_irrefl _ hlt
  · exact hlast s hs.1 hrank prefix_rfl

theorem waits_of_not_final (hr : r ∈ rules) (hbegins : letters <+: word r)
    (h : ∀ s, Final word rank rules s → word s ≠ letters) : Waits word rules letters := by
  obtain ⟨t, ht⟩ := exists_lastMatch hr hbegins
  obtain ⟨htmem, htbegins, hlast⟩ := (lastMatch_eq_some horder).mp ht
  refine ⟨t, ht, htbegins.length_le.lt_of_ne fun hlen => ?_⟩
  have hword : letters = word t := htbegins.eq_of_length hlen
  refine h t ⟨htmem, fun d hd hrank hd' => hlast d hd hrank ?_⟩ hword.symm
  rwa [hword]

theorem reaches_iff (hwords : ∀ r ∈ rules, word r ≠ []) : Reaches word rules letters r ↔
    Final word rank rules r ∧ word r = letters ∧ ¬ Stopped word rank rules letters := by
  constructor
  · rintro ⟨-, hwaits, hlast, hlen⟩
    obtain ⟨hr, hbegins, hlater⟩ := (lastMatch_eq_some horder).mp hlast
    have hword : letters = word r := hbegins.eq_of_length_le hlen
    refine ⟨⟨hr, fun d hd hrank => hword ▸ hlater d hd hrank⟩, hword.symm, ?_⟩
    rintro ⟨s, hs, hfront, hne⟩
    exact not_waits_of_final horder hs (hwaits _ hfront (hwords s hs.1) hne)
  · rintro ⟨⟨hr, hlater⟩, rfl, hstopped⟩
    refine ⟨hwords r hr, fun front hfront _ hne => ?_, ?_, le_refl _⟩
    · refine waits_of_not_final horder hr hfront fun s hs hs' => hstopped ⟨s, hs, ?_, ?_⟩
      · rwa [hs']
      · rwa [hs']
    · exact (lastMatch_eq_some horder).mpr ⟨hr, prefix_rfl, hlater⟩

end CodeOss.WordDispatch
