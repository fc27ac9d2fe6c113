import CodeOss.ViewModel.ProjectionRoundTrip

/-! Normalizing a position around injected texts. Where a text without a right cursor stop is
followed at its offset by one with a left stop, the place between them is a stop from the right
and none once the cursor is there. -/

namespace CodeOss.ViewModel

open List

/-- The left stop of `t` is not lost on the text `p` before it, or nothing gets there. -/
def KeepsLeftStop (p t : Injection) : Prop :=
  p.offset = t.offset → p.hasRightCursorStop = false → t.hasLeftCursorStop = true →
    t.length = 1 ∧ t.hasRightCursorStop = true

instance (p t : Injection) : Decidable (KeepsLeftStop p t) :=
  inferInstanceAs (Decidable (_ → _ → _ → _))

/-- The texts of a list, `total` code units into the injections, all end before `offset`. -/
def EndBefore (offset : ℤ) : ℤ → List Injection → Prop
  | _, [] => True
  | total, t :: rest =>
    t.offset + total + t.length < offset ∧ EndBefore offset (total + t.length) rest

variable {offset total : ℤ} {l : List Injection}

theorem endBefore_of (h : ∀ t ∈ l, t.offset + total + injectedLength l < offset) :
    EndBefore offset total l := by
  induction l generalizing total with
  | nil => trivial
  | cons t l ih =>
    have hrest := injectedLength_nonneg l
    have hhead := h t mem_cons_self
    rw [injectedLength_cons] at hhead
    refine ⟨by omega, ih fun t' ht' => ?_⟩
    have htail := h t' (mem_cons_of_mem t ht')
    rw [injectedLength_cons] at htail
    omega

theorem findInjectedText_of {before after : List Injection} {t : Injection}
    (hl : EndBefore offset total l) (hstart : t.offset + (total + injectedLength l) ≤ offset)
    (hend : offset ≤ t.offset + (total + injectedLength l) + t.length) :
    findInjectedText offset before total (l ++ t :: after) =
    some ⟨l.reverse ++ before, t, after, t.offset + (total + injectedLength l)⟩ := by
  induction l generalizing before total with
  | nil =>
    simp only [injectedLength_nil, add_zero] at hstart hend ⊢
    rw [nil_append, findInjectedText, if_neg (by omega), if_pos hend]
    rfl
  | cons s l ih =>
    obtain ⟨hs, hl⟩ := hl
    have hlength := s.length_nonneg
    rw [injectedLength_cons, ← add_assoc total] at hstart hend ⊢
    rw [cons_append, findInjectedText, if_neg (by omega), if_neg (by omega),
      ih hl hstart hend, reverse_cons, append_assoc]
    rfl

theorem findInjectedText_some {before : List Injection} {z : InjectedTextAt}
    (h : findInjectedText offset before total l = some z) : ∃ m, z.before = m.reverse ++ before ∧
    l = m ++ z.text :: z.after ∧ EndBefore offset total m ∧ z.offsetInInputWithInjections =
    z.text.offset + (total + injectedLength m) ∧ z.offsetInInputWithInjections ≤ offset ∧
    offset ≤ z.offsetInInputWithInjections + z.text.length := by
  induction l generalizing before total with
  | nil => cases h
  | cons t l ih =>
    rw [findInjectedText] at h
    split_ifs at h with hafter hin
    · cases h
      exact ⟨[], rfl, rfl, trivial, by simp, by simp only; omega, hin⟩
    · obtain ⟨m, hbefore, hl, hend, hoffset, hbounds⟩ := ih h
      refine ⟨t :: m, ?_, by rw [hl]; rfl, ⟨by omega, hend⟩, ?_, hbounds⟩
      · rw [hbefore, reverse_cons, append_assoc]
        rfl
      · rw [hoffset, injectedLength_cons, add_assoc]

theorem endBefore_head {p : Injection} (h : EndBefore offset total (l ++ [p])) :
    p.offset + (total + injectedLength l) + p.length < offset := by
  induction l generalizing total with
  | nil => simpa using h.1
  | cons s l ih =>
    rw [injectedLength_cons, ← add_assoc total]
    exact ih h.2

namespace ModelLineProjectionData

variable {d : ModelLineProjectionData} {lineLength offset : ℤ} {affinity : PositionAffinity}
  {before after : List Injection} {t p : Injection}

theorem textAt_of (hat : d.injections = before.reverse ++ t :: after)
    (hbefore : ∀ p ∈ before, p.offset + injectedLength before < offset)
    (hstart : t.offset + injectedLength before ≤ offset)
    (hend : offset ≤ t.offset + injectedLength before + t.length) : d.getInjectedTextAtOffset
    offset = some ⟨before, t, after, t.offset + injectedLength before⟩ := by
  have hends : EndBefore offset 0 before.reverse := by
    refine endBefore_of fun p hp => ?_
    have := hbefore p (mem_reverse.mp hp)
    rw [injectedLength_reverse]
    omega
  have hfind : findInjectedText offset [] 0 (before.reverse ++ t :: after) = _ :=
    findInjectedText_of hends (by simpa using hstart) (by simpa using hend)
  simpa [getInjectedTextAtOffset, hat] using hfind

section

variable (h : WellFormed d lineLength)
include h

variable (hat : d.injections = before.reverse ++ t :: after)
include hat

theorem before_le : ∀ p ∈ before, p.offset ≤ t.offset := by
  intro p hp
  have hsorted := h.sorted
  rw [hat] at hsorted
  exact (pairwise_append.mp hsorted).2.2 p (mem_reverse.mpr hp) t mem_cons_self

theorem textAt_past (hstart : t.offset + injectedLength before < offset)
    (hend : offset ≤ t.offset + injectedLength before + t.length) : d.getInjectedTextAtOffset
    offset = some ⟨before, t, after, t.offset + injectedLength before⟩ := by
  refine textAt_of hat (fun p hp => ?_) hstart.le hend
  have := before_le h hat p hp
  omega

theorem textAt_start
    (hapart : ∀ p ∈ before.head?, p.offset ≠ t.offset) : d.getInjectedTextAtOffset (t.offset +
    injectedLength before) = some ⟨before, t, after, t.offset + injectedLength before⟩ := by
  refine textAt_of hat ?_ le_rfl (by have := t.length_nonneg; omega)
  cases before with
  | nil => exact fun p hp => absurd hp not_mem_nil
  | cons q before =>
    have hle := before_le h hat q mem_cons_self
    have hne := hapart q rfl
    rw [reverse_cons, append_assoc] at hat
    intro p hp
    rcases mem_cons.mp hp with rfl | hp
    · omega
    · have := before_le h hat p hp
      omega

theorem textAt_end :
    d.getInjectedTextAtOffset (t.offset + injectedLength before + t.length) =
    some ⟨before, t, after, t.offset + injectedLength before⟩ := by
  have hpos := h.length_pos t (by rw [hat]; simp)
  exact textAt_past h hat (by omega) le_rfl

end

theorem leftOfTouching_spec (before after : List Injection) (t : Injection) :
    ∃ before' t' after', before.reverse ++ t :: after = before'.reverse ++ t' :: after' ∧
    leftOfTouching t.offset before (t.offset + injectedLength before) =
    t'.offset + injectedLength before' ∧ ∀ p ∈ before'.head?, p.offset ≠ t'.offset := by
  induction before generalizing t after with
  | nil => exact ⟨[], t, after, rfl, rfl, fun p hp => by cases hp⟩
  | cons p before ih =>
    rw [leftOfTouching]
    split_ifs with htouch
    · obtain ⟨before', t', after', hat, hleft, hapart⟩ := ih (t :: after) p
      have hstart : t.offset + injectedLength (p :: before) - p.length =
          p.offset + injectedLength before := by
        rw [injectedLength_cons]
        omega
      refine ⟨before', t', after', ?_, by rw [hstart, hleft], hapart⟩
      rw [← hat, reverse_cons, append_assoc]
      rfl
    · refine ⟨p :: before, t, after, rfl, rfl, fun q hq => ?_⟩
      rwa [← Option.some.inj hq]

theorem rightOfTouching_spec (before after : List Injection) (t : Injection) :
    ∃ before' t' after', before.reverse ++ t :: after = before'.reverse ++ t' :: after' ∧
    rightOfTouching t.offset after (t.offset + injectedLength before + t.length) =
    t'.offset + injectedLength before' + t'.length ∧ ∀ n ∈ after'.head?, n.offset ≠ t'.offset := by
  induction after generalizing t before with
  | nil => exact ⟨before, t, [], rfl, rfl, fun p hp => by cases hp⟩
  | cons n after ih =>
    rw [rightOfTouching]
    split_ifs with htouch
    · obtain ⟨before', t', after', hat, hright, hapart⟩ := ih (t :: before) n
      have hend : t.offset + injectedLength before + t.length + n.length =
          n.offset + injectedLength (t :: before) + n.length := by
        rw [injectedLength_cons]
        omega
      refine ⟨before', t', after', ?_, by rw [hend, hright], hapart⟩
      rw [← hat, reverse_cons, append_assoc]
      rfl
    · refine ⟨before, t, n :: after, rfl, rfl, fun q hq => ?_⟩
      rwa [← Option.some.inj hq]

theorem leftCursorStop_spec {before after : List Injection}
    {t : Injection} (hkeeps : (before.reverse ++ t :: after).IsChain KeepsLeftStop) :
    ∃ before' t' after', before.reverse ++ t :: after = before'.reverse ++ t' :: after' ∧
    leftCursorStop t.offset before (t.offset + injectedLength before) = t'.offset + injectedLength
    before' ∧ ∀ p ∈ before'.head?, p.offset = t'.offset → p.hasRightCursorStop = true := by
  induction before generalizing t after with
  | nil => exact ⟨[], t, after, rfl, rfl, fun p hp => by cases hp⟩
  | cons p before ih =>
    have hat : (p :: before).reverse ++ t :: after = before.reverse ++ p :: t :: after := by
      rw [reverse_cons, append_assoc]
      rfl
    have hstart : t.offset + injectedLength (p :: before) - p.length =
        t.offset + injectedLength before := by
      rw [injectedLength_cons]
      omega
    rw [leftCursorStop]
    split_ifs with htouch hright hleft
    · refine ⟨p :: before, t, after, rfl, rfl, fun q hq _ => ?_⟩
      rwa [← Option.some.inj hq]
    · refine ⟨before, p, t :: after, hat, by rw [hstart, htouch], fun q hq heq => ?_⟩
      rw [hat] at hkeeps
      obtain ⟨tail, rfl⟩ := head?_eq_some_iff.mp hq
      by_contra hnot
      rw [reverse_cons, append_assoc] at hkeeps
      have hkeep := isChain_append_cons_cons.mp hkeeps
      exact hright (hkeep.2.1 heq (by simpa using hnot) hleft).2
    · rw [hat] at hkeeps
      obtain ⟨before', t', after', hat', hstop, hstable⟩ := ih hkeeps
      exact ⟨before', t', after', hat.trans hat', by rw [hstart, ← htouch, hstop], hstable⟩
    · refine ⟨p :: before, t, after, rfl, rfl, fun q hq heq => ?_⟩
      rw [← Option.some.inj hq] at heq
      exact absurd heq htouch

theorem leftOfTouching_le (o : ℤ) (before : List Injection) (x : ℤ) :
    leftOfTouching o before x ≤ x := by
  induction before generalizing o x with
  | nil => exact le_rfl
  | cons p before ih =>
    have hlength := p.length_nonneg
    rw [leftOfTouching]
    split_ifs
    · exact (ih _ _).trans (by omega)
    · exact le_rfl

theorem leftCursorStop_le (o : ℤ) (before : List Injection) (x : ℤ) :
    leftCursorStop o before x ≤ x := by
  induction before generalizing x with
  | nil => exact le_rfl
  | cons p before ih =>
    have hlength := p.length_nonneg
    rw [leftCursorStop]
    split_ifs
    · exact le_rfl
    · omega
    · exact (ih _).trans (by omega)
    · exact le_rfl

theorem le_rightOfTouching (o : ℤ) (after : List Injection) (x : ℤ) :
    x ≤ rightOfTouching o after x := by
  induction after generalizing o x with
  | nil => exact le_rfl
  | cons n after ih =>
    have hlength := n.length_nonneg
    rw [rightOfTouching]
    split_ifs
    · exact le_trans (by omega) (ih _ _)
    · exact le_rfl

variable (d) in
def Normal (affinity : PositionAffinity) (offset : ℤ) : Prop :=
  d.normalizeOffsetInInputWithInjectionsAroundInjections offset affinity = offset

theorem leftOfTouching_apart (x : ℤ) (hapart : ∀ p ∈ before.head?, p.offset ≠ t.offset) :
    leftOfTouching t.offset before x = x := by
  cases before with
  | nil => rfl
  | cons p before => rw [leftOfTouching, if_neg (hapart p rfl)]

theorem leftCursorStop_apart (x : ℤ) (hapart : ∀ p ∈ before.head?, p.offset ≠ t.offset) :
    leftCursorStop t.offset before x = x := by
  cases before with
  | nil => rfl
  | cons p before => rw [leftCursorStop, if_neg (hapart p rfl)]

theorem rightOfTouching_apart (x : ℤ) (hapart : ∀ n ∈ after.head?, n.offset ≠ t.offset) :
    rightOfTouching t.offset after x = x := by
  cases after with
  | nil => rfl
  | cons n after => rw [rightOfTouching, if_neg (hapart n rfl)]

section

variable (h : WellFormed d lineLength)
include h

section

variable (hat : d.injections = before.reverse ++ t :: after)
include hat

theorem normal_none_start
    (hstop : ∀ p ∈ before.head?, p.offset = t.offset → p.hasRightCursorStop = true) :
    d.Normal .none (t.offset + injectedLength before) := by
  have hpos := h.length_pos t (by rw [hat]; simp)
  by_cases hapart : ∀ p ∈ before.head?, p.offset ≠ t.offset
  · rw [Normal, normalizeOffsetInInputWithInjectionsAroundInjections, textAt_start h hat hapart]
    simp only
    rw [if_neg (by omega), leftCursorStop_apart _ hapart, ite_self]
  · push Not at hapart
    obtain ⟨p, hp, htouch⟩ := hapart
    cases before with
    | nil => cases hp
    | cons q before =>
      rw [Option.some.inj hp] at hstop hat ⊢
      have hat' : d.injections = before.reverse ++ p :: t :: after := by
        rw [hat, reverse_cons, append_assoc]
        rfl
      have hend : t.offset + injectedLength (p :: before) =
          p.offset + injectedLength before + p.length := by
        rw [injectedLength_cons]
        omega
      rw [Normal, normalizeOffsetInInputWithInjectionsAroundInjections, hend, textAt_end h hat']
      exact if_pos ⟨rfl, hstop p rfl htouch⟩

theorem normal_left_start (hapart : ∀ p ∈ before.head?, p.offset ≠ t.offset)
    (haffinity : affinity = .left ∨ affinity = .leftOfInjectedText) :
    d.Normal affinity (t.offset + injectedLength before) := by
  rw [Normal, normalizeOffsetInInputWithInjectionsAroundInjections, textAt_start h hat hapart]
  rcases haffinity with rfl | rfl <;> exact leftOfTouching_apart _ hapart

theorem normal_right_end (hapart : ∀ n ∈ after.head?, n.offset ≠ t.offset)
    (haffinity : affinity = .right ∨ affinity = .rightOfInjectedText) :
    d.Normal affinity (t.offset + injectedLength before + t.length) := by
  rw [Normal, normalizeOffsetInInputWithInjectionsAroundInjections, textAt_end h hat]
  rcases haffinity with rfl | rfl <;> exact rightOfTouching_apart _ hapart

end

omit h in
theorem textAt_some {z : InjectedTextAt} (hz : d.getInjectedTextAtOffset offset = some z) :
    d.injections = z.before.reverse ++ z.text :: z.after ∧ EndBefore offset 0 z.before.reverse ∧
    z.offsetInInputWithInjections = z.text.offset + injectedLength z.before ∧
    offset ≤ z.text.offset + injectedLength z.before + z.text.length := by
  obtain ⟨m, hbefore, hat, hends, hoffset, -, hend⟩ := findInjectedText_some hz
  have hm : z.before.reverse = m := by simp [hbefore]
  have hlength : injectedLength m = injectedLength z.before := by
    rw [← hm, injectedLength_reverse]
  rw [zero_add, hlength] at hoffset
  rw [hm]
  exact ⟨hat, hends, hoffset, hoffset ▸ hend⟩

theorem normal_normalized (offset : ℤ)
    (affinity : PositionAffinity) (hkeeps : affinity = .none → d.injections.IsChain KeepsLeftStop) :
    d.Normal affinity (d.normalizeOffsetInInputWithInjectionsAroundInjections offset affinity) := by
  cases hz : d.getInjectedTextAtOffset offset with
  | none =>
    have hsame : d.normalizeOffsetInInputWithInjectionsAroundInjections offset affinity =
        offset := by
      rw [normalizeOffsetInInputWithInjectionsAroundInjections, hz]
    rw [hsame]
    exact hsame
  | some z =>
    obtain ⟨hat, hends, hoffset, hend⟩ := textAt_some hz
    have hnormal : ∀ N, d.Normal affinity N →
        d.normalizeOffsetInInputWithInjectionsAroundInjections offset affinity = N →
        d.Normal affinity
          (d.normalizeOffsetInInputWithInjectionsAroundInjections offset affinity) :=
      fun N hN heq => heq ▸ hN
    cases affinity with
    | none =>
      by_cases hright : offset = z.offsetInInputWithInjections + z.text.length ∧
          z.text.hasRightCursorStop = true
      · have hsame : d.normalizeOffsetInInputWithInjectionsAroundInjections offset .none =
            offset := by
          rw [normalizeOffsetInInputWithInjectionsAroundInjections, hz]
          exact (if_pos hright).trans hright.1.symm
        exact hnormal offset hsame hsame
      · by_cases hleft : z.text.hasLeftCursorStop = true
        · refine hnormal _ (normal_none_start h hat fun p hp htouch => ?_) ?_
          · obtain ⟨rest, hrest⟩ := head?_eq_some_iff.mp hp
            rw [hrest, reverse_cons] at hends hat
            have hpast := endBefore_head hends
            have hchain := hkeeps rfl
            rw [hat, append_assoc] at hchain
            have hkeep := (isChain_append_cons_cons.mp hchain).2.1 htouch
            by_contra hnot
            obtain ⟨hone, hstops⟩ := hkeep (by simpa using hnot) hleft
            rw [hrest, injectedLength_cons] at hoffset hend
            rw [injectedLength_reverse] at hpast
            exact hright ⟨by omega, hstops⟩
          · rw [normalizeOffsetInInputWithInjectionsAroundInjections, hz]
            exact (if_neg hright).trans ((if_pos hleft).trans hoffset)
        · have hchain := hkeeps rfl
          rw [hat] at hchain
          obtain ⟨before', t', after', hat', hstop, hstable⟩ := leftCursorStop_spec hchain
          refine hnormal _ (normal_none_start h (hat.trans hat') hstable) ?_
          rw [normalizeOffsetInInputWithInjectionsAroundInjections, hz, ← hstop, ← hoffset]
          exact (if_neg hright).trans (if_neg hleft)
    | left | leftOfInjectedText =>
      obtain ⟨before', t', after', hat', hleft, hapart⟩ :=
        leftOfTouching_spec z.before z.after z.text
      refine hnormal _ (normal_left_start h (hat.trans hat') hapart (by simp)) ?_
      rw [normalizeOffsetInInputWithInjectionsAroundInjections, hz, ← hleft, ← hoffset]
    | right | rightOfInjectedText =>
      obtain ⟨before', t', after', hat', hright, hapart⟩ :=
        rightOfTouching_spec z.before z.after z.text
      refine hnormal _ (normal_right_end h (hat.trans hat') hapart (by simp)) ?_
      rw [normalizeOffsetInInputWithInjectionsAroundInjections, hz, ← hright, ← hoffset]

theorem not_normal_inside (hat : d.injections = before.reverse ++ t :: after)
    (hstart : t.offset + injectedLength before < offset)
    (hend : offset < t.offset + injectedLength before + t.length)
    (affinity : PositionAffinity) : ¬ d.Normal affinity offset := by
  rw [Normal, normalizeOffsetInInputWithInjectionsAroundInjections,
    textAt_past h hat hstart hend.le]
  have hleft := leftOfTouching_le t.offset before (t.offset + injectedLength before)
  have hstop := leftCursorStop_le t.offset before (t.offset + injectedLength before)
  have hright :=
    le_rightOfTouching t.offset after (t.offset + injectedLength before + t.length)
  cases affinity <;> simp only
  case none => split_ifs <;> omega
  all_goals omega

/-- A text that loses its left stop: from just behind its left end the cursor goes there, and from
there to the left of the text before. -/
theorem lost_leftStop
    (hat : d.injections = before.reverse ++ p :: t :: after) (hlost : ¬ KeepsLeftStop p t) :
    ∃ start, d.normalizeOffsetInInputWithInjectionsAroundInjections (start + 1) .none = start ∧
    ¬ d.Normal .none start ∧ 0 ≤ start ∧ start + 1 ≤ lineLength + injectedLength d.injections := by
  simp only [KeepsLeftStop, Classical.not_imp] at hlost
  obtain ⟨htouch, hright, hleft, hlost⟩ := hlost
  have hat' : d.injections = (p :: before).reverse ++ t :: after := by
    rw [hat, reverse_cons, append_assoc]
    rfl
  have hpos := h.length_pos t (by rw [hat]; simp)
  have hlen := p.length_nonneg
  have hbefore := injectedLength_nonneg before
  have hafter := injectedLength_nonneg after
  have hin := h.inLine t (by rw [hat]; simp)
  refine ⟨t.offset + injectedLength (p :: before), ?_, ?_, ?_, ?_⟩
  · rw [normalizeOffsetInInputWithInjectionsAroundInjections,
      textAt_past h hat' (by omega) (by omega)]
    have hone : t.offset + injectedLength (p :: before) + 1 =
        t.offset + injectedLength (p :: before) + t.length → t.length = 1 := by omega
    exact (if_neg fun hend => hlost ⟨hone hend.1, hend.2⟩).trans (if_pos hleft)
  · have hend : t.offset + injectedLength (p :: before) =
        p.offset + injectedLength before + p.length := by
      rw [injectedLength_cons]
      omega
    have hppos := h.length_pos p (by rw [hat]; simp)
    have hstop := leftCursorStop_le p.offset before (p.offset + injectedLength before)
    rw [Normal, normalizeOffsetInInputWithInjectionsAroundInjections, hend, textAt_end h hat]
    simp only [hright, Bool.false_eq_true, and_false, if_false]
    split_ifs <;> omega
  · rw [injectedLength_cons]
    omega
  · rw [hat, injectedLength_append, injectedLength_reverse]
    simp only [injectedLength_cons]
    omega

end

variable {l : ℕ}

theorem toOffset_max (h : WellFormed d lineLength) (hl : l < d.getOutputLineCount) :
    d.outputPositionToOffsetInInputWithInjections ⟨l, d.getMaxOutputOffset l⟩ =
      d.breakOffset l := by
  have hstart := h.lineStart_le hl
  simp only [outputPositionToOffsetInInputWithInjections, getMaxOutputOffset, getLineLength]
  split_ifs <;> omega

theorem toOffset_min (l : ℕ) :
    d.outputPositionToOffsetInInputWithInjections ⟨l, d.getMinOutputOffset l⟩ = d.lineStart l := by
  simp only [outputPositionToOffsetInInputWithInjections, getMinOutputOffset]
  split_ifs <;> omega

theorem min_ne_max (h : WellFormed d lineLength) (hl : l + 1 < d.getOutputLineCount) :
    d.getMinOutputOffset (l + 1) ≠ d.getMaxOutputOffset (l + 1) := by
  have hlt := h.breakOffset_lt (Nat.lt_add_one l) hl
  simp only [getMinOutputOffset, getMaxOutputOffset, getLineLength, WellFormed.lineStart_succ,
    gt_iff_lt, Nat.succ_pos, if_true, ne_eq]
  omega

theorem normalizeAtBreak_stay {o : ℤ}
    (hleft : affinity = .left → l > 0 → o ≠ d.getMinOutputOffset l)
    (hright : affinity = .right → l + 1 < d.getOutputLineCount → o ≠ d.getMaxOutputOffset l) :
    d.normalizeAtBreak ⟨l, o⟩ affinity = ⟨l, o⟩ := by
  rw [normalizeAtBreak]
  split_ifs with haff hbreak haff' hbreak
  · exact absurd hbreak.2 (hleft haff hbreak.1)
  · rfl
  · exact absurd hbreak.2 (hright haff' (Nat.add_lt_of_lt_sub hbreak.1))
  · rfl
  · rfl

theorem normalizeAtBreak_cases (l : ℕ) (o : ℤ) (affinity : PositionAffinity) :
    (affinity = .left ∧ ∃ k, l = k + 1 ∧ o = d.getMinOutputOffset (k + 1) ∧
    d.normalizeAtBreak ⟨l, o⟩ affinity = ⟨k, d.getMaxOutputOffset k⟩) ∨ (affinity = .right ∧
    l + 1 < d.getOutputLineCount ∧ o = d.getMaxOutputOffset l ∧ d.normalizeAtBreak ⟨l, o⟩ affinity =
    ⟨l + 1, d.getMinOutputOffset (l + 1)⟩) ∨ d.normalizeAtBreak ⟨l, o⟩ affinity = ⟨l, o⟩ := by
  by_cases hleft : affinity = .left ∧ l > 0 ∧ o = d.getMinOutputOffset l
  · obtain ⟨rfl, hpos, ho⟩ := hleft
    obtain ⟨k, rfl⟩ := Nat.exists_eq_add_of_lt hpos
    rw [zero_add] at ho ⊢
    exact Or.inl ⟨rfl, k, rfl, ho, (if_pos rfl).trans (if_pos ⟨Nat.succ_pos k, ho⟩)⟩
  · by_cases hright : affinity = .right ∧ l + 1 < d.getOutputLineCount ∧
        o = d.getMaxOutputOffset l
    · obtain ⟨rfl, hlast, ho⟩ := hright
      refine Or.inr (Or.inl ⟨rfl, hlast, ho, ?_⟩)
      rw [normalizeAtBreak, if_neg (by decide), if_pos rfl]
      exact if_pos ⟨Nat.lt_sub_of_add_lt hlast, ho⟩
    · refine Or.inr (Or.inr (normalizeAtBreak_stay ?_ ?_))
      · exact fun haff hpos ho => hleft ⟨haff, hpos, ho⟩
      · exact fun haff hlast ho => hright ⟨haff, hlast, ho⟩

section

variable (h : WellFormed d lineLength)
include h

theorem normalizeAtBreak_toOffset
    {p : OutputPosition} (hline : p.outputLineIndex < d.getOutputLineCount) :
    d.outputPositionToOffsetInInputWithInjections (d.normalizeAtBreak p affinity) =
    d.outputPositionToOffsetInInputWithInjections p := by
  obtain ⟨l, o⟩ := p
  rcases normalizeAtBreak_cases (d := d) l o affinity with
    ⟨-, k, rfl, rfl, hmove⟩ | ⟨-, -, rfl, hmove⟩ | hstay
  · rw [hmove, toOffset_min, toOffset_max h (Nat.lt_of_succ_lt hline), WellFormed.lineStart_succ]
  · rw [hmove, toOffset_min, toOffset_max h hline, WellFormed.lineStart_succ]
  · rw [hstay]

theorem normalizeAtBreak_idem
    {p : OutputPosition} (hline : p.outputLineIndex < d.getOutputLineCount) : d.normalizeAtBreak
    (d.normalizeAtBreak p affinity) affinity = d.normalizeAtBreak p affinity := by
  obtain ⟨l, o⟩ := p
  rcases normalizeAtBreak_cases (d := d) l o affinity with
    ⟨rfl, k, rfl, -, hmove⟩ | ⟨rfl, hlast, -, hmove⟩ | hstay
  · rw [hmove]
    refine normalizeAtBreak_stay (fun _ hpos => ?_) (fun haff => by cases haff)
    obtain ⟨j, rfl⟩ := Nat.exists_eq_add_of_lt hpos
    rw [zero_add] at hline ⊢
    exact (min_ne_max h (Nat.lt_of_succ_lt hline)).symm
  · rw [hmove]
    exact normalizeAtBreak_stay (fun haff => by cases haff) (fun _ _ => min_ne_max h hlast)
  · rw [hstay, hstay]

theorem normalizeAtBreak_position (offset : ℤ) (affinity : PositionAffinity) :
    d.normalizeAtBreak (d.offsetInInputWithInjectionsToOutputPosition offset affinity) affinity =
    d.offsetInInputWithInjectionsToOutputPosition offset affinity := by
  obtain ⟨l, hline, heq⟩ := position_eq h offset affinity
  rw [heq]
  refine normalizeAtBreak_stay ?_ ?_
  · rintro rfl hpos ho
    have hstart := hline.start.resolve_left (by omega)
    simp only [Past, if_true] at hstart
    omega
  · rintro rfl hlast ho
    have hstop := hline.stop.resolve_left (by omega)
    simp only [Past, reduceCtorEq, if_false] at hstop
    simp only [getMaxOutputOffset, getLineLength, getMinOutputOffset] at ho
    split_ifs at ho <;> omega

theorem normalize_toOffset {p : OutputPosition} (hline : p.outputLineIndex < d.getOutputLineCount)
    (affinity : PositionAffinity) : d.outputPositionToOffsetInInputWithInjections
    (d.normalizeOutputPosition p affinity) = d.normalizeOffsetInInputWithInjectionsAroundInjections
    (d.outputPositionToOffsetInInputWithInjections p) affinity := by
  rw [normalizeOutputPosition]
  split_ifs with hmoved
  · rw [position_toOffset h]
  · rw [normalizeAtBreak_toOffset h hline]
    exact (not_not.mp hmoved).symm

theorem normalize_idem {p : OutputPosition} (hline : p.outputLineIndex < d.getOutputLineCount)
    (hkeeps : affinity = .none → d.injections.IsChain KeepsLeftStop) : d.normalizeOutputPosition
    (d.normalizeOutputPosition p affinity) affinity = d.normalizeOutputPosition p affinity := by
  have hnormal := normal_normalized h (d.outputPositionToOffsetInInputWithInjections p) affinity
    hkeeps
  rw [← normalize_toOffset h hline, Normal] at hnormal
  rw [normalizeOutputPosition, hnormal, if_neg (not_not.mpr rfl)]
  rw [normalizeOutputPosition]
  split_ifs with hmoved
  · exact normalizeAtBreak_position h _ _
  · exact normalizeAtBreak_idem h hline

end

variable (d) in
structure OnOutput (p : OutputPosition) : Prop where
  line : p.outputLineIndex < d.getOutputLineCount
  min : d.getMinOutputOffset p.outputLineIndex ≤ p.outputOffset
  max : p.outputOffset ≤ d.getMaxOutputOffset p.outputLineIndex

theorem position_onOutput (h : WellFormed d lineLength) (affinity : PositionAffinity)
    (hnonneg : 0 ≤ offset) (hle : offset ≤ lineLength + injectedLength d.injections) :
    d.OnOutput (d.offsetInInputWithInjectionsToOutputPosition offset affinity) := by
  have hbounds := position_bounds h affinity hnonneg hle
  obtain ⟨l, hline, heq⟩ := position_eq h offset affinity
  exact ⟨by rw [heq]; exact hline.lt, hbounds.1, hbounds.2⟩

variable (d) in
def NormalizesOnce : Prop :=
  ∀ p, d.OnOutput p → ∀ affinity,
    d.normalizeOutputPosition (d.normalizeOutputPosition p affinity) affinity =
      d.normalizeOutputPosition p affinity

variable (d) in
/-- The position stands strictly inside an injected text. -/
def InsideInjectedText (p : OutputPosition) : Prop :=
  ∃ before t after, d.injections = before ++ t :: after ∧
    t.offset + injectedLength before < d.outputPositionToOffsetInInputWithInjections p ∧
    d.outputPositionToOffsetInInputWithInjections p <
      t.offset + injectedLength before + t.length

structure MapsPositions (d : ModelLineProjectionData) (lineLength : ℤ) : Prop where
  roundTrip : ∀ o, 0 ≤ o → o ≤ lineLength → ∀ affinity,
    d.translateToInputOffset (d.translateToOutputPosition o affinity) = o
  onOutput : ∀ o, 0 ≤ o → o ≤ lineLength → ∀ affinity,
    d.OnOutput (d.translateToOutputPosition o affinity)
  monotone : ∀ p q, d.OnOutput p → d.OnOutput q → Before p q →
    d.translateToInputOffset p ≤ d.translateToInputOffset q
  normalizesOnce : d.NormalizesOnce
  outside : ∀ p, d.OnOutput p → ∀ affinity,
    ¬ d.InsideInjectedText (d.normalizeOutputPosition p affinity)

theorem not_insideInjectedText (h : WellFormed d lineLength) {p : OutputPosition}
    (hp : d.OnOutput p) (affinity : PositionAffinity)
    (hkeeps : affinity = .none → d.injections.IsChain KeepsLeftStop) :
    ¬ d.InsideInjectedText (d.normalizeOutputPosition p affinity) := by
  rintro ⟨before, t, after, hat, hstart, hend⟩
  have hnormal := normal_normalized h (d.outputPositionToOffsetInInputWithInjections p) affinity
    hkeeps
  rw [← normalize_toOffset h hp.line] at hnormal
  rw [← injectedLength_reverse] at hstart hend
  rw [← reverse_reverse before] at hat
  exact not_normal_inside h hat hstart hend affinity hnormal

theorem normalizesOnce_keeps (h : WellFormed d lineLength) (honce : d.NormalizesOnce) :
    d.injections.IsChain KeepsLeftStop := by
  rw [isChain_iff_forall_rel_of_append_cons_cons]
  intro p t before after hat
  by_contra hlost
  rw [← reverse_reverse before] at hat
  obtain ⟨start, hfirst, hmoves, hnonneg, hle⟩ := lost_leftStop h hat hlost
  have hmoved : d.normalizeOutputPosition
      (d.offsetInInputWithInjectionsToOutputPosition (start + 1) .none) .none =
      d.offsetInInputWithInjectionsToOutputPosition start .none := by
    simp only [normalizeOutputPosition, position_toOffset h, hfirst]
    exact if_pos (by omega)
  have hstays := honce _ (position_onOutput h .none (by omega) hle) .none
  rw [hmoved] at hstays
  have honOutput := position_onOutput h .none hnonneg (by omega)
  have hnormal := normalize_toOffset h honOutput.line .none
  rw [hstays, position_toOffset h] at hnormal
  exact hmoves hnormal.symm

theorem mapsPositions_iff (h : WellFormed d lineLength) :
    d.MapsPositions lineLength ↔ d.injections.IsChain KeepsLeftStop := by
  refine ⟨fun hmaps => normalizesOnce_keeps h hmaps.normalizesOnce, fun hkeeps => ?_⟩
  have hbefore := fun o affinity => injectedLengthBefore_bounds o affinity d.injections
  exact
    { roundTrip := fun o _ _ affinity => translate_roundTrip h o affinity
      onOutput := fun o hnonneg hle affinity =>
        position_onOutput h affinity (by have := hbefore o affinity; omega)
          (by have := hbefore o affinity; omega)
      monotone := fun p q hp hq hpq => translate_mono h hpq hq.line hp.max
      normalizesOnce := fun p hp affinity => normalize_idem h hp.line fun _ => hkeeps
      outside := fun p hp affinity => not_insideInjectedText h hp affinity fun _ => hkeeps }

variable (stops : InjectedTextCursorStops)

/-- Two texts in front of `z`, the first without cursor stops. -/
def twoTexts : ModelLineProjectionData :=
  ⟨[⟨0, [97, 98], some stops⟩, ⟨0, [120, 121], Option.none⟩], [5], 0⟩

theorem twoTexts_wellFormed : WellFormed (twoTexts stops) 1 where
  sorted := by simp [twoTexts]
  inLine := by simp [twoTexts]
  content := by simp [twoTexts]
  increasing := by simp [twoTexts]
  positive := by simp [twoTexts]
  ends := by simp [twoTexts, Injection.length]

theorem mapsPositions_twoTexts : (twoTexts .right).MapsPositions 1 ↔
    (twoTexts .right).injections.IsChain KeepsLeftStop :=
  mapsPositions_iff (twoTexts_wellFormed .right)

theorem twoTexts_searchLine (offset : ℤ) :
    (twoTexts stops).offsetInInputWithInjectionsToOutputPosition offset .none = ⟨0, offset⟩ := by
  obtain ⟨l, hline, heq⟩ := position_eq (twoTexts_wellFormed stops) offset .none
  have hl : l = 0 := Nat.lt_one_iff.mp hline.lt
  rw [heq, hl]
  simp [lineStart, getMinOutputOffset]

theorem not_mapsPositions_twoTexts :
    (twoTexts .none).normalizeOutputPosition ⟨0, 3⟩ .none = ⟨0, 2⟩ ∧
      (twoTexts .none).normalizeOutputPosition ⟨0, 2⟩ .none = ⟨0, 0⟩ ∧
      ¬ (twoTexts .none).MapsPositions 1 := by
  have hfirst : (twoTexts .none).normalizeOutputPosition ⟨0, 3⟩ .none = ⟨0, 2⟩ :=
    twoTexts_searchLine .none 2
  have hsecond : (twoTexts .none).normalizeOutputPosition ⟨0, 2⟩ .none = ⟨0, 0⟩ :=
    twoTexts_searchLine .none 0
  refine ⟨hfirst, hsecond, fun hmaps => ?_⟩
  have honce := hmaps.normalizesOnce ⟨0, 3⟩ ⟨by decide, by decide, by decide⟩ .none
  rw [hfirst, hsecond] at honce
  cases honce

end ModelLineProjectionData

end CodeOss.ViewModel
