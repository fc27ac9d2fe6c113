import CodeOss.Edits.StringEditPatches
import CodeOss.Library.Cut

/-! The composition law of `StringEdit`.
Each round of `compose` is read against the rest of the base text: `b` is the
offset in the base up to which everything has been emitted, and `b + edit1ToEdit2`
the same place in the text that the first edit produces. -/

namespace CodeOss.StringEdit

open List hiding isEmpty
open BaseReplacement StringReplacement BaseEdit

variable {b e d : Int} {q : List StringReplacement} {r2 : StringReplacement} {t : JsString}
  {q' : List StringReplacement} {d' : Int} {G : List StringReplacement} {last : StringReplacement}

theorem copyUntouched_spec (r2Start : Int) (q : List StringReplacement) (d : Int)
    (result : List StringReplacement) (hq : Patch.Fits b e (patches q)) (hb : b + d ≤ r2Start) :
    ∃ out, q = out ++ (copyUntouched r2Start q d result).edit1Queue ∧
    (copyUntouched r2Start q d result).result = result ++ out ∧
    (copyUntouched r2Start q d result).edit1ToEdit2 = d + Patch.lengthDelta (patches out) ∧
    Patch.endFrom b (patches out) + (copyUntouched r2Start q d result).edit1ToEdit2 ≤ r2Start ∧
    ∀ r ∈ (copyUntouched r2Start q d result).edit1Queue.head?, r2Start ≤
    r.replaceRange.start + (copyUntouched r2Start q d result).edit1ToEdit2 + r.newText.length := by
  induction q generalizing b d result with
  | nil => exact ⟨[], rfl, by simp [copyUntouched], by simp [copyUntouched], hb,
    by simp [copyUntouched]⟩
  | cons r1 q ih =>
    obtain ⟨h₁, h₂, h₃⟩ := hq
    simp only [toPatch_start, toPatch_stop] at h₁ h₂ h₃
    simp only [copyUntouched, replaceRange_eq, getNewLength_eq]
    split_ifs with hstop
    · refine ⟨[], rfl, by simp, by simp, hb, ?_⟩
      simp only [head?_cons, Option.mem_def, Option.some.injEq, forall_eq']
      omega
    · have hnext : r1.replaceRange.endExclusive +
          (d + ((r1.newText.length : Int) - r1.replaceRange.length)) ≤ r2Start := by
        simp only [OffsetRange.length]
        omega
      obtain ⟨out, hq', hres, hd, hend, hhead⟩ :=
        ih (d + ((r1.newText.length : Int) - r1.replaceRange.length)) (result ++ [r1]) h₃ hnext
      refine ⟨r1 :: out, by simpa using hq', by rw [hres]; simp, ?_, hend, hhead⟩
      rw [hd]
      simp only [patches_cons, Patch.lengthDelta_cons, toPatch_text, toPatch_start, toPatch_stop,
        OffsetRange.length]
      omega

theorem collectIntersecting_spec (r2End : Int) (q : List StringReplacement)
    (d : Int) (first last : Option StringReplacement) : ∃ G, q = G ++ (collectIntersecting
    r2End q d first last).edit1Queue ∧ (collectIntersecting r2End q d first last).edit1ToEdit2 = d +
    Patch.lengthDelta (patches G) ∧ (collectIntersecting r2End q d first last).firstIntersecting =
    first.or G.head? ∧ (collectIntersecting r2End q d first last).lastIntersecting =
    G.getLast?.or last ∧ (∀ g ∈ G.getLast?, g.replaceRange.endExclusive +
    (collectIntersecting r2End q d first last).edit1ToEdit2 ≤ r2End + g.newText.length) ∧
    ∀ r ∈ (collectIntersecting r2End q d first last).edit1Queue.head?,
    r2End < r.replaceRange.start + (collectIntersecting r2End q d first last).edit1ToEdit2 := by
  induction q generalizing d first last with
  | nil => exact ⟨[], rfl, by simp [collectIntersecting], by simp [collectIntersecting],
      by simp [collectIntersecting], by simp, by simp [collectIntersecting]⟩
  | cons r1 q ih =>
    simp only [collectIntersecting, replaceRange_eq, getNewLength_eq]
    split_ifs with hstop
    · exact ⟨[], rfl, by simp, by simp, by simp, by simp, by simpa using hstop⟩
    · obtain ⟨G, hq, hd, hfirst, hlast, hend, hhead⟩ :=
        ih (d + ((r1.newText.length : Int) - r1.replaceRange.length)) (some (first.getD r1)) (some r1)
      refine ⟨r1 :: G, by simpa using hq, ?_, ?_, ?_, ?_, hhead⟩
      · rw [hd]
        simp only [patches_cons, Patch.lengthDelta_cons, toPatch_text, toPatch_start,
          toPatch_stop, OffsetRange.length]
        omega
      · rw [hfirst]
        cases first <;> rfl
      · rw [hlast, getLast?_cons]
        cases G.getLast? <;> rfl
      · rw [getLast?_cons]
        cases hG : G.getLast? with
        | none =>
          -- nothing after `r1`: its own start was tested
          have hnil : G = [] := by simpa using hG
          subst hnil
          simp only [Option.getD_none, Option.mem_def, Option.some.injEq, forall_eq']
          rw [hd]
          simp only [patches_nil, Patch.lengthDelta_nil, OffsetRange.length]
          omega
        | some g =>
          simpa [hG] using hend

/-- One round of `compose`, seen from the cursor `b`: it emits replacements up to a new
cursor `c`, which turn the base text up to `c` into what `r2` makes of the first
edit's output up to the end of `r2`; the queue produces the rest of that output. -/
structure StepSpec (b e d : Int) (q : List StringReplacement) (r2 : StringReplacement)
    (t : JsString) (out : List StringReplacement) (c : Int) (q' : List StringReplacement)
    (d' : Int) : Prop where
  emitted_fits : Patch.Fits b c (patches out)
  queue_fits : Patch.Fits c e (patches q')
  cursor : c + d' = r2.replaceRange.endExclusive
  emitted_text : Patch.applyFrom b (patches out) (t.take (c - b).toNat) =
    (Patch.applyFrom b (patches q) t).take (r2.replaceRange.start - (b + d)).toNat ++ r2.newText
  queue_text : Patch.applyFrom c (patches q') (t.drop (c - b).toNat) =
    (Patch.applyFrom b (patches q) t).drop (r2.replaceRange.endExclusive - (b + d)).toNat

theorem StepSpec.prepend {A : List StringReplacement} {out : List StringReplacement} {c : Int}
    (hq : Patch.Fits b e (patches (A ++ q))) (ht : (t.length : Int) = e - b)
    (h2 : Patch.endFrom b (patches A) + (d + Patch.lengthDelta (patches A)) ≤ r2.replaceRange.start)
    (h : StepSpec (Patch.endFrom b (patches A)) e (d + Patch.lengthDelta (patches A)) q r2
    (t.drop (Patch.endFrom b (patches A) - b).toNat) out c q' d') :
    StepSpec b e d (A ++ q) r2 t (A ++ out) c q' d' := by
  rw [patches_append] at hq
  obtain ⟨hA, hrest⟩ := Patch.fits_append.1 hq
  obtain ⟨htext, hlen⟩ := Patch.applyFrom_split hq ht
  have hAle := hA.le
  have hc := h.emitted_fits.le
  have hce := h.queue_fits.le
  have h2le := r2.replaceRange.le
  have hfits : Patch.Fits b c (patches (A ++ out)) := by
    rw [patches_append]
    exact hA.append h.emitted_fits
  have htake : (t.take (c - b).toNat).drop (Patch.endFrom b (patches A) - b).toNat =
      (t.drop (Patch.endFrom b (patches A) - b).toNat).take
        (c - Patch.endFrom b (patches A)).toNat := by
    rw [Cut.drop_take (by omega)]
    congr 2
    omega
  have hdrop : t.drop (c - b).toNat = (t.drop (Patch.endFrom b (patches A) - b).toNat).drop
      (c - Patch.endFrom b (patches A)).toNat := by
    rw [Cut.drop_drop (by omega) (by omega)]
    congr 2
    omega
  have hclen : ((t.take (c - b).toNat).length : Int) = c - b :=
    Cut.length_take (by omega) (by omega)
  refine ⟨hfits, h.queue_fits, h.cursor, ?_, ?_⟩
  · rw [patches_append] at hfits
    rw [patches_append, patches_append, (Patch.applyFrom_split hfits hclen).1, htake,
      h.emitted_text, htext, Cut.take_append_right (by omega), append_assoc,
      Cut.take_take (by omega)]
    congr 3
    omega
  · rw [patches_append, hdrop, h.queue_text, htext, Cut.drop_append_right (by omega)]
    congr 2
    omega

theorem length_of_empty_queue (ht : (t.length : Int) = e - b) (hq : q = []) :
    ((Patch.applyFrom b (patches q) t).length : Int) = e - b := by
  subst hq
  exact ht

/-- No queued replacement intersects or touches `r2`: it is only moved into the base. -/
theorem stepSpec_disjoint (hq : Patch.Fits b e (patches q))
    (ht : (t.length : Int) = e - b) (h2 : b + d ≤ r2.replaceRange.start)
    (h2e : r2.replaceRange.endExclusive ≤ b + d + (Patch.applyFrom b (patches q) t).length)
    (hhead : ∀ r ∈ q.head?, r2.replaceRange.endExclusive < r.replaceRange.start + d) : StepSpec b e
    d q r2 t [⟨r2.replaceRange.delta (-d), r2.newText⟩] (r2.replaceRange.endExclusive - d) q d := by
  have hle := r2.replaceRange.le
  have hce : r2.replaceRange.endExclusive - d ≤ e := by
    cases q with
    | nil =>
      have := length_of_empty_queue ht rfl
      omega
    | cons r q =>
      have h₁ := hhead r rfl
      have h₂ := hq.2.1
      have h₃ := hq.2.2.le
      simp only [toPatch_start, toPatch_stop] at h₂ h₃
      omega
  have hqc : Patch.Fits (r2.replaceRange.endExclusive - d) e (patches q) := by
    refine hq.advance hce fun p hp => ?_
    cases q with
    | nil => cases hp
    | cons r q =>
      have := hhead r rfl
      cases hp
      simp only [toPatch_start]
      omega
  have hadv := Patch.applyFrom_advance (b := b) (t := t) (by omega) (by omega) hqc
  have hlen : ((t.take (r2.replaceRange.endExclusive - d - b).toNat).length : Int) =
      r2.replaceRange.endExclusive - d - b := Cut.length_take (by omega) (by omega)
  refine ⟨?_, hqc, by omega, ?_, ?_⟩
  · simp only [patches_cons, patches_nil, Patch.fits_cons, Patch.fits_nil, toPatch_start,
      toPatch_stop, OffsetRange.delta_start, OffsetRange.delta_endExclusive]
    omega
  · simp only [patches_cons, patches_nil, Patch.applyFrom_cons, Patch.applyFrom_nil,
      toPatch_start, toPatch_stop, toPatch_text, OffsetRange.delta_start,
      OffsetRange.delta_endExclusive]
    rw [hadv, Cut.take_append_left (by omega), Cut.take_take (by omega), Cut.take_take (by omega),
      Cut.drop_eq_nil (by omega), append_nil]
    congr 3
    omega
  · rw [hadv, Cut.drop_append_right (by omega)]
    have : (r2.replaceRange.endExclusive - (b + d) -
        ((t.take (r2.replaceRange.endExclusive - d - b).toNat).length : Int)).toNat = 0 := by omega
    rw [this, drop_zero]

theorem endFrom_of_getLast? (h : G.getLast? = some last) :
    Patch.endFrom b (patches G) = last.replaceRange.endExclusive := by
  induction G generalizing b with
  | nil => simp at h
  | cons g G ih =>
    cases G with
    | nil =>
      obtain rfl : g = last := by simpa using h
      rfl
    | cons g' G => exact ih (b := g.toPatch.stop) (by simpa [getLast?_cons] using h)

theorem applyFrom_ends_with (h : G.getLast? = some last)
    (hG : Patch.Fits b (last.replaceRange.endExclusive) (patches G))
    (ht : (t.length : Int) = last.replaceRange.endExclusive - b) :
    ∃ y, Patch.applyFrom b (patches G) t = y ++ last.newText := by
  induction G generalizing b t with
  | nil => simp at h
  | cons g G ih =>
    obtain ⟨h₁, h₂, h₃⟩ := hG
    simp only [toPatch_start, toPatch_stop] at h₁ h₂ h₃
    have hle := h₃.le
    cases G with
    | nil =>
      obtain rfl : g = last := by simpa using h
      refine ⟨t.take (g.replaceRange.start - b).toNat, ?_⟩
      simp only [patches_cons, patches_nil, Patch.applyFrom_cons, Patch.applyFrom_nil,
        toPatch_start, toPatch_stop, toPatch_text]
      rw [Cut.drop_eq_nil (by omega), append_nil]
    | cons g' G =>
      obtain ⟨y, hy⟩ := ih (t := t.drop (g.replaceRange.endExclusive - b).toNat)
        (by simpa [getLast?_cons] using h) h₃ (by rw [Cut.length_drop] <;> omega)
      refine ⟨t.take (g.replaceRange.start - b).toNat ++ g.newText ++ y, ?_⟩
      rw [patches_cons, Patch.applyFrom_cons]
      simp only [toPatch_start, toPatch_stop, toPatch_text]
      rw [hy, append_assoc _ y]

theorem prefix_spec {first : StringReplacement} {rest : List StringReplacement}
    (hq : Patch.Fits b e (patches (first :: rest))) (ht : (t.length : Int) = e - b)
    (h2 : b + d ≤ r2.replaceRange.start)
    (hfirst : r2.replaceRange.start ≤ first.replaceRange.start + d + first.newText.length)
    {pre : List StringReplacement} {newStart : Int}
    (hnew : newStart = min first.replaceRange.start (r2.replaceRange.start - d))
    (hpre : (r2.replaceRange.start - (first.replaceRange.start + d) ≤ 0 ∧ pre = []) ∨ ∃ h,
    pre = [BaseReplacement.slice first (OffsetRange.emptyAt newStart)
    ⟨0, r2.replaceRange.start - (first.replaceRange.start + d), h⟩]) :
    Patch.Fits b newStart (patches pre) ∧
      Patch.applyFrom b (patches pre) (t.take (newStart - b).toNat) =
        (Patch.applyFrom b (patches (first :: rest)) t).take
          (r2.replaceRange.start - (b + d)).toNat := by
  obtain ⟨h₁, h₂, h₃⟩ := hq
  have hle := h₃.le
  simp only [toPatch_start, toPatch_stop] at h₁ h₂ hle
  have hlen : ((t.take (first.replaceRange.start - b).toNat).length : Int) =
      first.replaceRange.start - b := Cut.length_take (by omega) (by omega)
  rw [patches_cons, Patch.applyFrom_cons]
  simp only [toPatch_start, toPatch_stop, toPatch_text]
  rcases hpre with ⟨hneg, rfl⟩ | ⟨h, rfl⟩
  · have hn : newStart = r2.replaceRange.start - d := by omega
    refine ⟨?_, ?_⟩
    · simp only [patches_nil, Patch.fits_nil]
      omega
    · rw [patches_nil, Patch.applyFrom_nil, append_assoc, Cut.take_append_left (by omega),
        Cut.take_take (by omega)]
      congr 2
      omega
  · have hn : newStart = first.replaceRange.start := by omega
    refine ⟨?_, ?_⟩
    · simp only [patches_cons, patches_nil, Patch.fits_cons, Patch.fits_nil, toPatch_start,
        toPatch_stop, slice_replaceRange, OffsetRange.emptyAt_start,
        OffsetRange.emptyAt_endExclusive]
      omega
    · simp only [patches_cons, patches_nil, Patch.applyFrom_cons, Patch.applyFrom_nil,
        toPatch_start, toPatch_stop, toPatch_text, slice_replaceRange, OffsetRange.emptyAt_start,
        OffsetRange.emptyAt_endExclusive]
      have hcut := slice_newText first (OffsetRange.emptyAt newStart)
        ⟨0, r2.replaceRange.start - (first.replaceRange.start + d), h⟩ (le_refl (0 : Int))
        (by simp only; omega)
      simp only [Int.toNat_zero, drop_zero, sub_zero] at hcut
      rw [hcut, hn, append_assoc _ first.newText, Cut.take_append_right (by omega),
        Cut.take_append_left (by omega), Cut.take_take (by omega), Cut.drop_eq_nil (by omega),
        append_nil]
      congr 3
      omega

theorem suffix_spec {q2 : List StringReplacement} (hq : Patch.Fits b e (patches (G ++ q2)))
    (ht : (t.length : Int) = e - b) (hG : G.getLast? = some last)
    (h2e : r2.replaceRange.endExclusive ≤ b + d + (Patch.applyFrom b (patches (G ++ q2)) t).length)
    {d2 : Int} (hd2 : d2 = d + Patch.lengthDelta (patches G))
    (hlast : last.replaceRange.endExclusive + d2 ≤ r2.replaceRange.endExclusive +
    last.newText.length)
    (hhead : ∀ r ∈ q2.head?, r2.replaceRange.endExclusive < r.replaceRange.start + d2)
    (hq' : (last.replaceRange.endExclusive + d2 - r2.replaceRange.endExclusive ≤ 0 ∧ q' = q2 ∧
    d' = d2) ∨ ∃ h, 0 < last.replaceRange.endExclusive + d2 - r2.replaceRange.endExclusive ∧
    q' = BaseReplacement.slice last (OffsetRange.emptyAt last.replaceRange.endExclusive)
    ⟨last.newText.length - (last.replaceRange.endExclusive + d2 - r2.replaceRange.endExclusive),
    last.newText.length, h⟩ :: q2 ∧
    d' = d2 - (last.replaceRange.endExclusive + d2 - r2.replaceRange.endExclusive)) :
    last.replaceRange.endExclusive ≤ r2.replaceRange.endExclusive - d' ∧
      Patch.Fits (r2.replaceRange.endExclusive - d') e (patches q') ∧
      Patch.applyFrom (r2.replaceRange.endExclusive - d') (patches q')
          (t.drop (r2.replaceRange.endExclusive - d' - b).toNat) =
        (Patch.applyFrom b (patches (G ++ q2)) t).drop
          (r2.replaceRange.endExclusive - (b + d)).toNat := by
  have hle2 := r2.replaceRange.le
  rw [patches_append] at hq h2e ⊢
  obtain ⟨htext, hlen⟩ := Patch.applyFrom_split hq ht
  obtain ⟨hfG, hf2⟩ := Patch.fits_append.1 hq
  rw [endFrom_of_getLast? hG] at htext hlen hfG hf2
  have hGle := hfG.le
  have h2le := hf2.le
  have hlent : ((t.take (last.replaceRange.endExclusive - b).toNat).length : Int) =
      last.replaceRange.endExclusive - b := Cut.length_take (by omega) (by omega)
  have hlend : ((t.drop (last.replaceRange.endExclusive - b).toNat).length : Int) =
      e - last.replaceRange.endExclusive := by rw [Cut.length_drop] <;> omega
  obtain ⟨y, hy⟩ := applyFrom_ends_with hG hfG hlent
  rw [htext] at h2e ⊢
  rw [hy] at hlen h2e ⊢
  have hylen : ((y ++ last.newText).length : Int) = y.length + last.newText.length := by simp
  rcases hq' with ⟨hneg, rfl, rfl⟩ | ⟨h, hpos, rfl, rfl⟩
  · -- `r2` ends in the base text behind the last intersecting replacement
    have hce : r2.replaceRange.endExclusive - d' ≤ e := by
      cases q' with
      | nil =>
        simp only [patches_nil, Patch.applyFrom_nil, length_append, Nat.cast_add] at h2e
        omega
      | cons r q' =>
        have h₁ := hhead r rfl
        have h₂ := hf2.2.1
        have h₃ := hf2.2.2.le
        simp only [toPatch_start, toPatch_stop] at h₂ h₃
        omega
    have hfc : Patch.Fits (r2.replaceRange.endExclusive - d') e (patches q') := by
      refine hf2.advance hce fun p hp => ?_
      cases q' with
      | nil => cases hp
      | cons r q' =>
        have := hhead r rfl
        cases hp
        simp only [toPatch_start]
        omega
    refine ⟨by omega, hfc, ?_⟩
    rw [Cut.drop_append_right (by rw [length_append]; omega),
      Patch.applyFrom_advance (b := last.replaceRange.endExclusive) (by omega) (by omega) hfc,
      Cut.drop_append_right (by rw [Cut.length_take] <;> omega),
      Cut.drop_drop (by omega) (by omega), Cut.length_take (by omega) (by omega)]
    have hzero : (r2.replaceRange.endExclusive - (b + d) - ((y ++ last.newText).length : Int) -
        (r2.replaceRange.endExclusive - d' - last.replaceRange.endExclusive)).toNat = 0 := by omega
    rw [hzero, drop_zero]
    congr 3
    omega
  · -- the tail of the last intersecting replacement goes back on the queue
    have hc : r2.replaceRange.endExclusive - (d2 - (last.replaceRange.endExclusive + d2 -
        r2.replaceRange.endExclusive)) = last.replaceRange.endExclusive := by omega
    rw [hc]
    refine ⟨le_refl _, ⟨le_refl _, le_refl _, hf2⟩, ?_⟩
    rw [patches_cons, Patch.applyFrom_cons]
    simp only [toPatch_start, toPatch_stop, toPatch_text]
    rw [slice_newText _ _ _ (by simp only; omega) (le_refl _)]
    simp only [slice_replaceRange, OffsetRange.emptyAt_start, OffsetRange.emptyAt_endExclusive,
      sub_self, Int.toNat_zero, take_zero, nil_append, drop_zero]
    rw [Cut.drop_append_left (by rw [length_append]; omega),
      Cut.drop_append_right (by omega), Cut.take_eq_self (by rw [Cut.length_drop] <;> omega)]
    congr 3
    omega

theorem stepSpec_group {c newStart : Int} {pre : List StringReplacement}
    (ht : (t.length : Int) = e - b) (hpre : Patch.Fits b newStart (patches pre))
    (hnc : newStart ≤ c) (hq' : Patch.Fits c e (patches q'))
    (hc : c + d' = r2.replaceRange.endExclusive)
    (htext : Patch.applyFrom b (patches pre) (t.take (newStart - b).toNat) =
    (Patch.applyFrom b (patches q) t).take (r2.replaceRange.start - (b + d)).toNat)
    (hrest : Patch.applyFrom c (patches q') (t.drop (c - b).toNat) =
    (Patch.applyFrom b (patches q) t).drop (r2.replaceRange.endExclusive - (b + d)).toNat) :
    StepSpec b e d q r2 t (pre ++ [⟨⟨newStart, c, hnc⟩, r2.newText⟩]) c q' d' := by
  have hbn := hpre.le
  have hce := hq'.le
  have hmid : Patch.Fits newStart c (patches [⟨⟨newStart, c, hnc⟩, r2.newText⟩]) :=
    ⟨le_refl _, hnc, le_refl _⟩
  have hlen : ((t.take (newStart - b).toNat).length : Int) = newStart - b :=
    Cut.length_take (by omega) (by omega)
  have hsplit : t.take (c - b).toNat =
      t.take (newStart - b).toNat ++ (t.take (c - b).toNat).drop (newStart - b).toNat := by
    rw [← Cut.take_take (x := t) (n := newStart - b) (m := c - b) (by omega),
      take_append_drop]
  refine ⟨?_, hq', hc, ?_, hrest⟩
  · rw [patches_append]
    exact hpre.append hmid
  · rw [patches_append, hsplit, Patch.applyFrom_append_patches hlen hpre hmid, htext]
    congr 1
    simp only [patches_cons, patches_nil, Patch.applyFrom_cons, Patch.applyFrom_nil, toPatch_start,
      toPatch_stop, toPatch_text, sub_self, Int.toNat_zero, take_zero, nil_append]
    rw [Cut.drop_drop (by omega) (by omega),
      Cut.drop_eq_nil (by rw [Cut.length_take] <;> omega), append_nil]

theorem pushPrefix_eq
    (first : StringReplacement) (newStart len : Int) (result : List StringReplacement) :
    ∃ pre, pushPrefix first newStart len result = .ok (result ++ pre) ∧ ((len ≤ 0 ∧ pre = []) ∨ ∃ h,
    pre = [BaseReplacement.slice first (OffsetRange.emptyAt newStart) ⟨0, len, h⟩]) := by
  unfold pushPrefix
  split_ifs with h
  · have h0 : 0 ≤ len := le_of_lt h
    exact ⟨_, by rw [OffsetRange.new_eq_ok h0]; rfl, Or.inr ⟨h0, rfl⟩⟩
  · exact ⟨[], by simp [pure, Except.pure], Or.inl ⟨by omega, rfl⟩⟩

theorem unshiftSuffix_eq (last : StringReplacement)
    (len : Int) (q2 : List StringReplacement) (d2 : Int) (hlen : len ≤ last.newText.length) :
    ∃ q' d', unshiftSuffix last len q2 d2 = .ok (q', d') ∧ ((len ≤ 0 ∧ q' = q2 ∧ d' = d2) ∨ ∃ h,
    0 < len ∧ q' = BaseReplacement.slice last (OffsetRange.emptyAt last.replaceRange.endExclusive)
    ⟨last.newText.length - len, last.newText.length, h⟩ :: q2 ∧ d' = d2 - len) := by
  unfold unshiftSuffix
  split_ifs with h
  · have hr : last.replaceRange.endExclusive ≤ last.replaceRange.endExclusive + 0 := by omega
    have hc : (last.newText.length : Int) - len ≤ last.newText.length := by omega
    have htext := slice_newText last (OffsetRange.emptyAt last.replaceRange.endExclusive)
      ⟨last.newText.length - len, last.newText.length, hc⟩ (by simp only; omega) (le_refl _)
    have hrange : (⟨_, _, hr⟩ : OffsetRange) =
        OffsetRange.emptyAt last.replaceRange.endExclusive := by simp [OffsetRange.emptyAt]
    refine ⟨_, _, ?_, Or.inr ⟨hc, h, rfl, rfl⟩⟩
    simp only [OffsetRange.ofStartAndLength, OffsetRange.new_eq_ok hr, replaceRange_eq,
      getNewLength_eq, OffsetRange.new_eq_ok hc, bind, Except.bind, pure, Except.pure, hrange,
      slice_replaceRange, htext]
    congr 3
    simp only [OffsetRange.length, OffsetRange.emptyAt, List.length_take, List.length_drop]
    omega
  · exact ⟨q2, d2, rfl, Or.inl ⟨by omega, rfl, rfl⟩⟩

theorem composeStep_spec (result : List StringReplacement) (hq : Patch.Fits b e (patches q))
    (ht : (t.length : Int) = e - b) (h2 : b + d ≤ r2.replaceRange.start)
    (h2e : r2.replaceRange.endExclusive ≤ b + d + (Patch.applyFrom b (patches q) t).length) :
    ∃ out c s, composeStep r2 ⟨q, d, result⟩ = .ok s ∧ s.result = result ++ out ∧
      StepSpec b e d q r2 t out c s.edit1Queue s.edit1ToEdit2 := by
  have hle2 := r2.replaceRange.le
  obtain ⟨A, hqA, hres, hd, hend, hhead⟩ :=
    copyUntouched_spec r2.replaceRange.start q d result hq h2
  simp only [composeStep, replaceRange_eq, getNewLength_eq]
  generalize copyUntouched r2.replaceRange.start q d result = cu at *
  obtain ⟨q1, d1, result1⟩ := cu
  simp only at hqA hres hd hend hhead ⊢
  subst hqA hres hd
  -- the copied part is run first; the rest is a step from its end
  obtain ⟨hAf, hqf⟩ := Patch.fits_append.1 (by simpa using hq)
  obtain ⟨htext, hlen⟩ := Patch.applyFrom_split (by simpa using hq) ht
  have hAle := hAf.le
  have hqle := hqf.le
  have ht1 : ((t.drop (Patch.endFrom b (patches A) - b).toNat).length : Int) =
      e - Patch.endFrom b (patches A) := by rw [Cut.length_drop] <;> omega
  rw [patches_append, htext, length_append, Nat.cast_add] at h2e
  have h2e1 : r2.replaceRange.endExclusive ≤ Patch.endFrom b (patches A) +
      (d + Patch.lengthDelta (patches A)) + (Patch.applyFrom (Patch.endFrom b (patches A))
        (patches q1) (t.drop (Patch.endFrom b (patches A) - b).toNat)).length := by omega
  suffices h : ∃ out c s, (_ : Except BugIndicatingError (ComposeState StringReplacement)) = .ok s ∧
      s.result = result ++ A ++ out ∧
      StepSpec (Patch.endFrom b (patches A)) e (d + Patch.lengthDelta (patches A)) q1 r2
        (t.drop (Patch.endFrom b (patches A) - b).toNat) out c s.edit1Queue s.edit1ToEdit2 by
    obtain ⟨out, c, s, hs, hout, hspec⟩ := h
    exact ⟨A ++ out, c, s, hs, by rw [hout, append_assoc], hspec.prepend hq ht hend⟩
  generalize t.drop (Patch.endFrom b (patches A) - b).toNat = t1 at *
  generalize d + Patch.lengthDelta (patches A) = d1 at *
  generalize Patch.endFrom b (patches A) = m at *
  obtain ⟨G, hG, hd2, hfirst, hlast, hlastend, hhead2⟩ :=
    collectIntersecting_spec r2.replaceRange.endExclusive q1 d1 none none
  generalize collectIntersecting r2.replaceRange.endExclusive q1 d1 none none = i at *
  obtain ⟨q2, d2, first, last⟩ := i
  simp only [Option.none_or, Option.or_none] at hG hd2 hfirst hlast hlastend hhead2 ⊢
  subst hG hd2
  cases G with
  | nil =>
    subst hfirst hlast
    simp only [head?_nil, delta_eq_ok, bind, Except.bind, pure, Except.pure]
    refine ⟨_, r2.replaceRange.endExclusive - d1, _, rfl, rfl, ?_⟩
    simpa using stepSpec_disjoint hqf ht1 hend h2e1 (by simpa using hhead2)
  | cons g G =>
    obtain ⟨l, hl⟩ : ∃ l, (g :: G).getLast? = some l := by
      rw [getLast?_cons]
      exact ⟨_, rfl⟩
    rw [hl] at hlast
    subst hfirst hlast
    have hfirstle := hhead g rfl
    have hlastle := hlastend l (by simpa using hl)
    obtain ⟨pre, hpush, hpre⟩ := pushPrefix_eq g (min g.replaceRange.start
      (r2.replaceRange.start - d1)) (r2.replaceRange.start - (g.replaceRange.start + d1))
      (result ++ A)
    obtain ⟨q', d', hun, hq'⟩ := unshiftSuffix_eq l (l.replaceRange.endExclusive +
      (d1 + Patch.lengthDelta (patches (g :: G))) - r2.replaceRange.endExclusive) q2
      (d1 + Patch.lengthDelta (patches (g :: G))) (by omega)
    obtain ⟨hprefits, hpretext⟩ := prefix_spec hqf ht1 hend hfirstle rfl hpre
    obtain ⟨hlc, hfc, hrest⟩ := suffix_spec hqf ht1 hl h2e1 rfl hlastle hhead2 hq'
    have hgl : g.replaceRange.start ≤ l.replaceRange.endExclusive := by
      rw [patches_append] at hqf
      have h₁ := (Patch.fits_append.1 hqf).1
      rw [endFrom_of_getLast? hl] at h₁
      exact le_trans h₁.2.1 h₁.2.2.le
    have hnc : min g.replaceRange.start (r2.replaceRange.start - d1) ≤
        r2.replaceRange.endExclusive - d' := by omega
    have hzero : (0 : Int) ≤ r2.newText.length := by omega
    have hmid : BaseReplacement.slice r2 ⟨_, _, hnc⟩ ⟨0, r2.newText.length, hzero⟩ =
        ⟨⟨_, _, hnc⟩, r2.newText⟩ :=
      congrArg (StringReplacement.mk ⟨_, _, hnc⟩) (slice_whole r2 ⟨_, _, hnc⟩ hzero)
    simp only [head?_cons, hpush, hun, OffsetRange.new_eq_ok hnc,
      OffsetRange.new_eq_ok hzero, hmid, bind, Except.bind, pure, Except.pure]
    refine ⟨_, r2.replaceRange.endExclusive - d', _, rfl, by rw [append_assoc], ?_⟩
    exact stepSpec_group ht1 hprefits hnc hfc (sub_add_cancel _ _) hpretext hrest

theorem composeLoop_spec {rs2 : List StringReplacement} (result : List StringReplacement)
    (hq : Patch.Fits b e (patches q)) (ht : (t.length : Int) = e - b)
    (h2 : Patch.Fits (b + d) (b + d + (Patch.applyFrom b (patches q) t).length) (patches rs2)) :
    ∃ out s, composeLoop rs2 ⟨q, d, result⟩ = .ok s ∧ s.result = result ++ out ∧ Patch.Fits b e
    (patches (out ++ s.edit1Queue)) ∧ Patch.applyFrom b (patches (out ++ s.edit1Queue)) t =
    Patch.applyFrom (b + d) (patches rs2) (Patch.applyFrom b (patches q) t) := by
  induction rs2 generalizing b d q result t with
  | nil => exact ⟨[], _, rfl, by simp, hq, rfl⟩
  | cons r2 rs2 ih =>
    rw [patches_cons, Patch.fits_cons] at h2
    obtain ⟨h₁, h₂, h₃⟩ := h2
    simp only [toPatch_start, toPatch_stop] at h₁ h₂ h₃
    have h₃le := h₃.le
    obtain ⟨out, c, s, hs, hout, hspec⟩ := composeStep_spec result hq ht h₁ h₃le
    obtain ⟨q', d', result'⟩ := s
    obtain ⟨hof, hqf, hcur, hotext, hqtext⟩ := hspec
    simp only at hout hqf hcur hqtext
    have hole := hof.le
    have hqle := hqf.le
    have ht' : ((t.drop (c - b).toNat).length : Int) = e - c := by rw [Cut.length_drop] <;> omega
    have hlen : ((Patch.applyFrom c (patches q') (t.drop (c - b).toNat)).length : Int) =
        (Patch.applyFrom b (patches q) t).length - (r2.replaceRange.endExclusive - (b + d)) := by
      rw [hqtext, Cut.length_drop] <;> omega
    have hrest : Patch.Fits (c + d')
        (c + d' + (Patch.applyFrom c (patches q') (t.drop (c - b).toNat)).length)
        (patches rs2) := by
      rw [hcur, hlen]
      convert h₃ using 1
      omega
    obtain ⟨out', s', hs', hout', hfits, htext⟩ := ih result' hqf ht' hrest
    refine ⟨out ++ out', s', ?_, by rw [hout', hout, append_assoc], ?_, ?_⟩
    · simp only [composeLoop, hs, bind, Except.bind, hs']
    · rw [append_assoc, patches_append]
      exact hof.append hfits
    · have htc : ((t.take (c - b).toNat).length : Int) = c - b :=
        Cut.length_take (by omega) (by omega)
      conv_lhs => rw [← take_append_drop (c - b).toNat t]
      rw [append_assoc, patches_append, Patch.applyFrom_append_patches htc hof hfits, htext,
        hcur, hotext, hqtext, patches_cons, Patch.applyFrom_cons]
      rfl

theorem compose_spec
    (e1 e2 : StringEdit) {s : JsString} (h1 : LiesIn e1 s) (h2 : LiesIn e2 (apply e1 s)) :
    ∃ e : StringEdit, e1.compose e2 = .ok e ∧ LiesIn e s ∧ apply e s = apply e2 (apply e1 s) := by
  obtain ⟨n1, hn1, heff1⟩ := normalize_spec e1
  obtain ⟨n2, hn2, heff2⟩ := normalize_spec e2
  have hs : ((s.length : Nat) : Int) = s.length - 0 := by omega
  obtain ⟨hf1, ht1⟩ := heff1 0 s.length s hs h1.fits
  have hs1 : ((apply e1 s).length : Int) = (apply e1 s).length - 0 := by omega
  obtain ⟨hf2, ht2⟩ := heff2 0 _ _ hs1 h2.fits
  rw [← apply_eq h1] at ht1
  rw [← apply_eq h2] at ht2
  have hl1 : LiesIn n1 s := fun r hr => mem_of_fits hf1 hr
  have hl2 : LiesIn n2 (apply e1 s) := fun r hr => mem_of_fits hf2 hr
  by_cases hempty1 : n1.isEmpty
  · -- nothing in the first edit: the second one is the composition
    have hnil : n1.replacements = [] := by simpa [isEmpty] using hempty1
    have hid : apply e1 s = s := by rw [← ht1, hnil]; rfl
    refine ⟨n2, ?_, by rwa [hid] at hl2, ?_⟩
    · simp [compose, hn1, hn2, hempty1, bind, Except.bind, pure, Except.pure]
    · rw [hid] at hl2 ht2 ⊢
      rw [apply_eq hl2, ht2]
  by_cases hempty2 : n2.isEmpty
  · have hnil : n2.replacements = [] := by simpa [isEmpty] using hempty2
    have hid : apply e2 (apply e1 s) = apply e1 s := by rw [← ht2, hnil]; rfl
    refine ⟨n1, ?_, hl1, ?_⟩
    · simp [compose, hn1, hn2, hempty1, hempty2, bind, Except.bind, pure, Except.pure]
    · rw [hid, apply_eq hl1, ht1]
  · have hf2' : Patch.Fits (0 + 0)
        (0 + 0 + (Patch.applyFrom 0 (patches n1.replacements) s).length)
        (patches n2.replacements) := by
      rw [ht1]
      simpa using hf2
    obtain ⟨out, st, hst, hout, hfits, htext⟩ := composeLoop_spec [] hf1 hs hf2'
    rw [nil_append] at hout
    have hsort := unsorted_of_fits (show (-1 : Int) ≤ 0 by omega) hfits
    obtain ⟨m, hm, heff⟩ := normalize_spec ⟨out ++ st.edit1Queue, hsort⟩
    obtain ⟨hmf, hmt⟩ := heff 0 s.length s hs hfits
    have hlm : LiesIn m s := fun r hr => mem_of_fits hmf hr
    refine ⟨m, ?_, hlm, ?_⟩
    · simp [compose, hn1, hn2, hempty1, hempty2, hst, hout, BaseEdit.new_eq_ok hsort, hm, bind,
        Except.bind]
    · rw [apply_eq hlm, hmt, htext, ht1, ← ht2]
      rfl

end CodeOss.StringEdit
