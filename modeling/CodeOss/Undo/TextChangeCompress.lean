import CodeOss.Undo.TextChange
import CodeOss.Library.Patch
import CodeOss.Library.Cut

/-! Compressing consecutive change lists keeps undo and redo exact.
`Describes b0 b1` reads a change list against the rests of the old and the new
document behind the offsets `b0` and `b1`; the compressor keeps three such rests. -/

namespace CodeOss

open List

namespace TextChange

/-- The change list turns the rest `t0` into `t1`, gap by gap. -/
def Describes (b0 b1 : Int) : List TextChange → JsString → JsString → Prop
  | [], t0, t1 => t0 = t1
  | c :: cs, t0, t1 => ∃ gap r0 r1, t0 = gap ++ (c.oldText ++ r0) ∧ t1 = gap ++ (c.newText ++ r1) ∧
      c.oldPosition = b0 + gap.length ∧ c.newPosition = b1 + gap.length ∧
      Describes c.oldEnd c.newEnd cs r0 r1

theorem append_eq_of_length_eq {α : Type} {a b c d : List α} (h : a ++ b = c ++ d)
    (hl : (a.length : Int) = c.length) : a = c ∧ b = d :=
  append_inj h (by omega)

theorem Describes.advance_new {b0 b1 : Int} {cs : List TextChange} {x t0 t1 : JsString}
    (h : Describes b0 b1 cs t0 (x ++ t1)) (hx : ∀ c ∈ cs.head?, b1 + x.length ≤ c.newPosition) :
    ∃ t0', t0 = x ++ t0' ∧ Describes (b0 + x.length) (b1 + x.length) cs t0' t1 := by
  cases cs with
  | nil => exact ⟨t1, h, rfl⟩
  | cons c cs =>
    obtain ⟨gap, r0, r1, h0, h1, ho, hn, hrest⟩ := h
    have hle := hx c rfl
    obtain ⟨gap', rfl⟩ : ∃ gap', gap = x ++ gap' :=
      append_eq_append_iff.1 h1 |>.elim (fun ⟨g, hg, _⟩ => ⟨g, hg⟩) fun ⟨g, hg, _⟩ => by
        have hnil : g = [] := by
          have := congrArg List.length hg
          simp only [length_append] at this
          exact eq_nil_of_length_eq_zero (by omega)
        exact ⟨[], by simp [hg, hnil]⟩
    refine ⟨gap' ++ (c.oldText ++ r0), by rw [h0, append_assoc], gap', r0, r1, rfl, ?_, ?_, ?_,
      hrest⟩
    · simpa using h1
    · rw [ho, length_append]
      omega
    · rw [hn, length_append]
      omega

theorem Describes.advance_old {b0 b1 : Int} {cs : List TextChange} {x t0 t1 : JsString}
    (h : Describes b0 b1 cs (x ++ t0) t1) (hx : ∀ c ∈ cs.head?, b0 + x.length ≤ c.oldPosition) :
    ∃ t1', t1 = x ++ t1' ∧ Describes (b0 + x.length) (b1 + x.length) cs t0 t1' := by
  cases cs with
  | nil => exact ⟨t0, h.symm, rfl⟩
  | cons c cs =>
    obtain ⟨gap, r0, r1, h0, h1, ho, hn, hrest⟩ := h
    have hle := hx c rfl
    obtain ⟨gap', rfl⟩ : ∃ gap', gap = x ++ gap' :=
      append_eq_append_iff.1 h0 |>.elim (fun ⟨g, hg, _⟩ => ⟨g, hg⟩) fun ⟨g, hg, _⟩ => by
        have hnil : g = [] := by
          have := congrArg List.length hg
          simp only [length_append] at this
          exact eq_nil_of_length_eq_zero (by omega)
        exact ⟨[], by simp [hg, hnil]⟩
    refine ⟨gap' ++ (c.newText ++ r1), by rw [h1, append_assoc], gap', r0, r1, ?_, rfl, ?_, ?_,
      hrest⟩
    · simpa using h0
    · rw [ho, length_append]
      omega
    · rw [hn, length_append]
      omega

end TextChange

namespace TextChangeCompressor
open TextChange

variable {b1 offset : Int} {c : TextChange} {cs : List TextChange} {t1 t2 : JsString} {b0 : Int}
  {p : TextChange} {ps : List TextChange} {t0 : JsString} {prev : List TextChange} {pd cd : Int}
  {loop result curr edits : List TextChange}

theorem splitCurr_describes {b2 : Int} (h : Describes b1 b2 (c :: cs) t1 t2) (h0 : 0 ≤ offset)
    (h1 : offset ≤ c.oldText.length) :
    Describes b1 b2 ((splitCurr c offset).1 :: (splitCurr c offset).2 :: cs) t1 t2 := by
  obtain ⟨gap, r1, r2, ht1, ht2, ho, hn, hrest⟩ := h
  have hcut : ((c.oldText.take offset.toNat).length : Int) = offset := Cut.length_take h0 h1
  have hdrop : ((c.oldText.drop offset.toNat).length : Int) = c.oldText.length - offset :=
    Cut.length_drop h0 h1
  refine ⟨gap, c.oldText.drop offset.toNat ++ r1, r2, ?_, ht2, ho, hn, [], r1, r2, rfl, rfl, ?_, ?_,
    ?_⟩
  · conv_lhs => rw [ht1, ← take_append_drop offset.toNat c.oldText, append_assoc]
    rfl
  · simp only [splitCurr, oldEnd, JsString.substr, drop_zero, hcut, length_nil]
    omega
  · simp only [splitCurr, newEnd, length_nil]
    omega
  · simp only [splitCurr, oldEnd, newEnd, hdrop, length_nil] at hrest ⊢
    convert hrest using 1 <;> omega

theorem splitPrev_describes (h : Describes b0 b1 (p :: ps) t0 t1) (h0 : 0 ≤ offset)
    (h1 : offset ≤ p.newText.length) :
    Describes b0 b1 ((splitPrev p offset).1 :: (splitPrev p offset).2 :: ps) t0 t1 := by
  obtain ⟨gap, r0, r1, ht0, ht1, ho, hn, hrest⟩ := h
  have hcut : ((p.newText.take offset.toNat).length : Int) = offset := Cut.length_take h0 h1
  have hdrop : ((p.newText.drop offset.toNat).length : Int) = p.newText.length - offset :=
    Cut.length_drop h0 h1
  refine ⟨gap, r0, p.newText.drop offset.toNat ++ r1, ht0, ?_, ho, hn, [], r0, r1, rfl, rfl, ?_, ?_,
    ?_⟩
  · conv_lhs => rw [ht1, ← take_append_drop offset.toNat p.newText, append_assoc]
    rfl
  · simp only [splitPrev, oldEnd, length_nil]
    omega
  · simp only [splitPrev, newEnd, JsString.substr, drop_zero, hcut, length_nil]
    omega
  · simp only [splitPrev, oldEnd, newEnd, hdrop, length_nil] at hrest ⊢
    convert hrest using 1 <;> omega

def Emits (prev curr : List TextChange) (pd cd : Int) (loop : List TextChange)
    (result : List TextChange) : Prop :=
  ∀ (b0 b1 b2 : Int) (t0 t1 t2 : JsString), Describes b0 b1 prev t0 t1 →
    Describes b1 b2 curr t1 t2 → pd = b1 - b0 → cd = b2 - b1 →
    ∃ out, loop = result ++ out ∧ Describes b0 b2 out t0 t2

theorem emits_acceptCurr (hc : ∀ p ∈ prev.head?, c.oldEnd ≤ p.newPosition)
    (h : Emits prev cs pd (cd + (c.newLength - c.oldLength)) loop (result ++ [rebaseCurr pd c])) :
    Emits prev (c :: cs) pd cd loop result := by
  intro b0 b1 b2 t0 t1 t2 hprev hcurr hpd hcd
  obtain ⟨gap, r1, r2, rfl, rfl, ho, hn, hrest⟩ := hcurr
  rw [← append_assoc] at hprev
  obtain ⟨t0', rfl, hprev'⟩ := hprev.advance_new (by
    intro p hp
    have := hc p hp
    simp only [oldEnd, length_append, Nat.cast_add] at *
    omega)
  obtain ⟨out, hout, hdesc⟩ := h _ _ _ _ _ _ hprev' (by
    convert hrest using 1
    simp only [oldEnd, length_append, Nat.cast_add]
    omega) (by omega) (by
    simp only [newLength, oldLength, newEnd, length_append, Nat.cast_add]
    omega)
  refine ⟨rebaseCurr pd c :: out, by rw [hout, append_assoc]; rfl, gap, t0', r2, by simp
    [rebaseCurr], rfl, ?_, hn, ?_⟩
  · simp only [rebaseCurr]
    omega
  · have hend : (rebaseCurr pd c).oldEnd = b0 + (gap ++ c.oldText).length := by
      simp only [rebaseCurr, oldEnd, length_append, Nat.cast_add]
      omega
    rw [hend]
    exact hdesc

theorem emits_acceptPrev (hp : ∀ c ∈ curr.head?, p.newEnd ≤ c.oldPosition)
    (h : Emits ps curr (pd + (p.newLength - p.oldLength)) cd loop (result ++ [rebasePrev cd p])) :
    Emits (p :: ps) curr pd cd loop result := by
  intro b0 b1 b2 t0 t1 t2 hprev hcurr hpd hcd
  obtain ⟨gap, r0, r1, rfl, rfl, ho, hn, hrest⟩ := hprev
  rw [← append_assoc] at hcurr
  obtain ⟨t2', rfl, hcurr'⟩ := hcurr.advance_old (by
    intro c hc
    have := hp c hc
    simp only [newEnd, length_append, Nat.cast_add] at *
    omega)
  obtain ⟨out, hout, hdesc⟩ := h _ _ _ _ _ _ (by
    convert hrest using 1
    simp only [newEnd, length_append, Nat.cast_add]
    omega) hcurr' (by
    simp only [newLength, oldLength, oldEnd, length_append, Nat.cast_add]
    omega) (by omega)
  refine ⟨rebasePrev cd p :: out, by rw [hout, append_assoc]; rfl, gap, r0, t2', rfl, by simp
    [rebasePrev], ho, ?_, ?_⟩
  · simp only [rebasePrev]
    omega
  · have hend : (rebasePrev cd p).newEnd = b2 + (gap ++ p.newText).length := by
      simp only [rebasePrev, newEnd, length_append, Nat.cast_add]
      omega
    rw [hend]
    exact hdesc

theorem emits_mergeBoth (hstart : p.newPosition = c.oldPosition) (hend : p.newEnd = c.oldEnd)
    (h : Emits ps cs (pd + (p.newLength - p.oldLength)) (cd + (c.newLength - c.oldLength)) loop
    (result ++ [⟨p.oldPosition, p.oldText, c.newPosition, c.newText⟩])) :
    Emits (p :: ps) (c :: cs) pd cd loop result := by
  intro b0 b1 b2 t0 t1 t2 hprev hcurr hpd hcd
  obtain ⟨gap, r0, r1, rfl, rfl, ho, hn, hrest⟩ := hprev
  obtain ⟨gap', r1', r2, heq, rfl, ho', hn', hrest'⟩ := hcurr
  simp only [newEnd, oldEnd] at hend
  obtain ⟨rfl, hrests⟩ := append_eq_of_length_eq heq (by omega)
  obtain ⟨-, rfl⟩ := append_eq_of_length_eq hrests (by omega)
  obtain ⟨out, hout, hdesc⟩ := h p.oldEnd p.newEnd c.newEnd r0 r1 r2 hrest (by
    convert hrest' using 1
    simp only [newEnd, oldEnd]
    omega) (by
    simp only [newLength, oldLength, newEnd, oldEnd]
    omega) (by
    simp only [newLength, oldLength, newEnd]
    omega)
  exact ⟨⟨p.oldPosition, p.oldText, c.newPosition, c.newText⟩ :: out,
    by rw [hout, append_assoc]; rfl, gap, r0, r2, rfl, rfl, ho, hn', hdesc⟩

theorem Emits.split_curr (h0 : 0 ≤ offset) (h1 : offset ≤ c.oldText.length)
    (h : Emits prev ((splitCurr c offset).1 :: (splitCurr c offset).2 :: cs) pd cd loop result) :
    Emits prev (c :: cs) pd cd loop result :=
  fun b0 b1 b2 t0 t1 t2 hprev hcurr => h b0 b1 b2 t0 t1 t2 hprev (splitCurr_describes hcurr h0 h1)

theorem Emits.split_prev (h0 : 0 ≤ offset) (h1 : offset ≤ p.newText.length)
    (h : Emits ((splitPrev p offset).1 :: (splitPrev p offset).2 :: ps) curr pd cd loop result) :
    Emits (p :: ps) curr pd cd loop result :=
  fun b0 b1 b2 t0 t1 t2 hprev => h b0 b1 b2 t0 t1 t2 (splitPrev_describes hprev h0 h1)

theorem emits_mergeStep (hstart : p.newPosition = c.oldPosition)
    (h : Emits (mergeStep p ps c cs).prevEdits (mergeStep p ps c cs).currEdits
    (pd + ((mergeStep p ps c cs).mergePrev.newLength - (mergeStep p ps c cs).mergePrev.oldLength))
    (cd + ((mergeStep p ps c cs).mergeCurr.newLength - (mergeStep p ps c cs).mergeCurr.oldLength))
    loop
    (result ++
    [⟨(mergeStep p ps c cs).mergePrev.oldPosition, (mergeStep p ps c cs).mergePrev.oldText,
    (mergeStep p ps c cs).mergeCurr.newPosition, (mergeStep p ps c cs).mergeCurr.newText⟩])) :
    Emits (p :: ps) (c :: cs) pd cd loop result := by
  unfold mergeStep at h
  split_ifs at h with heq hlt
  · exact emits_mergeBoth hstart heq.symm h
  · have hle : c.oldLength ≤ p.newText.length := by
      simp only [oldLength, oldEnd, newEnd] at *
      omega
    refine Emits.split_prev (Int.natCast_nonneg _) hle (emits_mergeBoth hstart ?_ h)
    simp only [splitPrev, newEnd, oldEnd, oldLength, JsString.substr, drop_zero] at *
    rw [Cut.length_take (Int.natCast_nonneg _) hle]
    omega
  · have hle : p.newLength ≤ c.oldText.length := by
      simp only [newLength, oldEnd, newEnd] at *
      omega
    refine Emits.split_curr (Int.natCast_nonneg _) hle (emits_mergeBoth hstart ?_ h)
    simp only [splitCurr, newEnd, oldEnd, newLength, JsString.substr, drop_zero] at *
    rw [Cut.length_take (Int.natCast_nonneg _) hle]
    omega

theorem emits_compressLoop (prev curr : List TextChange) (pd cd : Int) (result : List TextChange) :
    Emits prev curr pd cd (compressLoop prev curr pd cd result) result := by
  induction prev, curr, pd, cd, result using compressLoop.induct with
  | case1 pd cd result =>
    intro b0 b1 b2 t0 t1 t2 hprev hcurr _ _
    exact ⟨[], by rw [compressLoop, append_nil], hprev.trans hcurr⟩
  | case2 pd cd result c cs ih =>
    rw [compressLoop]
    exact emits_acceptCurr (by simp) ih
  | case3 pd cd result p ps ih =>
    rw [compressLoop]
    exact emits_acceptPrev (by simp) ih
  | case4 pd cd result p ps c cs hbefore ih =>
    rw [compressLoop, if_pos hbefore]
    exact emits_acceptCurr (by simpa using hbefore) ih
  | case5 pd cd result p ps c cs hbefore hafter ih =>
    rw [compressLoop, if_neg hbefore, if_pos hafter]
    exact emits_acceptPrev (by simpa using hafter) ih
  | case6 pd cd result p ps c cs hbefore hafter hlt e ih =>
    rw [compressLoop, if_neg hbefore, if_neg hafter, if_pos hlt]
    have hle : p.newPosition - c.oldPosition ≤ c.oldText.length := by
      simp only [oldEnd] at hbefore
      omega
    refine Emits.split_curr (by omega) hle (emits_acceptCurr ?_ ih)
    intro q hq
    obtain rfl : p = q := by simpa using hq
    simp only [splitCurr, oldEnd, JsString.substr, drop_zero]
    rw [Cut.length_take (by omega) hle]
    omega
  | case7 pd cd result p ps c cs hbefore hafter hnlt hlt e ih =>
    rw [compressLoop, if_neg hbefore, if_neg hafter, if_neg hnlt, if_pos hlt]
    have hle : c.oldPosition - p.newPosition ≤ p.newText.length := by
      simp only [newEnd] at hafter
      omega
    refine Emits.split_prev (by omega) hle (emits_acceptPrev ?_ ih)
    intro q hq
    obtain rfl : c = q := by simpa using hq
    simp only [splitPrev, newEnd, JsString.substr, drop_zero]
    rw [Cut.length_take (by omega) hle]
    omega
  | case8 pd cd result p ps c cs hbefore hafter hnlt hnlt' m ih =>
    rw [compressLoop, if_neg hbefore, if_neg hafter, if_neg hnlt, if_neg hnlt']
    exact emits_mergeStep (by omega) ih

theorem describes_compressLoop (hprev : Describes 0 0 prev t0 t1)
    (hcurr : Describes 0 0 curr t1 t2) :
    Describes 0 0 (compressLoop prev curr 0 0 []) t0 t2 := by
  obtain ⟨out, hout, hdesc⟩ :=
    emits_compressLoop prev curr 0 0 [] 0 0 0 t0 t1 t2 hprev hcurr rfl rfl
  rw [hout]
  exact hdesc

theorem describes_mergeLoop {prev : TextChange} (h : Describes b0 b1 (prev :: edits) t0 t1) :
    Describes b0 b1 (mergeLoop edits prev) t0 t1 := by
  induction edits generalizing b0 b1 prev t0 t1 with
  | nil => exact h
  | cons curr edits ih =>
    obtain ⟨gap, r0, r1, rfl, rfl, ho, hn, hrest⟩ := h
    rw [mergeLoop]
    split_ifs with htouch
    · obtain ⟨gap', s0, s1, rfl, rfl, ho', hn', hrest'⟩ := hrest
      obtain rfl : gap' = [] := eq_nil_of_length_eq_zero (by omega)
      refine ih ⟨gap, s0, s1, by simp, by simp, ho, hn, ?_⟩
      convert hrest' using 1
      · simp only [oldEnd, length_append, length_nil, Nat.cast_add] at *
        omega
      · simp only [newEnd, length_append, length_nil, Nat.cast_add] at *
        omega
    · exact ⟨gap, r0, r1, rfl, rfl, ho, hn, ih hrest⟩

theorem describes_merge (h : Describes b0 b1 edits t0 t1) :
    Describes b0 b1 (merge edits) t0 t1 := by
  cases edits with
  | nil => exact h
  | cons edit edits => exact describes_mergeLoop h

theorem Describes.widen {x : JsString} (h : Describes (b0 + x.length) (b1 + x.length) cs t0 t1) :
    Describes b0 b1 cs (x ++ t0) (x ++ t1) := by
  cases cs with
  | nil => exact congrArg (x ++ ·) h
  | cons c cs =>
    obtain ⟨gap, r0, r1, rfl, rfl, ho, hn, hrest⟩ := h
    refine ⟨x ++ gap, r0, r1, by simp, by simp, ?_, ?_, hrest⟩
    · rw [ho, length_append, Nat.cast_add]
      omega
    · rw [hn, length_append, Nat.cast_add]
      omega

theorem describes_removeNoOps (h : Describes b0 b1 edits t0 t1) :
    Describes b0 b1 (removeNoOps edits) t0 t1 := by
  induction edits generalizing b0 b1 t0 t1 with
  | nil => exact h
  | cons c cs ih =>
    obtain ⟨gap, r0, r1, rfl, rfl, ho, hn, hrest⟩ := h
    by_cases hnoop : c.oldText = c.newText
    · have hskip : removeNoOps (c :: cs) = removeNoOps cs := by simp [removeNoOps, hnoop]
      rw [hskip, ← append_assoc, ← append_assoc, ← hnoop]
      refine Describes.widen ?_
      convert ih hrest using 1
      · simp only [oldEnd, length_append, Nat.cast_add]
        omega
      · simp only [newEnd, ← hnoop, length_append, Nat.cast_add]
        omega
    · have hkeep : removeNoOps (c :: cs) = c :: removeNoOps cs := by simp [removeNoOps, hnoop]
      rw [hkeep]
      exact ⟨gap, r0, r1, rfl, rfl, ho, hn, ih hrest⟩

theorem describes_compress (hprev : Describes 0 0 prev t0 t1) (hcurr : Describes 0 0 curr t1 t2) :
    Describes 0 0 (compress prev curr) t0 t2 :=
  describes_removeNoOps (describes_merge (describes_compressLoop hprev hcurr))

end TextChangeCompressor

end CodeOss
