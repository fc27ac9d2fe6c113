import CodeOss.Edits.StringEditPatches
import CodeOss.Library.PatchNormal

/-! The normal form of a string edit is canonical. -/

namespace CodeOss
namespace StringEdit

open StringReplacement

/-- The two lists do the same to every string, even to one that they do not lie in. -/
def SameText (out rs : List StringReplacement) : Prop :=
  ∀ pos, unsorted? pos rs = none → unsorted? pos out = none ∧
    ∀ base acc, applyLoop base out pos acc = applyLoop base rs pos acc

variable {rs : List StringReplacement}

theorem unsorted_cons {pos : Int} {r : StringReplacement} :
    unsorted? pos (r :: rs) = none ↔ pos ≤ r.replaceRange.start ∧
      unsorted? r.replaceRange.endExclusive rs = none := by
  simp only [unsorted?, replaceRange_eq]
  split_ifs with h <;> simp [h]

theorem SameText.cons (r : StringReplacement) {out rs : List StringReplacement}
    (h : SameText out rs) : SameText (r :: out) (r :: rs) := by
  intro pos hsort
  rw [unsorted_cons] at hsort
  obtain ⟨hout, htext⟩ := h _ hsort.2
  exact ⟨unsorted_cons.2 ⟨hsort.1, hout⟩, fun base acc => htext base _⟩

theorem applyLoop_advance {pos next : Int} (h : pos ≤ next)
    (hsort : unsorted? next rs = none) (base acc : JsString) :
    applyLoop base rs next (acc ++ base.substring pos next) = applyLoop base rs pos acc := by
  cases rs with
  | nil =>
    rw [applyLoop, applyLoop, List.append_assoc, JsString.substring_append_substringFrom base h]
  | cons r rs =>
    rw [applyLoop, applyLoop, List.append_assoc acc,
      JsString.substring_append_substring base h (unsorted_cons.1 hsort).1]

theorem sameText_drop_empty {r : StringReplacement} (rs : List StringReplacement)
    (hlen : (r.newText.length : Int) = 0) (hrange : r.replaceRange.length = 0) :
    SameText rs (r :: rs) := by
  intro pos hsort
  obtain ⟨hpos, hrest⟩ := unsorted_cons.1 hsort
  have hstop : r.replaceRange.endExclusive = r.replaceRange.start := by
    simp only [OffsetRange.length] at hrange
    omega
  have htext : r.newText = [] := List.eq_nil_of_length_eq_zero (by omega)
  rw [hstop] at hrest
  refine ⟨?_, fun base acc => ?_⟩
  · cases rs with
    | nil => rfl
    | cons q rs =>
      rw [unsorted_cons] at hrest ⊢
      exact ⟨by omega, hrest.2⟩
  · rw [applyLoop, htext, List.append_nil, hstop, applyLoop_advance hpos hrest]

theorem sameText_join {r s j : StringReplacement}
    (rs : List StringReplacement) (h : r.replaceRange.endExclusive = s.replaceRange.start)
    (hj : j.toPatch = ⟨r.replaceRange.start, s.replaceRange.endExclusive, r.newText ++ s.newText⟩) :
    SameText (j :: rs) (r :: s :: rs) := by
  intro pos hsort
  obtain ⟨hpos, hrest⟩ := unsorted_cons.1 hsort
  obtain ⟨hle, hrest⟩ := unsorted_cons.1 hrest
  rw [Patch.mk.injEq] at hj
  obtain ⟨hstart, hstop, htext⟩ := hj
  simp only [toPatch_start, toPatch_stop, toPatch_text] at hstart hstop htext
  refine ⟨unsorted_cons.2 ⟨hstart ▸ hpos, hstop ▸ hrest⟩, fun base acc => ?_⟩
  have hnone : base.substring r.replaceRange.endExclusive s.replaceRange.start = [] := by
    rw [h, JsString.substring_of_le base le_rfl, Nat.sub_self, List.take_zero]
  simp only [applyLoop, hstart, hstop, htext, hnone, List.append_nil, List.append_assoc]

theorem normalizeLoop_sameText (rs acc : List StringReplacement) (last : Option StringReplacement) :
    ∃ out, BaseEdit.normalizeLoop rs acc last = .ok (acc ++ out) ∧
    SameText out (last.toList ++ rs) :=
  normalizeLoop_rel (fun _ _ h => ⟨h, fun _ _ => rfl⟩)
    (fun h₁ h₂ pos hsort =>
      have hmid := h₂ pos hsort
      have hout := h₁ pos hmid.1
      ⟨hout.1, fun base acc => (hout.2 base acc).trans (hmid.2 base acc)⟩)
    SameText.cons sameText_drop_empty sameText_join rs acc last

theorem applyLoop_start (base : JsString) (rs : List StringReplacement) (acc : JsString) :
    applyLoop base rs (-1) acc = applyLoop base rs 0 acc := by
  have hclamp : base.clamp (-1) = base.clamp 0 := by simp [JsString.clamp]
  cases rs with
  | nil => rw [applyLoop, applyLoop, JsString.substringFrom, JsString.substringFrom, hclamp]
  | cons r rs => rw [applyLoop, applyLoop, JsString.substring, JsString.substring, hclamp]

theorem apply_normalize {e n : StringEdit} (h : e.normalize = .ok n) (s : JsString) :
    apply n s = apply e s := by
  obtain ⟨out, hout, htext⟩ := normalizeLoop_sameText e.replacements [] none
  obtain ⟨hsort, htext⟩ := htext (-1) e.sorted
  have hn : e.normalize = .ok ⟨out, hsort⟩ := by
    simp only [BaseEdit.normalize, hout, bind, Except.bind]
    exact BaseEdit.new_eq_ok hsort
  obtain rfl := Except.ok.inj (hn.symm.trans h)
  rw [apply, apply, ← applyLoop_start, htext s [], ← applyLoop_start]
  rfl

theorem normalizeLoop_normal {rs out : List StringReplacement} (acc : List StringReplacement)
    (last : Option StringReplacement) (pos : Int) (hfirst : last = none → acc = [])
    (hsort : unsorted? pos (last.toList ++ rs) = none)
    (hnormal : Patch.Normal (patches (acc ++ last.toList)))
    (h : BaseEdit.normalizeLoop rs acc last = .ok out) : Patch.Normal (patches out) := by
  induction rs generalizing acc last pos with
  | nil =>
    obtain rfl := Except.ok.inj h
    exact hnormal
  | cons r rs ih =>
    simp only [BaseEdit.normalizeLoop, getNewLength_eq, replaceRange_eq] at h
    split_ifs at h with hempty
    · refine ih acc last pos hfirst ?_ hnormal h
      have hdrop := sameText_drop_empty rs hempty.1 hempty.2
      cases last with
      | none => exact (hdrop pos hsort).1
      | some l => exact (hdrop.cons l pos hsort).1
    · have hacts : r.toPatch.Acts := by
        have hle := r.replaceRange.le
        by_contra hnot
        simp only [Patch.Acts, toPatch_start, toPatch_stop, toPatch_text, not_or, not_lt,
          not_not] at hnot
        exact hempty ⟨by rw [hnot.2]; rfl, by simp only [OffsetRange.length]; omega⟩
      cases last with
      | none =>
        obtain rfl := hfirst rfl
        exact ih [] (some r) pos (fun h => absurd h (Option.some_ne_none r)) hsort
          ⟨hacts, by simp, trivial⟩ h
      | some l =>
        have hboth : unsorted? pos (l :: r :: rs) = none := hsort
        obtain ⟨hpos, hrest⟩ := unsorted_cons.1 hboth
        have hle := (unsorted_cons.1 hrest).1
        simp only [Option.toList_some, patches_append, patches_cons, patches_nil] at hnormal
        obtain ⟨hacc, hlast, hl⟩ := Patch.normal_append_singleton.1 hnormal
        have hpush : l.replaceRange.endExclusive ≠ r.replaceRange.start →
            BaseEdit.normalizeLoop rs (acc ++ [l]) (some r) = .ok out →
            Patch.Normal (patches out) := by
          intro happart hloop
          refine ih (acc ++ [l]) (some r) l.replaceRange.endExclusive
            (fun h => absurd h (Option.some_ne_none r)) hrest ?_ hloop
          simp only [Option.toList_some, patches_append, patches_cons, patches_nil]
          refine Patch.normal_append_singleton.2 ⟨hnormal, ?_, hacts⟩
          intro q hq
          rw [List.getLast?_concat, Option.mem_some_iff] at hq
          subst hq
          simp only [toPatch_start, toPatch_stop]
          omega
        simp only at h
        split_ifs at h with htouch
        · obtain ⟨j, hj, hpatch⟩ := tryJoinTouching_eq_ok htouch
          simp only [tryJoinTouching_eq, hj, bind, Except.bind] at h
          refine ih acc (some j) pos (fun h => absurd h (Option.some_ne_none j))
            (sameText_join rs htouch hpatch pos hboth).1 ?_ h
          simp only [Option.toList_some, patches_append, patches_cons, patches_nil, hpatch]
          refine Patch.normal_append_singleton.2 ⟨hacc, hlast, ?_⟩
          rcases hl with hdelete | hinsert
          · refine .inl ?_
            have := r.replaceRange.le
            simp only [toPatch_start, toPatch_stop] at hdelete ⊢
            omega
          · exact .inr (List.append_ne_nil_of_left_ne_nil hinsert _)
        · exact hpush htouch h

theorem normalize_normal {e n : StringEdit} (h : e.normalize = .ok n) :
    Patch.Normal (patches n.replacements) := by
  obtain ⟨out, hout, htext⟩ := normalizeLoop_sameText e.replacements [] none
  simp only [BaseEdit.normalize, hout, bind, Except.bind, List.nil_append] at h
  rw [BaseEdit.new_eq_ok (htext (-1) e.sorted).1, Except.ok.injEq] at h
  subst h
  exact normalizeLoop_normal [] none (-1) (fun _ => rfl) e.sorted trivial hout

theorem patches_injective {rs qs : List StringReplacement} (h : patches rs = patches qs) :
    rs = qs := by
  refine List.map_injective_iff.2 (fun r q hrq => ?_) h
  obtain ⟨⟨start, stop, hle⟩, text⟩ := r
  obtain ⟨⟨start', stop', hle'⟩, text'⟩ := q
  simp only [toPatch, Patch.mk.injEq] at hrq
  obtain ⟨rfl, rfl, rfl⟩ := hrq
  rfl

/-- Two edits of a string have the same normal form if and only if they do the same to all strings
that contain their ranges; two letters are enough to tell them apart. Normalizing does not change
what becomes of any string. -/
theorem normalize_canonical :
    (∀ (e1 e2 : StringEdit) (base : JsString), LiesIn e1 base → LiesIn e2 base →
      ∀ A : Set CodeUnit, A.Nontrivial → ∃ n1 n2 : StringEdit,
        e1.normalize = .ok n1 ∧ e2.normalize = .ok n2 ∧
        (n1 = n2 ↔ ∀ s : JsString, (∀ u ∈ s, u ∈ A) → LiesIn e1 s → LiesIn e2 s →
          apply e1 s = apply e2 s)) ∧
    ∀ (e : StringEdit) (s : JsString), ∃ n : StringEdit, e.normalize = .ok n ∧
      apply n s = apply e s := by
  constructor
  · intro e1 e2 base h1 h2 A hA
    obtain ⟨n1, hn1, heff1⟩ := normalize_spec e1
    obtain ⟨n2, hn2, heff2⟩ := normalize_spec e2
    refine ⟨n1, n2, hn1, hn2, ?_, fun h => ?_⟩
    · rintro rfl s - - -
      rw [← apply_normalize hn1, apply_normalize hn2]
    · -- The strings over `A` that are as long as `base` are enough.
      have hbase : (base.length : Int) = base.length - 0 := by omega
      obtain ⟨hfits1, -⟩ := heff1 0 base.length base hbase h1.fits
      obtain ⟨hfits2, -⟩ := heff2 0 base.length base hbase h2.fits
      have hsame : Patch.SameOn A 0 base.length (patches n1.replacements)
          (patches n2.replacements) := by
        intro t ht hlen
        have hlength : t.length = base.length := by omega
        have ht1 : LiesIn e1 t := fun r hr => by rw [hlength]; exact h1 r hr
        have ht2 : LiesIn e2 t := fun r hr => by rw [hlength]; exact h2 r hr
        have hboth := h t ht ht1 ht2
        rw [apply_eq ht1, apply_eq ht2] at hboth
        rw [(heff1 0 base.length t hlen h1.fits).2, (heff2 0 base.length t hlen h2.fits).2, hboth]
      have heq := patches_injective (Patch.eq_of_sameOn hA hfits1 (normalize_normal hn1) hfits2
        (normalize_normal hn2) hsame)
      cases n1
      cases n2
      simp_all
  · intro e s
    obtain ⟨n, hn, -⟩ := normalize_spec e
    exact ⟨n, hn, apply_normalize hn s⟩

/-- Two touching replacements and the one that they are joined to. -/
theorem normalize_canonical_at_touching :
    ∃ n1 n2 : StringEdit,
      BaseEdit.normalize ⟨[⟨⟨0, 1, by decide⟩, [97]⟩, ⟨⟨1, 1, by decide⟩, [98]⟩], rfl⟩ = .ok n1 ∧
      BaseEdit.normalize ⟨[⟨⟨0, 1, by decide⟩, [97, 98]⟩], rfl⟩ = .ok n2 ∧
      (n1 = n2 ↔ ∀ s : JsString, (∀ u ∈ s, u ∈ ({97, 98} : Set CodeUnit)) →
        LiesIn ⟨[⟨⟨0, 1, by decide⟩, [97]⟩, ⟨⟨1, 1, by decide⟩, [98]⟩], rfl⟩ s →
        LiesIn ⟨[⟨⟨0, 1, by decide⟩, [97, 98]⟩], rfl⟩ s →
          apply ⟨[⟨⟨0, 1, by decide⟩, [97]⟩, ⟨⟨1, 1, by decide⟩, [98]⟩], rfl⟩ s =
            apply ⟨[⟨⟨0, 1, by decide⟩, [97, 98]⟩], rfl⟩ s) :=
  normalize_canonical.1 _ _ [97] (by simp [LiesIn]) (by simp [LiesIn]) _
    ⟨97, by simp, 98, by simp, by decide⟩

end StringEdit
end CodeOss
