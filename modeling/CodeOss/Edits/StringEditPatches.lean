import CodeOss.Edits.Edit

/-! String edits as lists of patches: what `apply` and `normalize` do. -/

namespace CodeOss
open BaseReplacement

namespace StringReplacement

variable (r : StringReplacement)

def toPatch : Patch CodeUnit :=
  ⟨r.replaceRange.start, r.replaceRange.endExclusive, r.newText⟩

@[simp] theorem toPatch_start :
    r.toPatch.start = r.replaceRange.start := rfl

@[simp] theorem toPatch_stop :
    r.toPatch.stop = r.replaceRange.endExclusive := rfl

@[simp] theorem toPatch_text : r.toPatch.text = r.newText := rfl

@[simp] theorem replaceRange_eq :
    BaseReplacement.replaceRange r = r.replaceRange := rfl

@[simp] theorem getNewLength_eq :
    BaseReplacement.getNewLength r = (r.newText.length : Int) := rfl

@[simp] theorem tryJoinTouching_eq (r s : StringReplacement) :
    BaseReplacement.tryJoinTouching r s = r.tryJoinTouching s := rfl

@[simp] theorem slice_replaceRange (range cut : OffsetRange) :
    (BaseReplacement.slice r range cut).replaceRange = range := rfl

theorem slice_newText (range cut : OffsetRange) (h₀ : 0 ≤ cut.start)
    (h₁ : cut.endExclusive ≤ r.newText.length) : (BaseReplacement.slice r range cut).newText =
    (r.newText.drop cut.start.toNat).take (cut.endExclusive - cut.start).toNat :=
  JsString.substring_eq r.newText h₀ cut.le h₁

theorem slice_whole (range : OffsetRange) (h) :
    (BaseReplacement.slice r range ⟨0, r.newText.length, h⟩).newText = r.newText := by
  rw [slice_newText r range _ (le_refl 0) (le_refl _)]
  simp

theorem delta_eq_ok (d : Int) :
    BaseReplacement.delta r d = .ok ⟨r.replaceRange.delta d, r.newText⟩ := by
  have h : (0 : Int) ≤ r.newText.length := by omega
  have hs := slice_whole r (r.replaceRange.delta d) h
  simp only [BaseReplacement.delta, getNewLength_eq, replaceRange_eq, OffsetRange.new_eq_ok h,
    bind, Except.bind, pure, Except.pure]
  congr 1
  exact congrArg _ hs

theorem tryJoinTouching_eq_ok
    {r s : StringReplacement} (h : r.replaceRange.endExclusive = s.replaceRange.start) :
    ∃ j : StringReplacement, r.tryJoinTouching s = .ok (some j) ∧
    j.toPatch = ⟨r.replaceRange.start, s.replaceRange.endExclusive, r.newText ++ s.newText⟩ := by
  refine ⟨⟨⟨r.replaceRange.start, s.replaceRange.endExclusive, ?_⟩, r.newText ++ s.newText⟩, ?_, rfl⟩
  · have := r.replaceRange.le
    have := s.replaceRange.le
    omega
  · rw [tryJoinTouching, OffsetRange.joinRightTouching_eq_ok h]
    rfl

end StringReplacement

namespace StringEdit
open StringReplacement

def patches (rs : List StringReplacement) : List (Patch CodeUnit) := rs.map toPatch

@[simp] theorem patches_nil : patches [] = [] := rfl

@[simp] theorem patches_cons (r : StringReplacement) (rs : List StringReplacement) :
    patches (r :: rs) = r.toPatch :: patches rs := rfl

@[simp] theorem patches_append (rs qs : List StringReplacement) :
    patches (rs ++ qs) = patches rs ++ patches qs := List.map_append

def LiesIn (e : StringEdit) (s : JsString) : Prop :=
  ∀ r ∈ e.replacements, 0 ≤ r.replaceRange.start ∧ r.replaceRange.endExclusive ≤ s.length

variable {a b : Int} {rs : List StringReplacement} {r : StringReplacement}

theorem unsorted_of_fits {e : Int} (hab : a ≤ b) (h : Patch.Fits b e (patches rs)) :
    unsorted? a rs = none := by
  induction rs generalizing a b with
  | nil => rfl
  | cons r rs ih =>
    obtain ⟨h₁, -, h₃⟩ := h
    have hle : a ≤ r.replaceRange.start := le_trans hab h₁
    simp only [unsorted?, replaceRange_eq, if_pos hle]
    exact ih (le_refl _) h₃

theorem fits_of_unsorted {e : Int} (h : unsorted? a rs = none) (hbe : b ≤ e)
    (hb : ∀ r ∈ rs.head?, b ≤ r.replaceRange.start)
    (he : ∀ r ∈ rs, r.replaceRange.endExclusive ≤ e) : Patch.Fits b e (patches rs) := by
  induction rs generalizing a b with
  | nil => exact hbe
  | cons r rs ih =>
    simp only [unsorted?, replaceRange_eq] at h
    split at h
    · refine ⟨hb r rfl, r.replaceRange.le, ih h (he r List.mem_cons_self) ?_ ?_⟩
      · intro r' hr'
        obtain ⟨rs', rfl⟩ : ∃ rs', rs = r' :: rs' := List.head?_eq_some_iff.1 hr'
        simp only [unsorted?, replaceRange_eq] at h
        split at h
        · assumption
        · simp at h
      · exact fun r' hr' => he r' (List.mem_cons_of_mem _ hr')
    · simp at h

theorem LiesIn.fits {e : StringEdit} {s : JsString} (h : LiesIn e s) :
    Patch.Fits 0 s.length (patches e.replacements) := by
  refine fits_of_unsorted e.sorted (by omega) (fun r hr => ?_) (fun r hr => (h r hr).2)
  exact (h r (List.mem_of_mem_head? hr)).1

theorem mem_of_fits {c : Int} (h : Patch.Fits b c (patches rs)) (hr : r ∈ rs) :
    b ≤ r.replaceRange.start ∧ r.replaceRange.endExclusive ≤ c := by
  induction rs generalizing b with
  | nil => cases hr
  | cons r' rs ih =>
    obtain ⟨h₁, h₂, h₃⟩ := h
    simp only [toPatch_start, toPatch_stop] at h₁ h₂ h₃
    rcases List.mem_cons.1 hr with rfl | hr
    · exact ⟨h₁, h₃.le⟩
    · have := ih h₃ hr
      exact ⟨by omega, this.2⟩

theorem applyLoop_eq {base : JsString}
    {pos : Int} (h : Patch.Fits pos base.length (patches rs)) (hpos : 0 ≤ pos) (acc : JsString) :
    applyLoop base rs pos acc = acc ++ Patch.applyFrom pos (patches rs) (base.drop pos.toNat) := by
  induction rs generalizing pos acc with
  | nil => simp [applyLoop, JsString.substringFrom_eq base h]
  | cons r rs ih =>
    obtain ⟨h₁, h₂, h₃⟩ := h
    simp only [toPatch_start, toPatch_stop] at h₁ h₂ h₃
    have hle := h₃.le
    have hd : pos.toNat + (r.replaceRange.endExclusive - pos).toNat =
        r.replaceRange.endExclusive.toNat := by omega
    rw [applyLoop, ih h₃ (by omega), JsString.substring_eq base hpos h₁ (by omega)]
    simp [Patch.applyFrom_cons, hd]

theorem apply_eq {e : StringEdit} {s : JsString} (h : LiesIn e s) :
    apply e s = Patch.applyFrom 0 (patches e.replacements) s := by
  simpa [apply] using applyLoop_eq h.fits (le_refl 0) []

/-- What `normalize` keeps: the text any suffix is turned into, and the fit. -/
def SameEffect (out rs : List StringReplacement) : Prop :=
  ∀ (b e : Int) (t : JsString), (t.length : Int) = e - b → Patch.Fits b e (patches rs) →
    Patch.Fits b e (patches out) ∧
      Patch.applyFrom b (patches out) t = Patch.applyFrom b (patches rs) t

theorem SameEffect.refl (rs : List StringReplacement) : SameEffect rs rs :=
  fun _ _ _ _ h => ⟨h, rfl⟩

theorem SameEffect.trans {out mid : List StringReplacement} (h₁ : SameEffect out mid)
    (h₂ : SameEffect mid rs) : SameEffect out rs := fun b e t ht h =>
  have hm := h₂ b e t ht h
  have ho := h₁ b e t ht hm.1
  ⟨ho.1, ho.2.trans hm.2⟩

theorem SameEffect.cons (r : StringReplacement) {out rs : List StringReplacement}
    (h : SameEffect out rs) : SameEffect (r :: out) (r :: rs) := by
  intro b e t ht hf
  obtain ⟨h₁, h₂, h₃⟩ := hf
  have hle := h₃.le
  have hlen : (((t.drop (r.toPatch.stop - b).toNat).length : Nat) : Int) = e - r.toPatch.stop := by
    rw [List.length_drop]
    omega
  have := h _ e _ hlen h₃
  exact ⟨⟨h₁, h₂, this.1⟩, by simp only [patches_cons, Patch.applyFrom_cons, this.2]⟩

theorem sameEffect_drop_empty (rs : List StringReplacement) (hlen : (r.newText.length : Int) = 0)
    (hrange : r.replaceRange.length = 0) : SameEffect rs (r :: rs) := by
  intro b e t ht hf
  obtain ⟨h₁, h₂, h₃⟩ := hf
  have hle := h₃.le
  have hstop : r.toPatch.stop = r.toPatch.start := by
    simp only [OffsetRange.length] at hrange
    simp only [toPatch_start, toPatch_stop]
    omega
  have htext : r.toPatch.text = [] := by
    simp only [toPatch_text]
    exact List.eq_nil_of_length_eq_zero (by omega)
  refine ⟨h₃.mono (by omega), ?_⟩
  exact (Patch.applyFrom_cons_empty hstop htext h₁ (by omega) h₃).symm

theorem sameEffect_join {s j : StringReplacement} (rs : List StringReplacement)
    (h : r.replaceRange.endExclusive = s.replaceRange.start)
    (hj : j.toPatch = ⟨r.replaceRange.start, s.replaceRange.endExclusive, r.newText ++ s.newText⟩) :
    SameEffect (j :: rs) (r :: s :: rs) := by
  intro b e t _ hf
  obtain ⟨h₁, h₂, h₃, h₄, h₅⟩ := hf
  simp only [toPatch_start, toPatch_stop] at h₁ h₂ h₃ h₄ h₅
  rw [patches_cons, hj]
  refine ⟨⟨h₁, by simp only; omega, h₅⟩, ?_⟩
  have hsr : s.toPatch.start = r.toPatch.stop := h.symm
  exact (Patch.applyFrom_cons_touching h₁ h₂ h₄ hsr).symm

theorem normalizeLoop_rel {R : List StringReplacement → List StringReplacement → Prop}
    (hrefl : ∀ rs, R rs rs) (htrans : ∀ {out mid rs}, R out mid → R mid rs → R out rs)
    (hcons : ∀ r {out rs}, R out rs → R (r :: out) (r :: rs)) (hdrop : ∀ {r : StringReplacement}
    (rs), (r.newText.length : Int) = 0 → r.replaceRange.length = 0 → R rs (r :: rs))
    (hjoin : ∀ {r s j : StringReplacement} (rs), r.replaceRange.endExclusive = s.replaceRange.start
    → j.toPatch = ⟨r.replaceRange.start, s.replaceRange.endExclusive, r.newText ++ s.newText⟩ → R
    (j :: rs) (r :: s :: rs)) (rs acc : List StringReplacement) (last : Option StringReplacement) :
    ∃ out, BaseEdit.normalizeLoop rs acc last = .ok (acc ++ out) ∧ R out (last.toList ++ rs) := by
  induction rs generalizing acc last with
  | nil => exact ⟨last.toList, rfl, by simpa using hrefl _⟩
  | cons r rs ih =>
    simp only [BaseEdit.normalizeLoop, getNewLength_eq, replaceRange_eq]
    split_ifs with hempty
    · obtain ⟨out, hout, heff⟩ := ih acc last
      refine ⟨out, hout, htrans heff ?_⟩
      have hdropped := hdrop rs hempty.1 hempty.2
      cases last with
      | none => exact hdropped
      | some l => exact hcons l hdropped
    · cases last with
      | none => exact ih acc (some r)
      | some l =>
        -- `last` is pushed unless it touches `r`; then the two are joined
        have hpush : ∃ out, BaseEdit.normalizeLoop rs (acc ++ [l]) (some r) = .ok (acc ++ out) ∧
            R out ((some l).toList ++ r :: rs) := by
          obtain ⟨out, hout, heff⟩ := ih (acc ++ [l]) (some r)
          exact ⟨l :: out, by rw [hout]; simp, hcons l heff⟩
        simp only
        split_ifs with htouch
        · obtain ⟨j, hj, hpatch⟩ := tryJoinTouching_eq_ok htouch
          obtain ⟨out, hout, heff⟩ := ih acc (some j)
          refine ⟨out, ?_, htrans heff (hjoin rs htouch hpatch)⟩
          simp only [tryJoinTouching_eq, hj, bind, Except.bind]
          exact hout
        · exact hpush

theorem normalizeLoop_spec (rs acc : List StringReplacement) (last : Option StringReplacement) :
    ∃ out, BaseEdit.normalizeLoop rs acc last = .ok (acc ++ out) ∧
      SameEffect out (last.toList ++ rs) :=
  normalizeLoop_rel SameEffect.refl SameEffect.trans SameEffect.cons sameEffect_drop_empty
    sameEffect_join rs acc last

theorem exists_fits (h : unsorted? a rs = none) : ∃ e, Patch.Fits a e (patches rs) := by
  induction rs generalizing a with
  | nil => exact ⟨a, le_refl a⟩
  | cons r rs ih =>
    simp only [unsorted?, replaceRange_eq] at h
    split at h
    · obtain ⟨e, he⟩ := ih h
      exact ⟨e, by assumption, r.replaceRange.le, he⟩
    · simp at h

theorem normalize_spec (e : StringEdit) :
    ∃ n : StringEdit, e.normalize = .ok n ∧ SameEffect n.replacements e.replacements := by
  obtain ⟨out, hout, heff⟩ := normalizeLoop_spec e.replacements [] none
  simp only [List.nil_append, Option.toList_none] at hout heff
  obtain ⟨c, hc⟩ := exists_fits e.sorted
  have hlen : ((List.replicate (c - -1).toNat (0 : CodeUnit)).length : Int) = c - -1 := by
    have := hc.le
    simp only [List.length_replicate]
    omega
  have hsort := unsorted_of_fits (le_refl _) (heff _ _ _ hlen hc).1
  refine ⟨⟨out, hsort⟩, ?_, heff⟩
  simp only [BaseEdit.normalize, hout, bind, Except.bind]
  exact BaseEdit.new_eq_ok hsort

end StringEdit

end CodeOss
