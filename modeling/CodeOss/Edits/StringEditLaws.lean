import CodeOss.Edits.NormalForm
import CodeOss.Edits.StringEditCompose

/-! The laws of `compose` and `composeSequentialReplacements`. -/

namespace CodeOss

open Patch

def StringReplacement.replace (r : StringReplacement) (str : JsString) : JsString :=
  str.substring 0 r.replaceRange.start ++ r.newText ++
    str.substringFrom r.replaceRange.endExclusive

namespace StringEdit
open BaseReplacement StringReplacement BaseEdit

instance (e : StringEdit) (s : JsString) : Decidable (LiesIn e s) :=
  inferInstanceAs (Decidable (∀ r ∈ e.replacements, _))

/-- The replacements applied to `s` one after another. -/
def applySequentially (rs : List StringReplacement) (s : JsString) : JsString :=
  rs.foldl (fun t r => r.replace t) s

/-- Each replacement lies in the string that the ones before it have produced. -/
def SequentiallyLieIn : List StringReplacement → JsString → Prop
  | [], _ => True
  | r :: rs, s => 0 ≤ r.replaceRange.start ∧ r.replaceRange.endExclusive ≤ s.length ∧
      SequentiallyLieIn rs (r.replace s)

instance decidableSequentiallyLieIn (rs : List StringReplacement) (s : JsString) :
    Decidable (SequentiallyLieIn rs s) :=
  match rs with
  | [] => isTrue trivial
  | r :: rs =>
    have := decidableSequentiallyLieIn rs (r.replace s)
    inferInstanceAs (Decidable (_ ∧ _ ∧ _))

variable {s : JsString}

theorem replace_eq {r : StringReplacement} (h₀ : 0 ≤ r.replaceRange.start)
    (h₁ : r.replaceRange.endExclusive ≤ s.length) : r.replace s = applyFrom 0 (patches [r]) s := by
  have hle := r.replaceRange.le
  rw [replace, JsString.substring_eq s (le_refl 0) h₀ (by omega), JsString.substringFrom_eq s h₁]
  simp [applyFrom_cons]

theorem replace_applyFrom {r : StringReplacement} {rs : List StringReplacement}
    (h : Patch.Fits 0 s.length (patches (r :: rs))) :
    r.replace (applyFrom 0 (patches rs) s) = applyFrom 0 (patches (r :: rs)) s := by
  rw [patches_cons, fits_cons] at h
  obtain ⟨h₁, h₂, h₃⟩ := h
  simp only [toPatch_start, toPatch_stop] at h₁ h₂ h₃
  have h₃le := h₃.le
  have hadv := applyFrom_advance (b := 0) (t := s) (by omega) (by omega) h₃
  have hlen : ((s.take (r.replaceRange.endExclusive - 0).toNat).length : Int) =
      r.replaceRange.endExclusive - 0 := Cut.length_take (by omega) (by omega)
  rw [replace_eq h₁ (by rw [hadv, List.length_append]; omega), hadv]
  simp only [patches_cons, patches_nil, applyFrom_cons, applyFrom_nil, toPatch_start,
    toPatch_stop, toPatch_text]
  rw [Cut.take_append_left (by omega), Cut.take_take (by omega), Cut.drop_append_right (by omega),
    hlen, sub_self, Int.toNat_zero, List.drop_zero]

theorem composeSequentialLoop_spec {rs cur : List StringReplacement} {edit : StringEdit}
    (hedit : LiesIn edit s) (hcur : Patch.Fits 0 (apply edit s).length (patches cur.reverse))
    (hrs : SequentiallyLieIn rs (applyFrom 0 (patches cur.reverse) (apply edit s))) :
    ∃ e, composeSequentialLoop rs edit cur = .ok e ∧ LiesIn e s ∧
    apply e s = applySequentially rs (applyFrom 0 (patches cur.reverse) (apply edit s)) := by
  have hsort := unsorted_of_fits (show (-1 : Int) ≤ 0 by omega) hcur
  have hlies : LiesIn ⟨cur.reverse, hsort⟩ (apply edit s) := fun r hr => mem_of_fits hcur hr
  obtain ⟨e', he', hlies', happly'⟩ := compose_spec edit ⟨cur.reverse, hsort⟩ hedit hlies
  rw [apply_eq hlies] at happly'
  induction rs generalizing cur edit e' with
  | nil =>
    refine ⟨e', ?_, hlies', happly'⟩
    simp only [composeSequentialLoop, BaseEdit.new_eq_ok hsort, bind, Except.bind, he']
  | cons r rs ih =>
    obtain ⟨hr₀, hr₁, hrest⟩ := hrs
    -- either `r` extends the reverse sorted run, or the run is composed and `r` starts a new one
    by_cases hrun : ∀ last ∈ cur.getLast?, r.replaceRange.isBefore last.replaceRange
    · have hcur' : Patch.Fits 0 (apply edit s).length (patches (cur ++ [r]).reverse) := by
        rw [List.reverse_append, List.reverse_singleton, List.singleton_append, patches_cons]
        refine ⟨hr₀, r.replaceRange.le, hcur.advance ?_ ?_⟩
        · cases hnil : cur.reverse with
          | nil => simpa [hnil] using hr₁
          | cons c cs =>
            have hlast := hrun c (by rw [← List.head?_reverse, hnil]; rfl)
            rw [hnil, patches_cons, fits_cons] at hcur
            have h₂ := hcur.2.1
            have h₃ := hcur.2.2.le
            simp only [OffsetRange.isBefore, decide_eq_true_eq, toPatch_start, toPatch_stop]
              at hlast h₂ h₃ ⊢
            omega
        · intro p hp
          cases hnil : cur.reverse with
          | nil => simp [hnil] at hp
          | cons c cs =>
            have hlast := hrun c (by rw [← List.head?_reverse, hnil]; rfl)
            rw [hnil] at hp
            cases hp
            simpa [OffsetRange.isBefore] using hlast
      have hreplace := replace_applyFrom (by simpa using hcur')
      have hrev : (cur ++ [r]).reverse = r :: cur.reverse := by simp
      have hsort' := unsorted_of_fits (show (-1 : Int) ≤ 0 by omega) hcur'
      have hlies'' : LiesIn ⟨(cur ++ [r]).reverse, hsort'⟩ (apply edit s) :=
        fun r hr => mem_of_fits hcur' hr
      obtain ⟨e'', he'', hliese'', happly''⟩ := compose_spec edit _ hedit hlies''
      rw [apply_eq hlies''] at happly''
      obtain ⟨e, he, hle, happ⟩ := ih hedit hcur' (by rw [hrev, ← hreplace]; exact hrest)
        hsort' hlies'' e'' he'' hliese'' happly''
      refine ⟨e, ?_, hle, ?_⟩
      · rw [composeSequentialLoop]
        cases hlast : cur.getLast? with
        | none => exact he
        | some last => rw [if_pos (hrun last hlast)]; exact he
      · rw [happ, hrev, ← hreplace]
        rfl
    · push Not at hrun
      obtain ⟨last, hlast, hbefore⟩ := hrun
      have hcur' : Patch.Fits 0 (apply e' s).length (patches [r].reverse) := by
        rw [happly']
        exact ⟨hr₀, r.replaceRange.le, hr₁⟩
      have hreplace := replace_eq hr₀ hr₁
      have hsort' := unsorted_of_fits (show (-1 : Int) ≤ 0 by omega) hcur'
      have hlies'' : LiesIn ⟨[r].reverse, hsort'⟩ (apply e' s) :=
        fun r hr => mem_of_fits hcur' hr
      obtain ⟨e'', he'', hliese'', happly''⟩ := compose_spec e' _ hlies' hlies''
      rw [apply_eq hlies''] at happly''
      obtain ⟨e, he, hle, happ⟩ := ih hlies' hcur'
        (by rw [List.reverse_singleton, happly', ← hreplace]; exact hrest)
        hsort' hlies'' e'' he'' hliese'' happly''
      refine ⟨e, ?_, hle, ?_⟩
      · rw [composeSequentialLoop, Option.mem_def.1 hlast]
        simp only [hbefore, BaseEdit.new_eq_ok hsort, bind, Except.bind, he']
        exact he
      · rw [happ, List.reverse_singleton, happly', ← hreplace]
        rfl

/-- Composing two edits, and composing a list of replacements, is applying them in turn. -/
theorem compose_law :
    (∀ (e1 e2 : StringEdit) (s : JsString), LiesIn e1 s → LiesIn e2 (apply e1 s) →
      ∃ e : StringEdit, e1.compose e2 = .ok e ∧ apply e s = apply e2 (apply e1 s)) ∧
    (∀ (rs : List StringReplacement) (s : JsString), SequentiallyLieIn rs s →
      ∃ e, composeSequentialReplacements rs = .ok e ∧ apply e s = applySequentially rs s) := by
  constructor
  · intro e1 e2 s h1 h2
    obtain ⟨e, he, -, happly⟩ := compose_spec e1 e2 h1 h2
    exact ⟨e, he, happly⟩
  · intro rs s h
    have hempty : apply BaseEdit.empty s = s := by simp [apply, BaseEdit.empty, applyLoop,
      JsString.substringFrom, JsString.clamp]
    have hlies : LiesIn BaseEdit.empty s := by simp [LiesIn, BaseEdit.empty]
    have hrs : SequentiallyLieIn rs
        (applyFrom 0 (patches [].reverse) (apply BaseEdit.empty s)) := by
      simpa [hempty] using h
    obtain ⟨e, he, -, happly⟩ := composeSequentialLoop_spec hlies (by simp) hrs
    exact ⟨e, he, by simpa [hempty] using happly⟩

/-- The law at an edit that cuts into two earlier replacements, and at a run that is
broken by a later replacement. -/
theorem compose_law_at_overlap :
    (∃ e : StringEdit,
      BaseEdit.compose ⟨[⟨⟨0, 1, by decide⟩, [97, 98]⟩, ⟨⟨2, 2, by decide⟩, [99, 100]⟩], rfl⟩
        ⟨[⟨⟨1, 4, by decide⟩, [101]⟩], rfl⟩ = .ok e ∧
      apply e [1, 2, 3] = apply ⟨[⟨⟨1, 4, by decide⟩, [101]⟩], rfl⟩
        (apply ⟨[⟨⟨0, 1, by decide⟩, [97, 98]⟩, ⟨⟨2, 2, by decide⟩, [99, 100]⟩], rfl⟩
          [1, 2, 3])) ∧
    ∃ e, composeSequentialReplacements
        [⟨⟨2, 3, by decide⟩, [97]⟩, ⟨⟨0, 1, by decide⟩, []⟩, ⟨⟨1, 2, by decide⟩, [98]⟩] = .ok e ∧
      apply e [1, 2, 3] = applySequentially
        [⟨⟨2, 3, by decide⟩, [97]⟩, ⟨⟨0, 1, by decide⟩, []⟩, ⟨⟨1, 2, by decide⟩, [98]⟩] [1, 2, 3] :=
  ⟨compose_law.1 _ _ _ (by decide) (by decide), compose_law.2 _ _ (by decide)⟩

theorem compose_normal {e1 e2 e : StringEdit} (h : e1.compose e2 = .ok e) :
    Patch.Normal (patches e.replacements) := by
  obtain ⟨n1, hn1, -⟩ := normalize_spec e1
  obtain ⟨n2, hn2, -⟩ := normalize_spec e2
  simp only [BaseEdit.compose, hn1, hn2, bind, Except.bind] at h
  split_ifs at h
  · rw [← Except.ok.inj h]
    exact normalize_normal hn2
  · rw [← Except.ok.inj h]
    exact normalize_normal hn1
  · split at h
    · cases h
    · split at h
      · cases h
      · exact normalize_normal h

theorem LiesIn.of_length {e : StringEdit} {s t : JsString} (h : LiesIn e s)
    (hlen : t.length = s.length) : LiesIn e t := fun r hr => by
  rw [hlen]
  exact h r hr

theorem length_apply_congr {e : StringEdit} {s t : JsString} (h : LiesIn e s)
    (hlen : t.length = s.length) : (apply e t).length = (apply e s).length := by
  have ht := h.of_length hlen
  have hs' := Patch.length_applyFrom h.fits (Int.sub_zero _).symm
  have ht' := Patch.length_applyFrom ht.fits (Int.sub_zero _).symm
  rw [← apply_eq h] at hs'
  rw [← apply_eq ht] at ht'
  omega

/-- Composition is associative, not only in what it does to a text: both ways end in the same
replacements. -/
theorem compose_assoc (e1 e2 e3 : StringEdit) (s : JsString) (h1 : LiesIn e1 s)
    (h2 : LiesIn e2 (apply e1 s)) (h3 : LiesIn e3 (apply e2 (apply e1 s))) :
    ∃ e12 e23 e : StringEdit, e1.compose e2 = .ok e12 ∧ e2.compose e3 = .ok e23 ∧
      e12.compose e3 = .ok e ∧ e1.compose e23 = .ok e := by
  obtain ⟨e12, h12, hlies12, happly12⟩ := compose_spec e1 e2 h1 h2
  obtain ⟨e23, h23, hlies23, -⟩ := compose_spec e2 e3 h2 h3
  obtain ⟨l, hl, hliesl, -⟩ := compose_spec e12 e3 hlies12 (by rwa [happly12])
  obtain ⟨r, hr, hliesr, -⟩ := compose_spec e1 e23 h1 hlies23
  refine ⟨e12, e23, l, h12, h23, hl, ?_⟩
  -- Texts of the length of `s` tell normal edits apart, and both ways do the same to these.
  have hsame : Patch.SameOn Set.univ 0 s.length (patches l.replacements)
      (patches r.replacements) := by
    intro t _ hlen
    have ht : t.length = s.length := by omega
    have hlen1 := length_apply_congr h1 ht
    have ht1 := h1.of_length ht
    have ht2 := h2.of_length hlen1
    have ht3 := h3.of_length (length_apply_congr h2 hlen1)
    obtain ⟨f12, hf12, -, ha12⟩ := compose_spec e1 e2 ht1 ht2
    obtain ⟨f23, hf23, hf23', ha23⟩ := compose_spec e2 e3 ht2 ht3
    obtain rfl := Except.ok.inj (h12.symm.trans hf12)
    obtain rfl := Except.ok.inj (h23.symm.trans hf23)
    obtain ⟨fl, hfl, hfl', hal⟩ := compose_spec e12 e3 (hlies12.of_length ht) (by rwa [ha12])
    obtain ⟨fr, hfr, hfr', har⟩ := compose_spec e1 e23 ht1 hf23'
    obtain rfl := Except.ok.inj (hl.symm.trans hfl)
    obtain rfl := Except.ok.inj (hr.symm.trans hfr)
    rw [← apply_eq hfl', ← apply_eq hfr', hal, har, ha12, ha23]
  have heq := patches_injective (Patch.eq_of_sameOn (A := Set.univ)
    ⟨0, trivial, 1, trivial, by decide⟩ hliesl.fits (compose_normal hl) hliesr.fits
    (compose_normal hr) hsame)
  rw [hr]
  cases l
  cases r
  simp_all

/-- Edits that cut into one another's texts. -/
theorem compose_assoc_at_overlap : ∃ e12 e23 e : StringEdit,
    BaseEdit.compose ⟨[⟨⟨0, 1, by decide⟩, [97, 98]⟩], rfl⟩
      ⟨[⟨⟨1, 3, by decide⟩, [99]⟩], rfl⟩ = .ok e12 ∧
    BaseEdit.compose ⟨[⟨⟨1, 3, by decide⟩, [99]⟩], rfl⟩
      ⟨[⟨⟨0, 2, by decide⟩, []⟩], rfl⟩ = .ok e23 ∧
    e12.compose ⟨[⟨⟨0, 2, by decide⟩, []⟩], rfl⟩ = .ok e ∧
    BaseEdit.compose ⟨[⟨⟨0, 1, by decide⟩, [97, 98]⟩], rfl⟩ e23 = .ok e :=
  compose_assoc _ _ _ [1, 2, 3] (by decide) (by decide) (by decide)

end StringEdit

end CodeOss
