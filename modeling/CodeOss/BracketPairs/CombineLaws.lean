import CodeOss.BracketPairs.CombineTextEditInfos

/-! Combined edit infos describe both edits at once. -/

namespace CodeOss

open S0ToS1Map

namespace TextEditInfo

/-- Sorted and disjoint edits of what stands behind `done` turn `s` into `s'`: their offsets are
the lengths up to their ranges, and there are texts with their new lengths. -/
def Describes (done : Document) : List TextEditInfo → Document → Document → Prop
  | [], s, s' => s = s'
  | e :: es, s, s' => ∃ kept removed inserted t t' : Document,
      s = kept ++ removed ++ t ∧ s' = kept ++ inserted ++ t' ∧
      e = ⟨lengthOfString (done ++ kept), lengthOfString (done ++ kept ++ removed),
        lengthOfString inserted⟩ ∧
      Describes (done ++ kept ++ removed) es t t'

def Apart (es : List TextEditInfo) : Prop := es.IsChain (fun e e' => e.endOffset < e'.startOffset)

theorem Describes.append {done s s' t t' : Document} {es fs : List TextEditInfo}
    (h : Describes done es s s') (hrest : Describes (done ++ s) fs t t') :
    Describes done (es ++ fs) (s ++ t) (s' ++ t') := by
  induction es generalizing done s s' with
  | nil =>
    obtain rfl : s = s' := h
    cases fs with
    | nil => exact congrArg (s ++ ·) hrest
    | cons e fs =>
      obtain ⟨kept, removed, inserted, u, u', rfl, rfl, rfl, hlater⟩ := hrest
      exact ⟨s ++ kept, removed, inserted, u, u', by simp, by simp, by simp, by simpa using hlater⟩
  | cons e es ih =>
    obtain ⟨kept, removed, inserted, u, u', rfl, rfl, rfl, hlater⟩ := h
    refine ⟨kept, removed, inserted, u ++ t, u' ++ t', by simp, by simp, rfl, ?_⟩
    exact ih hlater (by simpa using hrest)

theorem Describes.single (done removed inserted : Document) : Describes done [⟨lengthOfString done,
    lengthOfString (done ++ removed), lengthOfString inserted⟩] removed inserted :=
  ⟨[], removed, inserted, [], [], by simp, by simp, by simp, rfl⟩

theorem Describes.last {done s s' : Document} {es : List TextEditInfo} {e : TextEditInfo}
    (h : Describes done (es ++ [e]) s s') : ∃ u u' removed inserted kept : Document, s = u ++
    removed ++ kept ∧ s' = u' ++ inserted ++ kept ∧ Describes done es u u' ∧ e = ⟨lengthOfString
    (done ++ u), lengthOfString (done ++ u ++ removed), lengthOfString inserted⟩ := by
  induction es generalizing done s s' with
  | nil =>
    obtain ⟨kept, removed, inserted, t, t', rfl, rfl, rfl, rfl⟩ := h
    exact ⟨kept, kept, removed, inserted, t, rfl, rfl, rfl, rfl⟩
  | cons f es ih =>
    obtain ⟨kept, removed, inserted, t, t', rfl, rfl, rfl, hlater⟩ := h
    obtain ⟨u, u', removed', inserted', kept', rfl, rfl, hu, rfl⟩ := ih hlater
    exact ⟨kept ++ removed ++ u, kept ++ inserted ++ u', removed', inserted', kept', by simp,
      by simp, ⟨kept, removed, inserted, u, u', rfl, rfl, rfl, hu⟩, by simp⟩

end TextEditInfo

open TextEditInfo

/-- The edits so far describe what was done to the text so far. -/
structure Pushed (result : List TextEditInfo) (d d' : Document) : Prop where
  describes : TextEditInfo.Describes [] result d d'
  apart : Apart result

namespace Pushed

variable {result : List TextEditInfo}

theorem keep {d d' : Document} (h : Pushed result d d')
    (kept : Document) : Pushed result (d ++ kept) (d' ++ kept) := by
  refine ⟨?_, h.apart⟩
  have hkept : TextEditInfo.Describes ([] ++ d) [] kept kept := rfl
  simpa using h.describes.append hkept

theorem pushEdit {d d' removed inserted : Document}
    (h : Pushed result d d') (hd : FitsLength (d ++ removed)) (hd' : FitsLength (d' ++ inserted)) :
    Pushed (pushEdit result (lengthOfString d) (lengthOfString (d ++ removed))
      (lengthOfString inserted)) (d ++ removed) (d' ++ inserted) := by
  have hnew : TextEditInfo.Describes ([] ++ d) _ removed inserted :=
    Describes.single ([] ++ d) removed inserted
  induction result using List.reverseRecOn with
  | nil => exact ⟨h.describes.append hnew, List.isChain_singleton _⟩
  | append_singleton es e =>
    obtain ⟨u, u', removed', inserted', kept, rfl, rfl, hes, rfl⟩ := h.describes.last
    obtain ⟨hchain, -, hlast⟩ := List.isChain_append.1 h.apart
    rw [CodeOss.pushEdit, List.getLast?_concat]
    simp only [lengthEquals, beq_iff_eq, List.dropLast_concat]
    split_ifs with htouch
    · obtain rfl : kept = [] := by
        by_contra hne
        exact (hd.left.lengthOfString_lt_append hne).ne htouch
      have hfits : FitsLength (inserted' ++ inserted) := by
        simp only [List.append_nil, List.append_assoc] at hd'
        exact hd'.right
      have hjoin := Describes.single ([] ++ u) (removed' ++ removed) (inserted' ++ inserted)
      rw [hfits.lengthOfString_append] at hjoin
      refine ⟨by simpa using hes.append hjoin, List.isChain_append.2 ⟨hchain, ?_, ?_⟩⟩
      · exact List.isChain_singleton _
      · simpa using hlast
    · refine ⟨h.describes.append hnew, List.isChain_append.2 ⟨h.apart, ?_, ?_⟩⟩
      · exact List.isChain_singleton _
      · simp only [List.getLast?_concat, Option.mem_some_iff, List.head?_cons, forall_eq']
        exact lt_of_le_of_ne hd.left.lengthOfString_le_append htouch

end Pushed

/-- A stretch of two texts that an edit leaves alone or replaces. -/
inductive Stretch where
  | kept (t : Document)
  | replaced (old new : Document)

namespace Stretch

def before : Stretch → Document
  | kept t => t
  | replaced old _ => old

def after : Stretch → Document
  | kept t => t
  | replaced _ new => new

def mapping : Stretch → LengthMapping
  | kept t => ⟨false, lengthOfString t, lengthOfString t⟩
  | replaced old new => ⟨true, lengthOfString old, lengthOfString new⟩

@[simp] theorem mapping_lengthBefore (p : Stretch) :
    p.mapping.lengthBefore = lengthOfString p.before := by cases p <;> rfl

@[simp] theorem mapping_lengthAfter (p : Stretch) :
    p.mapping.lengthAfter = lengthOfString p.after := by cases p <;> rfl

def befores (ps : List Stretch) : Document := ps.flatMap before

def afters (ps : List Stretch) : Document := ps.flatMap after

@[simp] theorem befores_nil : befores [] = [] := rfl

@[simp] theorem befores_cons (p : Stretch) (ps : List Stretch) :
    befores (p :: ps) = p.before ++ befores ps := rfl

@[simp] theorem afters_nil : afters [] = [] := rfl

@[simp] theorem afters_cons (p : Stretch) (ps : List Stretch) :
    afters (p :: ps) = p.after ++ afters ps := rfl

theorem splitAt_long {p : Stretch} {w : Document} (h : FitsLength (p.after ++ w)) :
    p.mapping.splitAt (lengthOfString (p.after ++ w)) = (p.mapping, none) := by
  simp [LengthMapping.splitAt, h.lengthDiff_prefix, lengthEquals, lengthZero]

theorem splitAt_short {p : Stretch} {region v : Document} (hp : p.after = region ++ v)
    (hv : v ≠ []) (h : FitsLength (region ++ v)) :
    ∃ p₁ p₂ : Stretch, p.mapping.splitAt (lengthOfString region) = (p₁.mapping, some p₂.mapping) ∧
      p₁.after = region ∧ p₂.after = v ∧ p₁.before ++ p₂.before = p.before := by
  have hne : ¬lengthOfString v = 0 := mt lengthOfString_eq_zero.1 hv
  cases p with
  | kept t =>
    obtain rfl : t = region ++ v := hp
    refine ⟨kept region, kept v, ?_, rfl, rfl, rfl⟩
    simp [LengthMapping.splitAt, mapping, h.lengthDiff_append, lengthEquals, lengthZero, hne]
  | replaced old new =>
    obtain rfl : new = region ++ v := hp
    refine ⟨replaced old region, replaced [] v, ?_, rfl, rfl, List.append_nil old⟩
    simp [LengthMapping.splitAt, mapping, h.lengthDiff_append, lengthEquals, lengthZero, hne,
      lengthOfString_eq_zero.2]

end Stretch

open Stretch

variable {d : Document} {ps : List Stretch} {st : CombineState} {d' : Document}

theorem lengthIsZero_iff : lengthIsZero (lengthOfString d) ↔ d = [] := by
  rw [lengthIsZero, beq_iff_eq, lengthOfString_eq_zero]

theorem toLengthMappingFrom_spec {done s s' : Document} {es : List TextEditInfo}
    (h : TextEditInfo.Describes done es s s') (hfits : FitsLength (done ++ s)) :
    ∃ (ps : List Stretch) (tail : Document), s = befores ps ++ tail ∧ s' = afters ps ++ tail ∧
      toLengthMappingFrom (lengthOfString done) es = ps.map mapping := by
  induction es generalizing done s s' with
  | nil =>
    obtain rfl : s = s' := h
    exact ⟨[], s, rfl, rfl, rfl⟩
  | cons e es ih =>
    obtain ⟨kept, removed, inserted, t, t', rfl, rfl, rfl, hlater⟩ := h
    obtain ⟨ps, tail, rfl, rfl, hps⟩ := ih hlater (by simpa using hfits)
    simp only [← List.append_assoc] at hfits
    have hremoved := hfits.left.left.lengthDiff_append
    have hkept := hfits.left.left.left.lengthDiff_append
    rw [toLengthMappingFrom, hkept, hremoved, hps]
    by_cases hnil : kept = []
    · subst hnil
      refine ⟨.replaced removed inserted :: ps, tail, ?_, ?_, ?_⟩
      · simp [before]
      · simp [after]
      · simp [lengthIsZero_iff, mapping]
    · refine ⟨.kept kept :: .replaced removed inserted :: ps, tail, ?_, ?_, ?_⟩
      · simp [before]
      · simp [after]
      · simp [lengthIsZero_iff, mapping, hnil]

theorem cut_first {a more region rest : Document} (h : a ++ more = region ++ rest) : (∃ w, region =
    a ++ w ∧ more = w ++ rest) ∨ ∃ v, v ≠ [] ∧ a = region ++ v ∧ rest = v ++ more := by
  rcases List.append_eq_append_iff.1 h with ⟨w, hregion, hmore⟩ | ⟨v, ha, hrest⟩
  · exact .inl ⟨w, hregion, hmore⟩
  · by_cases hv : v = []
    · subst hv
      exact .inl ⟨[], by simpa using ha.symm, by simpa using hrest.symm⟩
    · exact .inr ⟨v, hv, ha, hrest⟩

theorem takeLength_spec {tail region rest : Document} (h : afters ps ++ tail = region ++ rest)
    (hfits : FitsLength (afters ps ++ tail)) : ∃ (out ps' : List Stretch) (tail' : Document),
    afters out = region ∧ afters ps' ++ tail' = rest ∧ befores ps ++ tail = befores out ++
    (befores ps' ++ tail') ∧ (ofItems (ps.map mapping)).takeLength (lengthOfString region) =
    (out.map mapping, ofItems (ps'.map mapping)) := by
  induction ps generalizing region with
  | nil =>
    obtain rfl : tail = region ++ rest := h
    by_cases hnil : region = []
    · refine ⟨[], [], rest, hnil.symm, rfl, by simp [hnil], ?_⟩
      simp [ofItems, takeLength, lengthIsZero_iff, hnil]
    · refine ⟨[.kept region], [], rest, by simp [after], rfl, by simp [before], ?_⟩
      simp [ofItems, takeLength, lengthIsZero_iff, hnil, mapping]
  | cons p ps ih =>
    by_cases hnil : region = []
    · refine ⟨[], p :: ps, tail, hnil.symm, by simpa [hnil] using h, rfl, ?_⟩
      simp [ofItems, takeLength, lengthIsZero_iff, hnil]
    · rw [afters_cons, List.append_assoc] at h hfits
      rcases cut_first h with ⟨w, rfl, hw⟩ | ⟨v, hne, hv, rfl⟩
      · have hlong : FitsLength (p.after ++ w) := by
          rw [hw, ← List.append_assoc] at hfits
          exact hfits.left
        obtain ⟨out, ps', tail', rfl, rfl, hbefore, htake⟩ := ih hw hfits.right
        refine ⟨p :: out, ps', tail', rfl, rfl, by simp [hbefore], ?_⟩
        rw [List.map_cons, ofItems, List.head?_cons, List.tail_cons,
          takeLength_whole (by simpa [lengthIsZero_iff] using hnil)
            (splitAt_long hlong), mapping_lengthAfter, hlong.lengthDiff_append, htake]
        rfl
      · obtain ⟨p₁, p₂, hsplit, h₁, h₂, hbefore⟩ := splitAt_short hv hne (hv ▸ hfits.left)
        refine ⟨[p₁], p₂ :: ps, tail, by simp [h₁], by simp [h₂], by simp [← hbefore], ?_⟩
        rw [List.map_cons, ofItems, List.head?_cons, List.tail_cons,
          takeLength_part (by simpa [lengthIsZero_iff] using hnil) hsplit]
        rfl

theorem sumLengths_before (h : FitsLength (befores ps)) :
    sumLengths (ps.map mapping) (·.lengthBefore) = lengthOfString (befores ps) := by
  have hsum : ∀ (d : Document) (qs : List Stretch), FitsLength (d ++ befores qs) →
      (qs.map mapping).foldl (fun a b => lengthAdd a b.lengthBefore) (lengthOfString d) =
        lengthOfString (d ++ befores qs) := by
    intro d qs hd
    induction qs generalizing d with
    | nil => rw [befores_nil, List.append_nil, List.map_nil, List.foldl_nil]
    | cons q qs ih =>
      rw [befores_cons, ← List.append_assoc] at hd ⊢
      rw [List.map_cons, List.foldl_cons, mapping_lengthBefore, ← hd.left.lengthOfString_append,
        ih _ hd]
  exact hsum [] ps h

theorem copyItem_kept (st : CombineState) (t : Document) :
    st.copyItem (kept t).mapping =
      ⟨st.result, lengthAdd st.s0offset (lengthOfString t), st.s0ToS1Map⟩ := rfl

theorem copyItem_replaced (st : CombineState) (old new : Document) :
    st.copyItem (replaced old new).mapping =
      ⟨pushEdit st.result st.s0offset (lengthAdd st.s0offset (lengthOfString old))
        (lengthOfString new), lengthAdd st.s0offset (lengthOfString old), st.s0ToS1Map⟩ := rfl

theorem copyItem_spec {p : Stretch} (hd : FitsLength (d ++ p.before))
    (hd' : FitsLength (d' ++ p.after)) (hpushed : Pushed st.result d d')
    (hoffset : st.s0offset = lengthOfString d) : ∃ result, Pushed result (d ++ p.before) (d' ++
    p.after) ∧ st.copyItem p.mapping = ⟨result, lengthOfString (d ++ p.before), st.s0ToS1Map⟩ := by
  rw [hd.lengthOfString_append]
  cases p with
  | kept t =>
    refine ⟨st.result, hpushed.keep t, ?_⟩
    rw [copyItem_kept, hoffset, before]
  | replaced old new =>
    refine ⟨_, hpushed.pushEdit hd hd', ?_⟩
    rw [copyItem_replaced, hoffset, hd.lengthOfString_append, before, after]

theorem copyItems_spec
    (st : CombineState) (hd : FitsLength (d ++ befores ps)) (hd' : FitsLength (d' ++ afters ps))
    (hpushed : Pushed st.result d d') (hoffset : st.s0offset = lengthOfString d) :
    ∃ result, Pushed result (d ++ befores ps) (d' ++ afters ps) ∧ (ps.map mapping).foldl
    CombineState.copyItem st = ⟨result, lengthOfString (d ++ befores ps), st.s0ToS1Map⟩ := by
  induction ps generalizing st d d' with
  | nil =>
    refine ⟨st.result, by simpa using hpushed, ?_⟩
    rw [befores_nil, List.append_nil, ← hoffset, List.map_nil, List.foldl_nil]
  | cons p ps ih =>
    simp only [befores_cons, afters_cons, ← List.append_assoc] at hd hd' ⊢
    obtain ⟨first, hfirst, hitem⟩ := copyItem_spec hd.left hd'.left hpushed hoffset
    obtain ⟨result, hresult, hfold⟩ :=
      ih ⟨first, lengthOfString (d ++ p.before), st.s0ToS1Map⟩ hd hd' hfirst rfl
    exact ⟨result, hresult, by rw [List.map_cons, List.foldl_cons, hitem, hfold]⟩

theorem step_spec {q : Stretch} {out : List Stretch} {map : S0ToS1Map}
    (htake : st.s0ToS1Map.takeLength (lengthOfString q.before) = (out.map mapping, map))
    (hout : afters out = q.before) (hd : FitsLength (d ++ befores out))
    (hd' : FitsLength (d' ++ q.after)) (hpushed : Pushed st.result d d')
    (hoffset : st.s0offset = lengthOfString d) : ∃ result, Pushed result (d ++ befores out) (d' ++
    q.after) ∧ st.step (some q.mapping) = ⟨result, lengthOfString (d ++ befores out), map⟩ := by
  cases q with
  | kept t =>
    obtain rfl : afters out = t := hout
    have hstep : st.step (some (kept (afters out)).mapping) =
        (out.map mapping).foldl CombineState.copyItem { st with s0ToS1Map := map } := by
      simp only [CombineState.step, next, Option.map_some, mapping_lengthBefore, htake]
      rfl
    obtain ⟨result, hresult, hfold⟩ :=
      copyItems_spec { st with s0ToS1Map := map } hd hd' hpushed hoffset
    exact ⟨result, hresult, hstep.trans hfold⟩
  | replaced old new =>
    refine ⟨_, hpushed.pushEdit hd hd', ?_⟩
    rw [hd.lengthOfString_append, ← sumLengths_before hd.right, ← hoffset]
    simp only [CombineState.step, next, Option.map_some, mapping_lengthBefore, htake]
    rfl

theorem step_none (hmap : st.s0ToS1Map = ofItems (ps.map mapping)) : ∃ map, st.step none =
    (ps.map mapping).foldl CombineState.copyItem { st with s0ToS1Map := map } := by
  refine ⟨{ st.s0ToS1Map with queue := [] }, ?_⟩
  have hitems : (st.s0ToS1Map.next none).1 = ps.map mapping := by
    rw [hmap]
    cases ps <;> rfl
  rw [← hitems]
  rfl

theorem steps_spec {qs : List Stretch}
    (st : CombineState) {tail tail' : Document} (hpushed : Pushed st.result d d')
    (hoffset : st.s0offset = lengthOfString d) (hmap : st.s0ToS1Map = ofItems (ps.map mapping))
    (hmiddle : afters ps ++ tail = befores qs ++ tail')
    (h0 : FitsLength (d ++ (befores ps ++ tail)))
    (h1 : FitsLength (afters ps ++ tail)) (h2 : FitsLength (d' ++ (afters qs ++ tail'))) :
    Pushed (((qs.map mapping).map some ++ [none]).foldl CombineState.step st).result
    (d ++ (befores ps ++ tail)) (d' ++ (afters qs ++ tail')) := by
  induction qs generalizing st ps d d' tail with
  | nil =>
    rw [befores_nil, List.nil_append] at hmiddle
    rw [afters_nil, List.nil_append] at h2 ⊢
    rw [← hmiddle, ← List.append_assoc] at h2 ⊢
    rw [← List.append_assoc] at h0 ⊢
    obtain ⟨map, hstep⟩ := step_none hmap
    obtain ⟨result, hresult, hfold⟩ :=
      copyItems_spec { st with s0ToS1Map := map } h0.left h2.left hpushed hoffset
    rw [List.map_nil, List.map_nil, List.nil_append, List.foldl_cons, List.foldl_nil, hstep, hfold]
    exact hresult.keep tail
  | cons q qs ih =>
    rw [befores_cons, List.append_assoc] at hmiddle
    obtain ⟨out, ps', rest, hout, hrest, hbefore, htake⟩ := takeLength_spec hmiddle h1
    rw [afters_cons, List.append_assoc, ← List.append_assoc d'] at h2 ⊢
    rw [hbefore, ← List.append_assoc d] at h0 ⊢
    rw [hmiddle, ← hrest] at h1
    obtain ⟨result, hresult, hstep⟩ :=
      step_spec (hmap ▸ htake) hout h0.left h2.left hpushed hoffset
    rw [List.map_cons, List.map_cons, List.cons_append, List.foldl_cons, hstep]
    exact ih ⟨result, _, _⟩ hresult rfl rfl hrest h0 h1.right h2

/-- The combined edits describe the way from the first text to the last one, and no two of them
touch. An empty list leaves the other one as it is, with the touching edits it has. -/
theorem combineTextEditInfos_describes {s0 s1 s2 : Document} {e1 e2 : List TextEditInfo}
    (h0 : FitsLength s0) (h1 : FitsLength s1) (h2 : FitsLength s2)
    (he1 : TextEditInfo.Describes [] e1 s0 s1) (he2 : TextEditInfo.Describes [] e2 s1 s2) :
    TextEditInfo.Describes [] (combineTextEditInfos e1 e2) s0 s2 ∧
      (e1 ≠ [] → e2 ≠ [] → Apart (combineTextEditInfos e1 e2)) ∧
      (e1 = [] → combineTextEditInfos e1 e2 = e2) ∧
      (e2 = [] → combineTextEditInfos e1 e2 = e1) := by
  by_cases hfirst : e1 = []
  · subst hfirst
    obtain rfl : s0 = s1 := he1
    exact ⟨he2, fun h => absurd rfl h, fun _ => rfl, fun h => h⟩
  by_cases hsecond : e2 = []
  · subst hsecond
    obtain rfl : s1 = s2 := he2
    have hself : combineTextEditInfos e1 [] = e1 := by
      rw [combineTextEditInfos, if_neg (mt List.eq_nil_of_length_eq_zero hfirst)]
      rfl
    rw [hself]
    exact ⟨he1, fun _ h => absurd rfl h, fun h => h, fun _ => rfl⟩
  obtain ⟨ps, tail, rfl, rfl, hps⟩ := toLengthMappingFrom_spec he1 h0
  obtain ⟨qs, tail', hmiddle, rfl, hqs⟩ := toLengthMappingFrom_spec he2 h1
  have hnone : Pushed [] [] [] := ⟨rfl, List.isChain_nil⟩
  have hrun := steps_spec ⟨[], lengthZero, .ofItems (ps.map mapping)⟩ hnone rfl rfl hmiddle h0 h1 h2
  have hcombine : combineTextEditInfos e1 e2 =
      (((qs.map mapping).map some ++ [none]).foldl CombineState.step
        ⟨[], lengthZero, .ofItems (ps.map mapping)⟩).result := by
    rw [combineTextEditInfos, if_neg (mt List.eq_nil_of_length_eq_zero hfirst),
      if_neg (mt List.eq_nil_of_length_eq_zero hsecond), ← hps, ← hqs]
    rfl
  rw [hcombine]
  exact ⟨hrun.describes, fun _ _ => hrun.apart, fun h => absurd h hfirst, fun h => absurd h hsecond⟩

/-- The line break and the letter before it are replaced, then the new text and what follows. -/
theorem combineTextEditInfos_describes_at_break :
    let infos := combineTextEditInfos [⟨1, toLength 1 0, 2⟩, ⟨toLength 1 1, toLength 1 1, 1⟩]
      [⟨2, 4, toLength 1 1⟩]
    TextEditInfo.Describes [] infos [.unit 97, .unit 98, .eol, .unit 99, .unit 100]
        [.unit 97, .unit 120, .eol, .unit 122, .unit 119, .unit 100] ∧ Apart infos := by
  have he1 : TextEditInfo.Describes []
      [⟨1, toLength 1 0, 2⟩, ⟨toLength 1 1, toLength 1 1, 1⟩]
      [.unit 97, .unit 98, .eol, .unit 99, .unit 100]
      [.unit 97, .unit 120, .unit 121, .unit 99, .unit 119, .unit 100] :=
    ⟨[.unit 97], [.unit 98, .eol], [.unit 120, .unit 121], [.unit 99, .unit 100],
      [.unit 99, .unit 119, .unit 100], rfl, rfl, rfl,
      [.unit 99], [], [.unit 119], [.unit 100], [.unit 100], rfl, rfl, rfl, rfl⟩
  have he2 : TextEditInfo.Describes [] [⟨2, 4, toLength 1 1⟩]
      [.unit 97, .unit 120, .unit 121, .unit 99, .unit 119, .unit 100]
      [.unit 97, .unit 120, .eol, .unit 122, .unit 119, .unit 100] :=
    ⟨[.unit 97, .unit 120], [.unit 121, .unit 99], [.eol, .unit 122], [.unit 119, .unit 100],
      [.unit 119, .unit 100], rfl, rfl, rfl, rfl⟩
  have h := combineTextEditInfos_describes (fitsLength_of_length (by decide))
    (fitsLength_of_length (by decide)) (fitsLength_of_length (by decide)) he1 he2
  exact ⟨h.1, h.2.1 (by decide) (by decide)⟩

/-- One line with more columns than a length can hold. -/
def longLine : Document := List.replicate factor (.unit 97)

theorem eol_not_mem_longLine : .eol ∉ longLine := by simp [longLine, List.mem_replicate]

/-- Touching edits stay apart beside an empty list; and behind the columns of a length, the
combined edits lie outside of the text. -/
theorem combineTextEditInfos_fails :
    (TextEditInfo.Describes [] [] [.unit 97, .unit 98] [.unit 97, .unit 98] ∧
      TextEditInfo.Describes [] [⟨0, 1, 1⟩, ⟨1, 2, 1⟩] [.unit 97, .unit 98] [.unit 99, .unit 100] ∧
      ¬Apart (combineTextEditInfos [] [⟨0, 1, 1⟩, ⟨1, 2, 1⟩])) ∧
    TextEditInfo.Describes [] [⟨0, 0, 1⟩] longLine (.unit 98 :: longLine) ∧
      TextEditInfo.Describes [] [⟨factor + 1, factor + 1, 1⟩] (.unit 98 :: longLine)
        (.unit 98 :: longLine ++ [.unit 99]) ∧
      ¬TextEditInfo.Describes [] (combineTextEditInfos [⟨0, 0, 1⟩] [⟨factor + 1, factor + 1, 1⟩])
        longLine (.unit 98 :: longLine ++ [.unit 99]) := by
  refine ⟨⟨rfl, ?_, ?_⟩, ?_, ?_, ?_⟩
  · exact ⟨[], [.unit 97], [.unit 99], [.unit 98], [.unit 100], rfl, rfl, rfl,
      [], [.unit 98], [.unit 100], [], [], rfl, rfl, rfl, rfl⟩
  · intro h
    exact absurd (List.isChain_cons_cons.1 h).1 (by decide)
  · exact ⟨[], [], [.unit 98], longLine, longLine, by simp, by simp, rfl, rfl⟩
  · have hfar : lengthOfString (.unit 98 :: longLine) = factor + 1 := by
      rw [lengthOfString_of_not_mem (by simp [eol_not_mem_longLine]), List.length_cons, longLine,
        List.length_replicate]
    refine ⟨.unit 98 :: longLine, [], [.unit 99], [], [], by simp, by simp, ?_, rfl⟩
    rw [List.nil_append, List.append_nil, hfar]
    rfl
  · have hcombine : combineTextEditInfos [⟨0, 0, 1⟩] [⟨factor + 1, factor + 1, 1⟩] =
        [⟨0, 0, 1⟩, ⟨factor + 1, factor + 1, 1⟩] := by
      simp [combineTextEditInfos, toLengthMapping, toLengthMappingFrom, CombineState.step,
        CombineState.copyItem, S0ToS1Map.next, S0ToS1Map.ofItems, S0ToS1Map.takeLength,
        LengthMapping.splitAt, lengthDiffNonNegative, lengthIsZero, lengthEquals, lengthZero,
        toLength, factor, pushEdit, lengthAdd, sumLengths]
    rw [hcombine]
    rintro ⟨kept, removed, inserted, t, t', hs, -, -, kept', removed', inserted', u, u', ht, -,
      he, -⟩
    rw [TextEditInfo.mk.injEq] at he
    have hline : longLine = kept ++ removed ++ kept' ++ (removed' ++ u) := by simp [hs, ht]
    have hmem : .eol ∉ kept ++ removed ++ kept' := fun h =>
      eol_not_mem_longLine (hline ▸ List.mem_append_left _ h)
    have hlength : factor = (kept ++ removed ++ kept').length + (removed' ++ u).length := by
      rw [← List.length_append, ← hline, longLine, List.length_replicate]
    rw [List.nil_append, lengthOfString_of_not_mem hmem] at he
    omega

end CodeOss
