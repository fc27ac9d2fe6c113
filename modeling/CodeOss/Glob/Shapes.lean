import CodeOss.Glob.Languages
import CodeOss.Glob.Syntax
import CodeOss.Glob.Parse

/-! The expressions of the patterns that are tested without one: names, stars in front of a name,
and a `**` in front of names. -/

namespace CodeOss.Glob

open Regex List

section Names

variable {s : JsString} {c : CodeUnit}

theorem isNameChar_spec (h : isNameChar c = true) : c ∉ special ∧ c ≠ comma ∧ c.toNat < 128 := by
  simp only [isNameChar, Bool.or_eq_true, Bool.and_eq_true, decide_eq_true_eq, mem_cons,
    not_mem_nil, or_false, ← UInt16.toNat_inj, UInt16.reduceToNat] at h
  simp only [special, slash, asterisk, questionMark, openBracket, closeBracket, openBrace,
    closeBrace, comma, mem_cons, not_mem_nil, or_false, not_or, ne_eq,
    ← UInt16.toNat_inj, UInt16.reduceToNat]
  omega

theorem isName_iff : isName s = true ↔ s ≠ [] ∧ ∀ c ∈ s, isNameChar c = true := by
  rw [isName, Bool.and_eq_true, decide_eq_true_eq, all_eq_true]

def literals (s : JsString) : List Piece := s.map fun c => .plain (.literal c)

theorem literals_text (s : JsString) : (literals s).flatMap Piece.text = s := by
  induction s with
  | nil => rfl
  | cons c s ih =>
    rw [literals, map_cons, flatMap_cons]
    exact congrArg (c :: ·) ih

theorem literals_regEx (s : JsString) : (literals s).map Piece.regEx = s.map unit := by
  rw [literals, List.map_map]
  rfl

theorem literals_proper (h : ∀ c ∈ s, isNameChar c = true) : ∀ p ∈ literals s, p.Proper := by
  intro p hp
  obtain ⟨c, hc, rfl⟩ := mem_map.mp hp
  exact (isNameChar_spec (h c hc)).1

def nameSegment (s : JsString) : Segment := .pieces (literals s)

theorem nameSegment_text (s : JsString) : (nameSegment s).text = s := literals_text s

theorem nameSegment_proper (h : isName s = true) : (nameSegment s).Proper := by
  obtain ⟨hne, hall⟩ := isName_iff.mp h
  refine ⟨by simpa [literals] using hne, literals_proper hall, ?_⟩
  rw [show (Segment.pieces (literals s)).text = s from literals_text s]
  rintro rfl
  exact absurd (hall asterisk mem_cons_self) (by decide)

def starSegment (s : JsString) : Segment := .pieces (.plain .star :: literals s)

theorem starSegment_text (s : JsString) : (starSegment s).text = asterisk :: s :=
  congrArg (asterisk :: ·) (literals_text s)

theorem starSegment_proper (h : isName s = true) : (starSegment s).Proper := by
  obtain ⟨hne, hall⟩ := isName_iff.mp h
  refine ⟨cons_ne_nil _ _, forall_mem_cons.mpr ⟨trivial, literals_proper hall⟩, ?_⟩
  rw [show (Segment.pieces (.plain .star :: literals s)).text = asterisk :: s from
    starSegment_text s]
  intro heq
  obtain ⟨-, rfl⟩ := List.cons.inj heq
  exact absurd (hall asterisk mem_cons_self) (by decide)

def pathSegments (s : JsString) : List Segment := (s.splitOn slash).map nameSegment

theorem pathSegments_text (s : JsString) : patternText (pathSegments s) = s := by
  rw [patternText, pathSegments, List.map_map]
  have hid : (Segment.text ∘ nameSegment) = id := funext fun s => nameSegment_text s
  rw [hid, map_id]
  exact intercalate_splitOn slash

theorem pathSegments_proper (h : isNamePath s = true) :
    ∀ segment ∈ pathSegments s, segment.Proper := by
  intro segment hsegment
  obtain ⟨name, hname, rfl⟩ := mem_map.mp hsegment
  exact nameSegment_proper (all_eq_true.mp h name hname)

theorem pathSegments_ne_nil (s : JsString) : pathSegments s ≠ [] := by
  rw [pathSegments]
  exact fun h => splitOn_ne_nil slash s (map_eq_nil_iff.mp h)

end Names

section Languages

variable {K : CodeUnit → CodeUnit} {s u v w : JsString} {names : List JsString}

def Same (K : CodeUnit → CodeUnit) (w s : JsString) : Prop := w.map K = s.map K

theorem mem_units : w ∈ lang K (.seqAll (s.map unit)) ↔ Same K w s := by
  induction s generalizing w with
  | nil =>
    simp only [Same, map_nil, map_eq_nil_iff]
    exact Iff.rfl
  | cons d s ih =>
    rw [map_cons]
    refine mem_seqAll_cons.trans ?_
    constructor
    · rintro ⟨u, hu, v, hv, rfl⟩
      obtain ⟨c, rfl, hc⟩ := mem_unit.mp hu
      rw [Same, map_append, ih.mp hv, map_cons, map_cons, hc]
      rfl
    · intro h
      cases w with
      | nil => cases h
      | cons c w =>
        obtain ⟨hc, hw⟩ := List.cons.inj h
        exact ⟨[c], mem_unit.mpr ⟨c, rfl, hc⟩, w, ih.mpr hw, rfl⟩

theorem Same.cons_left {c : CodeUnit} (hK : Fixes K c) (h : Same K w (c :: s)) :
    ∃ w', w = c :: w' ∧ Same K w' s := by
  cases w with
  | nil => cases h
  | cons d w =>
    obtain ⟨hd, hw⟩ := List.cons.inj h
    exact ⟨w, by rw [(hK d).mp hd], hw⟩

theorem Same.mem {c : CodeUnit} (hK : Fixes K c) (h : Same K w s) : c ∈ w ↔ c ∈ s := by
  have hmap (w : JsString) : c ∈ w ↔ K c ∈ w.map K := by
    rw [mem_map]
    constructor
    · exact fun hc => ⟨c, hc, rfl⟩
    · rintro ⟨d, hd, heq⟩
      rwa [← (hK d).mp heq]
  rw [hmap w, hmap s, show w.map K = s.map K from h]

theorem mem_append_units {r : List Pattern} : w ∈ lang K (.seqAll (s.map unit ++ r)) ↔
    ∃ u v, w = u ++ v ∧ Same K u s ∧ v ∈ lang K (.seqAll r) := by
  rw [lang, Regex.seqAll_append]
  refine Language.mem_mul.trans ?_
  constructor
  · rintro ⟨u, hu, v, hv, rfl⟩
    exact ⟨u, v, rfl, mem_units.mp hu, hv⟩
  · rintro ⟨u, v, rfl, hu, hv⟩
    exact ⟨u, mem_units.mpr hu, v, hv, rfl⟩

variable (hK : FixesSeparators K)
include hK

theorem mem_names (hne : names ≠ []) (hw : backslash ∉ w) :
    w ∈ lang K (.seqAll (segmentsRegEx (names.map nameSegment) false)) ↔
      Same K w ([slash].intercalate names) := by
  induction names generalizing w with
  | nil => exact (hne rfl).elim
  | cons name names ih =>
    rw [map_cons, nameSegment, segmentsRegEx, literals_regEx, append_assoc]
    refine mem_append_units.trans ?_
    cases names with
    | nil =>
      rw [intercalate_singleton]
      constructor
      · rintro ⟨u, v, rfl, hu, rfl⟩
        rwa [append_nil]
      · exact fun h => ⟨w, [], (append_nil w).symm, h, rfl⟩
    | cons next names =>
      have hslash : slashBehind ((next :: names).map nameSegment) = [pathRegex] := by
        cases names <;> rfl
      rw [hslash, intercalate_cons_cons, append_assoc]
      constructor
      · rintro ⟨u, v, rfl, hu, hv⟩
        obtain ⟨x, hx, rest, hrest, rfl⟩ := mem_seqAll_cons.mp hv
        obtain ⟨c, rfl, rfl | rfl⟩ := (mem_pathRegex hK).mp hx
        · have hsame := (ih (cons_ne_nil _ _) fun hc => hw (by simp [hc])).mp hrest
          simp only [Same, map_append] at hu hsame ⊢
          rw [hu, hsame]
        · exact (hw (by simp)).elim
      · intro h
        obtain ⟨u, v, rfl, hu, hv⟩ := map_eq_append_iff.mp
          (h.trans (map_append (f := K)))
        obtain ⟨rest, rfl, hrest⟩ := Same.cons_left hK.slash
          (show Same K v (slash :: [slash].intercalate (next :: names)) from hv)
        refine ⟨u, slash :: rest, rfl, hu, ?_⟩
        refine mem_seqAll_cons.mpr ⟨[slash], (mem_pathRegex hK).mpr ⟨slash, rfl, .inl rfl⟩,
          rest, ?_, rfl⟩
        exact (ih (cons_ne_nil _ _) fun hc => hw (by simp [hc])).mpr hrest

theorem mem_globstar_append {r : List Pattern} : w ∈ lang K (.seqAll
    (starsToRegExp 2 false :: r)) ↔ ∃ u v, w = u ++ v ∧ Closed u ∧ v ∈ lang K (.seqAll r) := by
  refine mem_seqAll_cons.trans ?_
  constructor
  · rintro ⟨u, hu, v, hv, rfl⟩
    exact ⟨u, v, rfl, (mem_globstar hK).mp hu, hv⟩
  · rintro ⟨u, v, rfl, hu, hv⟩
    exact ⟨u, (mem_globstar hK).mpr hu, v, hv, rfl⟩

omit hK in
theorem exists_last (w : JsString) : ∃ u v, w = u ++ v ∧ Closed u ∧ ∀ c ∈ v, ¬ IsSeparator c := by
  induction w using List.reverseRecOn with
  | nil => exact ⟨[], [], rfl, .inl rfl, fun _ hc => (not_mem_nil hc).elim⟩
  | append_singleton w c ih =>
    by_cases hc : IsSeparator c
    · exact ⟨w ++ [c], [], (append_nil _).symm, .inr ⟨w, c, rfl, hc⟩,
        fun _ hd => (not_mem_nil hd).elim⟩
    · obtain ⟨u, v, rfl, hu, hv⟩ := ih
      refine ⟨u, v ++ [c], append_assoc _ _ _, hu, forall_mem_append.mpr ⟨hv, ?_⟩⟩
      exact fun d hd => mem_singleton.mp hd ▸ hc

theorem mem_star_name : w ∈ lang K (.seqAll
    (segmentsRegEx [.globstar, starSegment s] false)) ↔ ∃ u v, w = u ++ v ∧ Same K v s := by
  have hstar : segmentsRegEx [.globstar, starSegment s] false =
      starsToRegExp 2 false :: .star noPathRegex :: s.map unit := by
    simp only [segmentsRegEx, starSegment, map_cons, literals_regEx, slashBehind, append_nil]
    rfl
  rw [hstar, mem_globstar_append hK]
  constructor
  · rintro ⟨u, v, rfl, -, hv⟩
    obtain ⟨x, -, y, hy, rfl⟩ := mem_seqAll_cons.mp hv
    exact ⟨u ++ x, y, (append_assoc _ _ _).symm, mem_units.mp hy⟩
  · rintro ⟨u, v, rfl, hv⟩
    obtain ⟨x, y, rfl, hx, hy⟩ := exists_last u
    exact ⟨x, y ++ v, append_assoc _ _ _, hx,
      mem_seqAll_cons.mpr ⟨y, (mem_star_noPathRegex hK).mpr hy, v, mem_units.mpr hv, rfl⟩⟩

theorem mem_anywhere_names (hne : names ≠ []) (hw : backslash ∉ w) :
    w ∈ lang K (.seqAll (segmentsRegEx (.globstar :: names.map nameSegment) false)) ↔ ∃ u v,
    w = u ++ v ∧ (u = [] ∨ ∃ u', u = u' ++ [slash]) ∧ Same K v ([slash].intercalate names) := by
  have hglob : segmentsRegEx (.globstar :: names.map nameSegment) false =
      starsToRegExp 2 false :: segmentsRegEx (names.map nameSegment) false := by
    cases names with
    | nil => exact (hne rfl).elim
    | cons name names => rfl
  rw [hglob, mem_globstar_append hK]
  refine exists_congr fun u => exists_congr fun v => and_congr_right fun heq => ?_
  subst heq
  rw [List.mem_append, not_or] at hw
  refine and_congr ?_ (mem_names hK hne hw.2)
  refine or_congr_right ?_
  constructor
  · rintro ⟨u', c, rfl, rfl | rfl⟩
    · exact ⟨u', rfl⟩
    · exact (hw.1 (by simp)).elim
  · rintro ⟨u', rfl⟩
    exact ⟨u', slash, rfl, .inl rfl⟩

end Languages

end CodeOss.Glob
