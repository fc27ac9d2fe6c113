import CodeOss.Glob.Languages
import CodeOss.Glob.Syntax

/-! The expression of a pattern matches a path exactly if the segments of the path are what the
segments of the pattern mean. -/

namespace CodeOss.Glob

open Regex List

section Pieces

variable {s : JsString} {r : Pattern} {rs : List Pattern}

variable {α : Type} {as : List α}

theorem mem_seqAll_map {f : α → Pattern} :
    s ∈ lang id (.seqAll (as.map f)) ↔ Parts (fun a s => s ∈ lang id (f a)) as s := by
  induction as generalizing s with
  | nil => exact Iff.rfl
  | cons a as ih =>
    rw [map_cons]
    refine mem_seqAll_cons.trans ?_
    constructor
    · rintro ⟨front, hfront, back, hback, rfl⟩
      exact ⟨front, back, rfl, hfront, ih.mp hback⟩
    · rintro ⟨front, back, rfl, hfront, hback⟩
      exact ⟨front, hfront, back, ih.mpr hback, rfl⟩

theorem parts_congr {means means' : α → JsString → Prop}
    (h : ∀ a ∈ as, ∀ s, (∀ c ∈ s, ¬ IsSeparator c) → (means a s ↔ means' a s))
    (hs : ∀ c ∈ s, ¬ IsSeparator c) : Parts means as s ↔ Parts means' as s := by
  induction as generalizing s with
  | nil => exact Iff.rfl
  | cons a as ih =>
    obtain ⟨ha, has⟩ := forall_mem_cons.mp h
    refine exists_congr fun front => exists_congr fun back => and_congr_right fun heq => ?_
    rw [heq] at hs
    obtain ⟨hfront, hback⟩ := forall_mem_append.mp hs
    exact and_congr (ha front hfront) (ih has hback)

theorem parts_no_slash {means : α → JsString → Prop} (h : ∀ a ∈ as, ∀ s, means a s → slash ∉ s)
    (hs : Parts means as s) : slash ∉ s := by
  induction as generalizing s with
  | nil =>
    rw [hs]
    exact not_mem_nil
  | cons a as ih =>
    obtain ⟨ha, has⟩ := forall_mem_cons.mp h
    obtain ⟨front, back, rfl, hfront, hback⟩ := hs
    rw [List.mem_append]
    exact not_or.mpr ⟨ha front hfront, ih has hback⟩

theorem class_sat {content : JsString} {c : CodeUnit} :
    CharacterClass.sat id ⟨(classVal content).negated,
    (readRanges (classVal content).atoms).getD []⟩ c = true ↔ InClass content c := by
  have hany :
      ((readRanges (classVal content).atoms).getD []).any (fun range => inRange id range c) =
        true ↔ ∃ range ∈ (readRanges (classVal content).atoms).getD [],
        range.1 ≤ c ∧ c ≤ range.2 := by
    rw [any_eq_true]
    refine exists_congr fun range => and_congr_right fun _ => inRange_iff.trans ?_
    constructor
    · rintro ⟨d, hfirst, hlast, rfl⟩
      exact ⟨hfirst, hlast⟩
    · rintro ⟨hfirst, hlast⟩
      exact ⟨c, hfirst, hlast, rfl⟩
  rw [InClass, ← hany, CharacterClass.sat]
  cases (classVal content).negated <;> simp

theorem Plain.mem_lang {p : Plain} (h : p.Proper) (hs : ∀ c ∈ s, ¬ IsSeparator c) :
    s ∈ lang id p.regEx ↔ p.Means s := by
  cases p with
  | literal c =>
    refine mem_unit.trans ?_
    constructor
    · rintro ⟨d, rfl, rfl⟩
      rfl
    · rintro rfl
      exact ⟨c, rfl, rfl⟩
  | star => exact iff_of_true ((mem_star_noPathRegex fixesSeparators_id).mpr hs) trivial
  | any =>
    refine (mem_noPathRegex fixesSeparators_id).trans ?_
    constructor
    · rintro ⟨c, rfl, -⟩
      exact ⟨c, rfl⟩
    · rintro ⟨c, rfl⟩
      exact ⟨c, rfl, hs c mem_cons_self⟩
  | oneOf content => exact mem_atom.trans (exists_congr fun c => and_congr_right fun _ => class_sat)

theorem Plain.no_slash {p : Plain} (h : p.Proper) (hin : p.Inside) (hs : s ∈ lang id p.regEx) :
    slash ∉ s := by
  cases p with
  | literal c =>
    obtain ⟨d, rfl, rfl⟩ := mem_unit.mp hs
    rw [mem_singleton]
    rintro rfl
    exact h mem_cons_self
  | star => exact fun hc => (mem_star_noPathRegex fixesSeparators_id).mp hs slash hc (.inl rfl)
  | any =>
    obtain ⟨c, rfl, hc⟩ := (mem_noPathRegex fixesSeparators_id).mp hs
    rw [mem_singleton]
    exact fun hslash => hc (.inl hslash.symm)
  | oneOf content =>
    obtain ⟨c, rfl, hc⟩ := mem_atom.mp hs
    rw [mem_singleton]
    rintro rfl
    exact hin (class_sat.mp hc)

variable {choices : List (List Plain)}

theorem mem_braces (hne : choices ≠ []) : s ∈ lang id (Piece.braces
    choices).regEx ↔ ∃ choice ∈ choices, Parts (fun p s => s ∈ lang id p.regEx) choice s := by
  rw [Piece.regEx, alternatives, if_neg (by simpa using hne), List.map_map]
  refine mem_altAll.trans ?_
  constructor
  · rintro ⟨r, hr, hs⟩
    obtain ⟨choice, hchoice, rfl⟩ := mem_map.mp hr
    exact ⟨choice, hchoice, mem_seqAll_map.mp hs⟩
  · rintro ⟨choice, hchoice, hs⟩
    exact ⟨_, mem_map.mpr ⟨choice, hchoice, rfl⟩, mem_seqAll_map.mpr hs⟩

theorem Piece.choices_ne_nil (h : (Piece.braces choices).Proper) : choices ≠ [] := by
  rintro rfl
  obtain ⟨-, last, hmem, -⟩ := h
  cases hmem

theorem Piece.mem_lang {p : Piece} (h : p.Proper) (hs : ∀ c ∈ s, ¬ IsSeparator c) :
    s ∈ lang id p.regEx ↔ p.Means s := by
  cases p with
  | plain p => exact Plain.mem_lang h hs
  | braces choices =>
    refine (mem_braces (Piece.choices_ne_nil h)).trans ?_
    refine exists_congr fun choice => and_congr_right fun hchoice => ?_
    exact parts_congr (fun p hp _ => Plain.mem_lang ((h.1 choice hchoice).1 p hp).1) hs

theorem Piece.no_slash {p : Piece} (h : p.Proper) (hin : p.Inside) (hs : s ∈ lang id p.regEx) :
    slash ∉ s := by
  cases p with
  | plain p => exact Plain.no_slash h hin hs
  | braces choices =>
    obtain ⟨choice, hchoice, hparts⟩ := (mem_braces (Piece.choices_ne_nil h)).mp hs
    refine parts_no_slash (fun p hp _ => ?_) hparts
    exact Plain.no_slash ((h.1 choice hchoice).1 p hp).1 (hin choice hchoice p hp)

theorem pieces_mem_lang {ps : List Piece} (h : ∀ p ∈ ps, p.Proper) (hs : ∀ c ∈ s, ¬ IsSeparator c) :
    s ∈ lang id (.seqAll (ps.map Piece.regEx)) ↔ Parts Piece.Means ps s :=
  mem_seqAll_map.trans (parts_congr (fun p hp _ => Piece.mem_lang (h p hp)) hs)

theorem pieces_no_slash {ps : List Piece} (h : ∀ p ∈ ps, p.Proper) (hin : ∀ p ∈ ps, p.Inside)
    (hs : s ∈ lang id (.seqAll (ps.map Piece.regEx))) : slash ∉ s :=
  parts_no_slash (fun p hp _ => Piece.no_slash (h p hp) (hin p hp)) (mem_seqAll_map.mp hs)

end Pieces

section Paths

variable {first second u v s : JsString} {path : List JsString}

theorem PathSegment.no_separator (h : PathSegment s) : ∀ c ∈ s, ¬ IsSeparator c := by
  rintro c hc (rfl | rfl)
  · exact h.2.1 hc
  · exact h.2.2 hc

theorem pathText_singleton : pathText [first] = first := intercalate_singleton

theorem pathText_cons (hne : path ≠ []) :
    pathText (first :: path) = first ++ slash :: pathText path := by
  rw [pathText, intercalate_cons_of_ne_nil hne, append_assoc]
  rfl

def pathTail (path : List JsString) : JsString :=
  if path = [] then [] else slash :: pathText path

theorem pathText_eq (first : JsString) (path : List JsString) :
    pathText (first :: path) = first ++ pathTail path := by
  rw [pathTail]
  split
  · rename_i hnil
    rw [hnil, pathText_singleton, append_nil]
  · rename_i hne
    exact pathText_cons hne

theorem pathText_head (h : PathSegment first) :
    ∃ d back, pathText (first :: path) = d :: back ∧ ¬ IsSeparator d := by
  rw [pathText_eq]
  cases first with
  | nil => exact (h.1 rfl).elim
  | cons d first => exact ⟨d, _, rfl, h.no_separator d List.mem_cons_self⟩

theorem backslash_not_mem (h : ∀ s ∈ path, PathSegment s) : backslash ∉ pathText path := by
  refine not_mem_intercalate (by decide) fun s hs => (h s hs).2.2

/-- A separator is followed by something else. -/
def Tidy (s : JsString) : Prop :=
  ∀ front c back, s = front ++ c :: back → IsSeparator c →
    ∃ d back', back = d :: back' ∧ ¬ IsSeparator d

theorem Tidy.suffix (h : Tidy (u ++ v)) : Tidy v := by
  intro front c back heq
  exact h (u ++ front) c back (by rw [heq, append_assoc])

theorem pathText_tidy (h : ∀ s ∈ path, PathSegment s) : Tidy (pathText path) := by
  induction path with
  | nil =>
    intro front c back heq
    simp [pathText] at heq
  | cons first path ih =>
    obtain ⟨hfirst, hpath⟩ := forall_mem_cons.mp h
    have hno := hfirst.no_separator
    intro front c back heq hc
    have hnot : ∀ rest, first ≠ front ++ c :: rest := by
      intro rest heq'
      exact hno c (by rw [heq']; simp) hc
    cases path with
    | nil =>
      rw [pathText_singleton] at heq
      exact (hnot back heq).elim
    | cons second path =>
      rw [pathText_cons (cons_ne_nil _ _)] at heq
      rcases append_eq_append_iff.mp heq with ⟨mid, hfront, hmid⟩ | ⟨mid, hfront, hmid⟩
      · cases mid with
        | nil =>
          obtain ⟨-, rfl⟩ := List.cons.inj hmid
          exact pathText_head (hpath second mem_cons_self)
        | cons e mid =>
          obtain ⟨-, hmid⟩ := List.cons.inj hmid
          exact ih hpath mid c back hmid hc
      · cases mid with
        | nil =>
          obtain ⟨rfl, rfl⟩ := List.cons.inj hmid
          exact pathText_head (hpath second mem_cons_self)
        | cons e mid =>
          obtain ⟨rfl, -⟩ := List.cons.inj hmid
          exact (hnot mid hfront).elim

theorem first_eq {t w : JsString} (h : u ++ t = v ++ w) (hu : slash ∉ u) (hv : slash ∉ v)
    (ht : t = [] ∨ t.head? = some slash) (hw : w = [] ∨ w.head? = some slash) : u = v ∧ t = w := by
  have hshort {u v t w : JsString} (h : u ++ t = v ++ w) (hv : slash ∉ v)
      (ht : t = [] ∨ t.head? = some slash) (mid : JsString) (hmid : v = u ++ mid)
      (hrest : t = mid ++ w) : mid = [] := by
    cases mid with
    | nil => rfl
    | cons c mid =>
      rcases ht with rfl | hhead
      · cases hrest
      · rw [hrest] at hhead
        obtain rfl := Option.some.inj hhead
        exact (hv (by rw [hmid]; simp)).elim
  rcases append_eq_append_iff.mp h with ⟨mid, hmid, hrest⟩ | ⟨mid, hmid, hrest⟩
  · have hnil := hshort h hv ht mid hmid hrest
    rw [hnil, append_nil] at hmid
    rw [hnil, nil_append] at hrest
    exact ⟨hmid.symm, hrest⟩
  · have hnil := hshort h.symm hu hw mid hmid hrest
    rw [hnil, append_nil] at hmid
    rw [hnil, nil_append] at hrest
    exact ⟨hmid, hrest.symm⟩

theorem pathTail_head (path : List JsString) :
    pathTail path = [] ∨ (pathTail path).head? = some slash := by
  rw [pathTail]
  split
  · exact .inl rfl
  · exact .inr rfl

theorem closed_split (h : ∀ s ∈ path, PathSegment s) (hne : path ≠ []) : (∃ u,
    Closed u ∧ pathText path = u ++ v) ↔ ∃ n, n < path.length ∧ v = pathText (path.drop n) := by
  induction path with
  | nil => exact (hne rfl).elim
  | cons first path ih =>
    obtain ⟨hfirst, hpath⟩ := forall_mem_cons.mp h
    constructor
    · rintro ⟨u, rfl | ⟨u, c, rfl, hc⟩, heq⟩
      · exact ⟨0, Nat.succ_pos _, heq.symm⟩
      · rw [append_assoc, singleton_append] at heq
        by_cases hnil : path = []
        · rw [hnil, pathText_singleton] at heq
          exact (hfirst.no_separator c (by rw [heq]; simp) hc).elim
        · have hclosed : ∃ u', Closed u' ∧ pathText path = u' ++ v := by
            rw [pathText_cons hnil] at heq
            rcases append_eq_append_iff.mp heq with ⟨mid, hmid, hrest⟩ | ⟨mid, hmid, hrest⟩
            · cases mid with
              | nil =>
                obtain ⟨-, hrest⟩ := List.cons.inj hrest
                exact ⟨[], .inl rfl, hrest⟩
              | cons d mid =>
                obtain ⟨-, hrest⟩ := List.cons.inj hrest
                exact ⟨mid ++ [c], .inr ⟨mid, c, rfl, hc⟩, by rw [hrest]; simp⟩
            · cases mid with
              | nil =>
                obtain ⟨-, hrest⟩ := List.cons.inj hrest
                exact ⟨[], .inl rfl, hrest.symm⟩
              | cons d mid =>
                obtain ⟨rfl, -⟩ := List.cons.inj hrest
                exact (hfirst.no_separator c (by rw [hmid]; simp) hc).elim
          obtain ⟨n, hn, hv⟩ := (ih hpath hnil).mp hclosed
          exact ⟨n + 1, Nat.succ_lt_succ hn, hv⟩
    · rintro ⟨n, hn, rfl⟩
      cases n with
      | zero => exact ⟨[], .inl rfl, rfl⟩
      | succ n =>
        have hn : n < path.length := Nat.lt_of_succ_lt_succ hn
        have hnil : path ≠ [] := by
          rintro rfl
          exact Nat.not_lt_zero _ hn
        obtain ⟨u, hu, heq⟩ := (ih hpath hnil).mpr ⟨n, hn, rfl⟩
        have hsep : Closed (first ++ [slash]) := .inr ⟨first, slash, rfl, .inl rfl⟩
        refine ⟨first ++ [slash] ++ u, hu.append hsep, ?_⟩
        rw [pathText_cons hnil, heq]
        simp

end Paths

/-- Not only a globstar, and not two of them at the end. -/
def WellEnded : List Segment → Prop
  | [] => False
  | [segment] => segment.isGlobstar = false
  | [segment, segment'] => ¬ (segment.isGlobstar = true ∧ segment'.isGlobstar = true)
  | _ :: segment :: segment' :: rest => WellEnded (segment :: segment' :: rest)

section Segments

variable {s v : JsString} {path : List JsString} {segments rest : List Segment} {ps : List Piece}

theorem means_globstars (h : segments.all Segment.isGlobstar = true) (hne : segments ≠ []) :
    Means segments path := by
  induction segments generalizing path with
  | nil => exact (hne rfl).elim
  | cons segment rest ih =>
    rw [all_cons, Bool.and_eq_true] at h
    cases segment with
    | pieces ps => cases h.1
    | globstar =>
      by_cases hrest : rest = []
      · refine ⟨path.length, le_refl _, ?_⟩
        rw [hrest, drop_length]
        rfl
      · exact ⟨0, Nat.zero_le _, ih h.2 hrest⟩

theorem WellEnded.exists_pieces (h : WellEnded segments) :
    ∃ segment ∈ segments, segment.isGlobstar = false := by
  fun_induction WellEnded segments with
  | case1 => exact h.elim
  | case2 segment => exact ⟨segment, mem_cons_self, h⟩
  | case3 segment segment' =>
    cases hs : segment.isGlobstar with
    | false => exact ⟨segment, mem_cons_self, hs⟩
    | true =>
      refine ⟨segment', mem_cons_of_mem _ mem_cons_self, ?_⟩
      exact Bool.eq_false_iff.mpr fun hs' => h ⟨hs, hs'⟩
  | case4 segment₀ segment segment' rest ih =>
    obtain ⟨s, hmem, hs⟩ := ih h
    exact ⟨s, mem_cons_of_mem _ hmem, hs⟩

theorem WellEnded.tail {segment : Segment} (h : WellEnded (segment :: rest)) (hne : rest ≠ [])
    (hglob : rest ≠ [.globstar]) : WellEnded rest := by
  rcases rest with _ | ⟨next, _ | ⟨next', rest⟩⟩
  · exact (hne rfl).elim
  · cases next with
    | globstar => exact (hglob rfl).elim
    | pieces ps => rfl
  · exact h

theorem not_means_nil (h : WellEnded segments) : ¬ Means segments [] := by
  obtain ⟨segment, hmem, hs⟩ := h.exists_pieces
  clear h
  intro hmeans
  induction segments with
  | nil => cases hmem
  | cons segment' rest ih =>
    cases segment' with
    | pieces ps =>
      obtain ⟨first, path', hnil, -⟩ := hmeans
      cases hnil
    | globstar =>
      obtain ⟨n, -, hrest⟩ := hmeans
      rw [drop_nil] at hrest
      rcases mem_cons.mp hmem with rfl | hmem
      · cases hs
      · exact ih hmem hrest

theorem mem_lastGlobstar_head (hv : v ∈ lang id (starsToRegExp 2 true)) (htidy : Tidy v) :
    v = [] ∨ ∃ c back, v = c :: back ∧ IsSeparator c := by
  refine star_induction (p := fun v => Tidy v → v = [] ∨ ∃ c back, v = c :: back ∧ IsSeparator c)
    (fun _ => .inl rfl) (fun u v hu _ ih htidy => ?_) hv htidy
  rcases hu with hu | hu | hu
  · obtain ⟨c, rfl, hc⟩ := (mem_pathRegex fixesSeparators_id).mp hu
    exact .inr ⟨c, v, rfl, hc⟩
  · obtain ⟨front, -, w, hw, rfl⟩ := mem_seq.mp hu
    obtain ⟨c, rfl, hc⟩ := (mem_pathRegex fixesSeparators_id).mp hw
    obtain ⟨d, back, rfl, hd⟩ := htidy front c v (by simp) hc
    rcases ih htidy.suffix with hnil | ⟨e, back', heq, he⟩
    · cases hnil
    · obtain ⟨rfl, -⟩ := List.cons.inj heq
      exact (hd he).elim
  · obtain ⟨w, hw, rest, -, rfl⟩ := mem_seq.mp hu
    obtain ⟨c, rfl, hc⟩ := (mem_pathRegex fixesSeparators_id).mp hw
    exact .inr ⟨c, rest ++ v, rfl, hc⟩

theorem pathTail_mem_lastGlobstar (h : ∀ s ∈ path, PathSegment s) :
    pathTail path ∈ lang id (starsToRegExp 2 true) := by
  induction path with
  | nil => exact nil_mem_star
  | cons first path ih =>
    obtain ⟨hfirst, hpath⟩ := forall_mem_cons.mp h
    rw [pathTail, if_neg (cons_ne_nil _ _), pathText_eq, ← cons_append]
    refine append_mem_star (.inr (.inr ?_)) (ih hpath)
    exact mem_seq.mpr ⟨[slash], (mem_pathRegex fixesSeparators_id).mpr ⟨slash, rfl, .inl rfl⟩,
      first, (mem_plus_noPathRegex fixesSeparators_id).mpr ⟨hfirst.1, hfirst.no_separator⟩, rfl⟩

theorem mem_globstar_cons (hne : rest.all Segment.isGlobstar = false) :
    s ∈ lang id (.seqAll (segmentsRegEx (.globstar :: rest) false)) ↔
      ∃ u, Closed u ∧ ∃ v ∈ lang id (.seqAll (segmentsRegEx rest false)), s = u ++ v := by
  have hnil {rest : List Segment} (h : rest.all Segment.isGlobstar = false) :
      rest.isEmpty = false := by
    cases rest with
    | nil => cases h
    | cons _ _ => rfl
  have hcons {r : List Pattern} {s : JsString} :
      s ∈ lang id (.seqAll (starsToRegExp 2 false :: r)) ↔
        ∃ u, Closed u ∧ ∃ v ∈ lang id (.seqAll r), s = u ++ v := by
    refine mem_seqAll_cons.trans (exists_congr fun u => and_congr ?_ ?_)
    · exact mem_globstar fixesSeparators_id
    · exact exists_congr fun v => and_congr_right fun _ => eq_comm
  rw [segmentsRegEx, hnil hne, hcons]
  cases rest with
  | nil => cases hne
  | cons segment rest =>
    cases segment with
    | pieces ps => exact Iff.rfl
    | globstar =>
      rw [segmentsRegEx, segmentsRegEx, hnil (show rest.all Segment.isGlobstar = false from hne)]
      constructor
      · rintro ⟨u, hu, v, hv, rfl⟩
        exact ⟨u, hu, v, hcons.mpr ⟨[], .inl rfl, v, hv, rfl⟩, rfl⟩
      · rintro ⟨u, hu, v, hv, rfl⟩
        obtain ⟨u', hu', v', hv', rfl⟩ := hcons.mp hv
        exact ⟨u ++ u', hu'.append hu, v', hv', by rw [append_assoc]⟩

variable {r : List Pattern} {first : JsString}

theorem mem_append {r' : List Pattern} : s ∈ lang id (.seqAll (r ++ r')) ↔
    ∃ u ∈ lang id (.seqAll r), ∃ v ∈ lang id (.seqAll r'), u ++ v = s := by
  rw [lang, Regex.seqAll_append]
  exact Language.mem_mul

theorem mem_pieces (hps : ∀ p ∈ ps, p.Proper) (hfirst : PathSegment first)
    (hmeans : Parts Piece.Means ps first) (htail : pathTail path ∈ lang id (.seqAll r)) :
    pathText (first :: path) ∈ lang id (.seqAll (ps.map Piece.regEx ++ r)) := by
  rw [mem_append, pathText_eq]
  exact ⟨first, (pieces_mem_lang hps hfirst.no_separator).mpr hmeans, _, htail, rfl⟩

theorem means_of_mem_pieces (hps : ∀ p ∈ ps, p.Proper) (hin : (∀ p ∈ ps, p.Inside) ∨ path = [])
    (hfirst : PathSegment first)
    (hr : ∀ u v, pathText (first :: path) = u ++ v → v ∈ lang id (.seqAll r) → v = [] ∨ v.head? =
    some slash)
    (hmem : pathText (first :: path) ∈ lang id (.seqAll (ps.map Piece.regEx ++ r))) :
    Parts Piece.Means ps first ∧ pathTail path ∈ lang id (.seqAll r) := by
  obtain ⟨u, hu, v, hv, heq⟩ := mem_append.mp hmem
  have hslash : slash ∉ u := by
    rcases hin with hin | rfl
    · exact pieces_no_slash hps hin hu
    · rw [pathText_singleton] at heq
      exact fun hc => hfirst.2.1 (heq ▸ mem_append_left v hc)
  have hback := hr u v heq.symm hv
  rw [pathText_eq] at heq
  obtain ⟨rfl, rfl⟩ := first_eq heq hslash hfirst.2.1 hback (pathTail_head path)
  exact ⟨(pieces_mem_lang hps hfirst.no_separator).mp hu, hv⟩

theorem pathTail_eq_nil : pathTail path = [] ↔ path = [] := by
  rw [pathTail]
  split
  · rename_i hnil
    exact iff_of_true rfl hnil
  · rename_i hne
    exact iff_of_false (cons_ne_nil _ _) hne

theorem means_pieces : Means (.pieces ps :: rest) (first :: path) ↔
    Parts Piece.Means ps first ∧ Means rest path := by
  constructor
  · rintro ⟨_, _, heq, hparts, hrest⟩
    obtain ⟨rfl, rfl⟩ := List.cons.inj heq
    exact ⟨hparts, hrest⟩
  · rintro ⟨hparts, hrest⟩
    exact ⟨first, path, rfl, hparts, hrest⟩

theorem WellEnded.behind_globstar (h : WellEnded (.globstar :: rest)) :
    rest.all Segment.isGlobstar = false ∧ WellEnded rest := by
  have hall : rest.all Segment.isGlobstar = false := by
    obtain ⟨s, hmem, hs⟩ := h.exists_pieces
    refine all_eq_false.mpr ⟨s, ?_, by rw [hs]; exact Bool.false_ne_true⟩
    rcases mem_cons.mp hmem with rfl | hmem
    · cases hs
    · exact hmem
  refine ⟨hall, h.tail ?_ ?_⟩
  · rintro rfl
    cases hall
  · rintro rfl
    cases hall

theorem mem_lastGlobstar : v ∈ lang id (.seqAll (segmentsRegEx [.globstar] false)) ↔
    v ∈ lang id (starsToRegExp 2 true) := by
  refine mem_seqAll_cons.trans ⟨?_, fun hv => ⟨v, hv, [], rfl, append_nil v⟩⟩
  rintro ⟨u, hu, w, hw, rfl⟩
  rw [show w = [] from hw, append_nil]
  exact hu

theorem slashBehind_eq (hnil : rest ≠ []) (hglob : rest ≠ [.globstar]) :
    slashBehind rest = [pathRegex] := by
  rcases rest with _ | ⟨next, _ | ⟨next', rest⟩⟩
  · exact (hnil rfl).elim
  · cases next with
    | globstar => exact (hglob rfl).elim
    | pieces ps' => rfl
  · cases next <;> rfl

theorem mem_segmentsRegEx (h : ∀ segment ∈ segments, segment.Proper) (hended : WellEnded segments)
    (hpath : ∀ s ∈ path, PathSegment s) (hne : path ≠ []) (hmeans : Means segments path) :
    pathText path ∈ lang id (.seqAll (segmentsRegEx segments false)) := by
  induction segments generalizing path with
  | nil => exact hended.elim
  | cons segment rest ih =>
    obtain ⟨hsegment, hrest⟩ := forall_mem_cons.mp h
    cases segment with
    | globstar =>
      obtain ⟨hall, htail⟩ := hended.behind_globstar
      obtain ⟨n, hle, hmeans⟩ := hmeans
      have hnot : path.drop n ≠ [] := fun hnil => not_means_nil htail (hnil ▸ hmeans)
      have hn : n < path.length := not_le.mp fun hle => hnot (drop_eq_nil_iff.mpr hle)
      obtain ⟨u, hu, heq⟩ := (closed_split hpath hne).mpr ⟨n, hn, rfl⟩
      refine (mem_globstar_cons hall).mpr ⟨u, hu, _, ih hrest htail ?_ hnot hmeans, heq⟩
      exact fun s hs => hpath s (mem_of_mem_drop hs)
    | pieces ps =>
      obtain ⟨first, path, rfl, hparts, hmeans⟩ := hmeans
      obtain ⟨hfirst, hpath'⟩ := forall_mem_cons.mp hpath
      rw [segmentsRegEx, append_assoc]
      refine mem_pieces hsegment.2.1 hfirst hparts ?_
      by_cases hnil : rest = []
      · -- The last segment.
        subst hnil
        exact pathTail_eq_nil.mpr hmeans
      by_cases hglob : rest = [.globstar]
      · -- What is behind it is left to the `**`.
        subst hglob
        exact mem_lastGlobstar.mpr (pathTail_mem_lastGlobstar hpath')
      · -- A slash, and the other segments.
        have htail := hended.tail hnil hglob
        have hend : path ≠ [] := fun hend => not_means_nil htail (hend ▸ hmeans)
        rw [slashBehind_eq hnil hglob, singleton_append, pathTail, if_neg hend]
        exact mem_seqAll_cons.mpr ⟨[slash], (mem_pathRegex fixesSeparators_id).mpr
          ⟨slash, rfl, .inl rfl⟩, _, ih hrest htail hpath' hend hmeans, rfl⟩

/-- A class that matches a slash may match one between segments. -/
def Bounded (segments : List Segment) (path : List JsString) : Prop :=
  (∀ segment ∈ segments, segment.Inside) ∨ path.length = 1

theorem Bounded.drop {n : ℕ} (h : Bounded (.globstar :: rest) path) (hn : n < path.length) :
    Bounded rest (path.drop n) := by
  refine h.imp (fun h => (forall_mem_cons.mp h).2) fun h => ?_
  rw [List.length_drop]
  omega

theorem Bounded.tail {segment : Segment} (h : Bounded (segment :: rest) (first :: path))
    (hne : path ≠ []) : Bounded rest path := by
  rcases h with h | h
  · exact .inl (forall_mem_cons.mp h).2
  · exact (hne (length_eq_zero_iff.mp (Nat.succ.inj h))).elim

theorem means_of_mem_segmentsRegEx (h : ∀ segment ∈ segments, segment.Proper)
    (hended : WellEnded segments) (hpath : ∀ s ∈ path, PathSegment s) (hne : path ≠ [])
    (hbounded : Bounded segments path)
    (hmem : pathText path ∈ lang id (.seqAll (segmentsRegEx segments false))) :
    Means segments path := by
  induction segments generalizing path with
  | nil => exact hended.elim
  | cons segment rest ih =>
    obtain ⟨hsegment, hrest⟩ := forall_mem_cons.mp h
    cases segment with
    | globstar =>
      obtain ⟨hall, htail⟩ := hended.behind_globstar
      obtain ⟨u, hu, v, hv, heq⟩ := (mem_globstar_cons hall).mp hmem
      obtain ⟨n, hn, rfl⟩ := (closed_split hpath hne).mp ⟨u, hu, heq⟩
      refine ⟨n, hn.le, ih hrest htail ?_ ?_ (hbounded.drop hn) hv⟩
      · exact fun s hs => hpath s (mem_of_mem_drop hs)
      · exact fun hnil => absurd (drop_eq_nil_iff.mp hnil) (not_le.mpr hn)
    | pieces ps =>
      cases path with
      | nil => exact (hne rfl).elim
      | cons first path =>
        obtain ⟨hfirst, hpath'⟩ := forall_mem_cons.mp hpath
        have hin : (∀ p ∈ ps, p.Inside) ∨ path = [] :=
          hbounded.imp (fun h => (forall_mem_cons.mp h).1)
            fun h => length_eq_zero_iff.mp (Nat.succ.inj h)
        have htidy := pathText_tidy hpath
        have hback : ∀ u v, pathText (first :: path) = u ++ v → ∀ c back, v = c :: back →
            IsSeparator c → v.head? = some slash := by
          rintro u v heq c back rfl (rfl | rfl)
          · rfl
          · exact (backslash_not_mem hpath (by rw [heq]; simp)).elim
        rw [segmentsRegEx, append_assoc] at hmem
        rw [means_pieces]
        by_cases hnil : rest = []
        · -- The last segment.
          subst hnil
          rw [slashBehind, segmentsRegEx, append_nil] at hmem
          have hlast := means_of_mem_pieces (r := []) hsegment.2.1 hin hfirst
            (fun u v _ hv => .inl hv) hmem
          exact ⟨hlast.1, pathTail_eq_nil.mp hlast.2⟩
        by_cases hglob : rest = [.globstar]
        · -- What is behind it is left to the `**`.
          subst hglob
          rw [slashBehind, nil_append] at hmem
          refine ⟨(means_of_mem_pieces hsegment.2.1 hin hfirst (fun u v heq hv => ?_) hmem).1,
            means_globstars rfl (by simp)⟩
          have htidy' : Tidy v := (heq ▸ htidy).suffix
          rcases mem_lastGlobstar_head (mem_lastGlobstar.mp hv) htidy' with
            rfl | ⟨c, back, hv, hc⟩
          · exact .inl rfl
          · exact .inr (hback u v heq c back hv hc)
        · -- A slash, and the other segments.
          have htail := hended.tail hnil hglob
          rw [slashBehind_eq hnil hglob, singleton_append] at hmem
          obtain ⟨hparts, hmem⟩ := means_of_mem_pieces hsegment.2.1 hin hfirst
            (fun u v heq hv => by
              obtain ⟨w, hw, back, -, rfl⟩ := mem_seqAll_cons.mp hv
              obtain ⟨c, rfl, hc⟩ := (mem_pathRegex fixesSeparators_id).mp hw
              exact .inr (hback u _ heq c back rfl hc)) hmem
          obtain ⟨w, hw, back, hmem, heq⟩ := mem_seqAll_cons.mp hmem
          obtain ⟨c, rfl, -⟩ := (mem_pathRegex fixesSeparators_id).mp hw
          have hend : path ≠ [] := by
            rintro rfl
            cases heq
          rw [pathTail, if_neg hend] at heq
          obtain ⟨-, rfl⟩ := List.cons.inj heq
          exact ⟨hparts, ih hrest htail hpath' hend (hbounded.tail hend) hmem⟩

theorem mem_dots : s ∈ lang id (.seqAll [.star dot]) ↔
    ∀ c ∈ s, c ∉ ([10, 13, 0x2028, 0x2029] : List CodeUnit) := by
  have hdot {w : JsString} : w ∈ lang id dot ↔
      ∃ c, w = [c] ∧ c ∉ ([10, 13, 0x2028, 0x2029] : List CodeUnit) := by
    refine mem_atom.trans (exists_congr fun c => and_congr_right fun _ => ?_)
    rw [CharacterClass.sat, Bool.true_xor, Bool.not_eq_true', Bool.eq_false_iff]
    simp only [any_cons, any_nil, Bool.or_false, ne_eq, Bool.or_eq_true, inRange_self, id,
      mem_cons, not_mem_nil, or_false]
    simp only [eq_comm]
  have hstar : s ∈ lang id (.seqAll [.star dot]) ↔ s ∈ lang id (.star dot) := by
    refine mem_seqAll_cons.trans ⟨?_, fun hs => ⟨s, hs, [], rfl, append_nil s⟩⟩
    rintro ⟨u, hu, w, hw, rfl⟩
    rw [show w = [] from hw, append_nil]
    exact hu
  rw [hstar]
  clear hstar
  constructor
  · intro hs
    refine star_induction (p := fun s => ∀ c ∈ s, c ∉ ([10, 13, 0x2028, 0x2029] : List CodeUnit))
      (fun _ hc => (not_mem_nil hc).elim) (fun u v hu _ ih => ?_) hs
    obtain ⟨c, rfl, hc⟩ := hdot.mp hu
    exact forall_mem_cons.mpr ⟨hc, ih⟩
  · intro hs
    induction s with
    | nil => exact nil_mem_star
    | cons c s ih =>
      obtain ⟨hc, hs⟩ := forall_mem_cons.mp hs
      exact append_mem_star (u := [c]) (hdot.mpr ⟨c, rfl, hc⟩) (ih hs)

/-- Where a pattern is not only of `**`, it does not end with two of them; where it is, the path
has no line terminator, which the expression does not match. -/
def Apt (segments : List Segment) (path : List JsString) : Prop :=
  if segments.all Segment.isGlobstar = true then
    ∀ c ∈ pathText path, c ∉ ([10, 13, 0x2028, 0x2029] : List CodeUnit)
  else WellEnded segments

theorem regExpTest_iff (canonicalize : CodeUnit → CodeUnit) :
    regExpTest canonicalize (patternRegEx segments) false (pathText path) = true ↔
      pathText path ∈ lang id (.seqAll (patternRegEx segments)) :=
  test_iff _

theorem regExpTest_of_means (h : ∀ segment ∈ segments, segment.Proper)
    (hpath : ∀ s ∈ path, PathSegment s) (hne : path ≠ []) (hapt : Apt segments path)
    (canonicalize : CodeUnit → CodeUnit) (hmeans : Means segments path) :
    regExpTest canonicalize (patternRegEx segments) false (pathText path) = true := by
  rw [regExpTest_iff, patternRegEx]
  rw [Apt] at hapt
  split
  · rename_i hall
    rw [if_pos hall] at hapt
    exact mem_dots.mpr hapt
  · rename_i hall
    rw [if_neg hall] at hapt
    exact mem_segmentsRegEx h hapt hpath hne hmeans

/-- Nothing else is matched, unless a class matches a slash of the path. -/
theorem means_of_regExpTest (h : ∀ segment ∈ segments, segment.Proper) (hsegments : segments ≠ [])
    (hpath : ∀ s ∈ path, PathSegment s) (hne : path ≠ []) (hapt : Apt segments path)
    (hbounded : Bounded segments path) (canonicalize : CodeUnit → CodeUnit)
    (htest : regExpTest canonicalize (patternRegEx segments) false (pathText path) = true) :
    Means segments path := by
  rw [regExpTest_iff, patternRegEx] at htest
  rw [Apt] at hapt
  split at htest
  · rename_i hall
    exact means_globstars hall hsegments
  · rename_i hall
    rw [if_neg hall] at hapt
    exact means_of_mem_segmentsRegEx h hapt hpath hne hbounded htest

end Segments

end CodeOss.Glob
