import CodeOss.Glob.IgnoringCase

/-! A pattern of one of the common shapes is tested as its expression would test it. -/

namespace CodeOss.Glob

open Regex List

structure PosixPath (path : JsString) : Prop where
  ne_nil : path ≠ []
  no_backslash : backslash ∉ path

/-- Upper and lower case of the path are told apart as in ASCII. -/
def CaseKnown (options : Options) (path : JsString) : Prop :=
  options.ignoreCase = true → ∀ c ∈ path, c ∉ exotic

/-- The base name is given or not. It is given only for the root and for a path without a slash at
its end. -/
def BaseOf (path : JsString) (base : Option JsString) : Prop :=
  base = none ∨
    (base = some (basename path) ∧ (path.getLast? = some slash → path = [slash]))

section Paths

variable {path u v s : JsString}

/-- Nothing, or what ends with a slash. -/
def SlashClosed (u : JsString) : Prop := u = [] ∨ ∃ u', u = u' ++ [slash]

theorem takeWhile_reverse {p : CodeUnit → Bool} {c : CodeUnit} (hv : ∀ d ∈ v, p d = true)
    (hc : p c = false) : ((u ++ c :: v).reverse.takeWhile p).reverse = v := by
  have hrev : ∀ d ∈ v.reverse, p d = true := fun d hd => hv d (mem_reverse.mp hd)
  rw [reverse_append, reverse_cons, append_assoc,
    takeWhile_append_of_pos hrev, singleton_append, takeWhile_cons, hc]
  simp

theorem lastName_append (hpath : backslash ∉ u ++ v) (hu : SlashClosed u) (hv : slash ∉ v) :
    lastName (u ++ v) = v := by
  have hall : ∀ d ∈ v, (decide (d ≠ slash) && decide (d ≠ backslash)) = true := by
    intro d hd
    rw [Bool.and_eq_true, decide_eq_true_eq, decide_eq_true_eq]
    exact ⟨fun h => hv (h ▸ hd), fun h => hpath (mem_append_right _ (h ▸ hd))⟩
  rw [lastName]
  rcases hu with rfl | ⟨u', rfl⟩
  · rw [nil_append, takeWhile_eq_self_iff.mpr fun d hd => hall d (mem_reverse.mp hd),
      reverse_reverse]
  · rw [append_assoc, singleton_append]
    exact takeWhile_reverse hall rfl

theorem exists_lastName (hpath : backslash ∉ path) :
    ∃ u, path = u ++ lastName path ∧ SlashClosed u ∧ slash ∉ lastName path := by
  obtain ⟨u, v, rfl, hu, hv⟩ := exists_last path
  have hclosed : SlashClosed u := by
    rcases hu with rfl | ⟨u', c, rfl, rfl | rfl⟩
    · exact .inl rfl
    · exact .inr ⟨u', rfl⟩
    · exact (hpath (by simp)).elim
  have hslash : slash ∉ v := fun h => hv slash h (.inl rfl)
  have hlast := lastName_append hpath hclosed hslash
  exact ⟨u, by rw [hlast], hclosed, by rwa [hlast]⟩

theorem basename_eq (h : PosixPath path) (hends : path.getLast? = some slash → path = [slash]) :
    basename path = lastName path := by
  obtain ⟨u, hpath, hu, hslash⟩ := exists_lastName h.no_backslash
  rw [basename]
  by_cases hnil : lastName path = []
  · have hroot : path = [slash] := by
      rw [hnil, append_nil] at hpath
      rcases hu with rfl | ⟨u', rfl⟩
      · exact (h.ne_nil hpath).elim
      · exact hends (by rw [hpath]; simp)
    rw [hroot]
    rfl
  · have hne : ∀ c ∈ (lastName path).reverse, (decide (c ≠ slash)) = true := by
      intro c hc
      rw [decide_eq_true_eq]
      exact fun heq => hslash (heq ▸ mem_reverse.mp hc)
    have hdrop : path.reverse.dropWhile (· = slash) = path.reverse := by
      cases hrev : (lastName path).reverse with
      | nil => exact (hnil (reverse_eq_nil_iff.mp hrev)).elim
      | cons c rest =>
        have hc : c ≠ slash := of_decide_eq_true (hne c (hrev ▸ mem_cons_self))
        rw [hpath, reverse_append, hrev, cons_append, dropWhile_cons_of_neg]
        simpa using hc
    rw [hdrop]
    rcases hu with rfl | ⟨u', rfl⟩
    · rw [nil_append] at hpath
      rw [takeWhile_eq_self_iff.mpr (by rwa [hpath]), reverse_reverse]
      exact hpath
    · rw [append_assoc, singleton_append] at hpath
      conv_lhs => rw [hpath]
      exact takeWhile_reverse (fun c hc => hne c (mem_reverse.mpr hc)) rfl

end Paths

section Comparisons

variable {P : Platform} {options : Options} {path target base : JsString}

theorem endsWith_slash_iff (hP : P.Known options) (hcase : CaseKnown options path)
    (htarget : IsAscii target) :
    (equals P options path target || endsWith P options path (slash :: target)) = true ↔
      ∃ u v, path = u ++ v ∧ SlashClosed u ∧ Same (reading P options) v target := by
  have hslash : IsAscii (slash :: target) := List.forall_mem_cons.mpr ⟨by decide, htarget⟩
  rw [Bool.or_eq_true, equals_iff hP hcase htarget, endsWith_iff hP hcase hslash]
  constructor
  · rintro (h | ⟨u, v, rfl, hv⟩)
    · exact ⟨[], path, rfl, .inl rfl, h⟩
    · obtain ⟨v', rfl, hv'⟩ := hv.cons_left (fixesSeparators hP).slash
      exact ⟨u ++ [slash], v', by simp, .inr ⟨u, rfl⟩, hv'⟩
  · rintro ⟨u, v, rfl, rfl | ⟨u', rfl⟩, hv⟩
    · exact .inl hv
    · refine .inr ⟨u', slash :: v, by simp, ?_⟩
      rw [Same, List.map_cons, List.map_cons, show v.map _ = target.map _ from hv]

theorem lastName_iff (hP : P.Known options) (hpath : backslash ∉ path) (hbase : slash ∉ base) :
    (∃ u v, path = u ++ v ∧ SlashClosed u ∧ Same (reading P options) v base) ↔
      Same (reading P options) (lastName path) base := by
  constructor
  · rintro ⟨u, v, rfl, hu, hv⟩
    rwa [lastName_append hpath hu fun h => hbase ((hv.mem (fixesSeparators hP).slash).mp h)]
  · intro h
    obtain ⟨u, heq, hu, -⟩ := exists_lastName hpath
    exact ⟨u, _, heq, hu, h⟩

theorem not_endsWith_backslash (hP : P.Known options) (hcase : CaseKnown options path)
    (hpath : backslash ∉ path) (htarget : IsAscii target) (h : backslash ∈ target) :
    equals P options path target = false ∧ endsWith P options path target = false := by
  have hfixes := (@fixesSeparators P options hP).backslash
  constructor
  · refine Bool.eq_false_iff.mpr fun heq => hpath ?_
    exact (((equals_iff hP hcase htarget).mp heq).mem hfixes).mpr h
  · refine Bool.eq_false_iff.mpr fun heq => ?_
    obtain ⟨u, v, rfl, hv⟩ := (endsWith_iff hP hcase htarget).mp heq
    exact hpath (mem_append_right _ ((hv.mem hfixes).mpr h))

theorem isAscii_of_names (h : ∀ c ∈ target, isNameChar c = true ∨ c = slash) : IsAscii target := by
  intro c hc
  rcases h c hc with hname | rfl
  · exact (isNameChar_spec hname).2.2
  · decide

theorem isName_isAscii (h : isName base = true) : IsAscii base :=
  isAscii_of_names fun c hc => .inl ((isName_iff.mp h).2 c hc)

theorem isName_no_separator (h : isName base = true) : slash ∉ base ∧ backslash ∉ base := by
  have hall := (isName_iff.mp h).2
  exact ⟨fun hc => absurd (hall _ hc) (by decide), fun hc => absurd (hall _ hc) (by decide)⟩

theorem isNamePath_chars (h : isNamePath target = true) :
    ∀ c ∈ target, isNameChar c = true ∨ c = slash := by
  intro c hc
  have hjoin : [slash].intercalate (target.splitOn slash) = target :=
    intercalate_splitOn slash
  rw [← hjoin] at hc
  by_contra hnot
  rw [not_or] at hnot
  refine not_mem_intercalate ?_ (fun name hname hmem => ?_) hc
  · exact fun h => hnot.2 (mem_singleton.mp h)
  · exact hnot.1 ((isName_iff.mp (all_eq_true.mp h name hname)).2 c hmem)

end Comparisons

section Recognized

variable {pattern base target rest front : JsString} {segments : List Segment}

theorem behind_eq (h : behind front pattern = some rest) : pattern = front ++ rest := by
  rw [behind] at h
  split at h
  · rename_i hfront
    obtain ⟨back, rfl⟩ := isPrefixOf_iff_prefix.mp hfront
    rw [drop_left] at h
    rw [Option.some.inj h]
  · cases h

theorem dropSlash_cases (s : JsString) : s = dropSlash s ∨ s = dropSlash s ++ [slash] := by
  rw [dropSlash]
  split
  · rename_i hlast
    exact .inr (dropLast_append_getLast? slash hlast).symm
  · exact .inl rfl

theorem parseRegExp_eq (h : ∀ segment ∈ segments, segment.Proper) (hne : segments ≠ [])
    (hglob : segments.all Segment.isGlobstar = false)
    (hpattern : pattern = patternText segments ∨ pattern = patternText segments ++ [slash]) :
    parseRegExp pattern = some (segmentsRegEx segments false) := by
  have hregEx : patternRegEx segments = segmentsRegEx segments false :=
    if_neg (by rw [hglob]; exact Bool.false_ne_true)
  rcases hpattern with rfl | rfl
  · rw [parseRegExp_patternText h hne, hregEx]
  · rw [parseRegExp_patternText_slash h hne, hregEx]

theorem anywhere_text (hne : segments ≠ []) :
    patternText (.globstar :: segments) = anywhere ++ patternText segments := by
  rw [patternText, map_cons, intercalate_cons_of_ne_nil (by simpa using hne)]
  rfl

theorem patternText_singleton (segment : Segment) : patternText [segment] = segment.text :=
  intercalate_singleton

theorem star_regExp (h : isName base = true) (hpattern :
    pattern = anywhere ++ asterisk :: base ∨ pattern = anywhere ++ asterisk :: base ++ [slash]) :
    parseRegExp pattern = some (segmentsRegEx [.globstar, starSegment base] false) := by
  refine parseRegExp_eq ?_ (by simp) rfl ?_
  · exact forall_mem_cons.mpr ⟨trivial, forall_mem_cons.mpr
      ⟨starSegment_proper h, fun _ hs => (not_mem_nil hs).elim⟩⟩
  · rwa [anywhere_text (cons_ne_nil _ _), patternText_singleton, starSegment_text]

theorem anywhere_regExp (h : isNamePath target = true)
    (hpattern : pattern = anywhere ++ target ∨ pattern = anywhere ++ target ++ [slash]) :
    parseRegExp pattern =
    some (segmentsRegEx (.globstar :: (target.splitOn slash).map nameSegment) false) := by
  refine parseRegExp_eq ?_ (cons_ne_nil _ _) ?_ ?_
  · exact forall_mem_cons.mpr ⟨trivial, pathSegments_proper h⟩
  · cases hsplit : target.splitOn slash with
    | nil => exact (splitOn_ne_nil slash target hsplit).elim
    | cons name names => rfl
  · have htext : patternText (.globstar :: (target.splitOn slash).map nameSegment) =
        anywhere ++ target := by
      refine (anywhere_text (pathSegments_ne_nil target)).trans ?_
      rw [pathSegments_text]
    rwa [htext]

theorem names_regExp
    (h : isNamePath target = true) (hpattern : pattern = target ∨ pattern = target ++ [slash]) :
    parseRegExp pattern = some (segmentsRegEx ((target.splitOn slash).map nameSegment) false) := by
  refine parseRegExp_eq (pathSegments_proper h) (pathSegments_ne_nil target) ?_ ?_
  · cases hsplit : target.splitOn slash with
    | nil => exact (splitOn_ne_nil slash target hsplit).elim
    | cons name names => rfl
  · rwa [show patternText ((target.splitOn slash).map nameSegment) = target from
      pathSegments_text target]

theorem isNamePath_of_isName (h : isName base = true) : isNamePath base = true := by
  have hsplit : base.splitOn slash = [base] :=
    splitOn_eq_singleton (isName_no_separator h).1
  rw [isNamePath, hsplit, all_cons, h]
  rfl

theorem testT1_eq (h : testT1 pattern = true) :
    isName (pattern.drop 4) = true ∧ pattern = anywhere ++ asterisk :: pattern.drop 4 := by
  rw [testT1] at h
  split at h
  · cases h
  · rename_i rest hbehind
    rw [behind_eq hbehind]
    obtain ⟨-, hall⟩ := isName_iff.mp h
    refine ⟨isName_iff.mpr ⟨cons_ne_nil _ _, forall_mem_cons.mpr ⟨by decide, hall⟩⟩, rfl⟩

theorem matchT2_eq (h : matchT2 pattern = some base) :
    isName base = true ∧ (pattern = anywhere ++ base ∨ pattern = anywhere ++ base ++ [slash]) := by
  obtain ⟨rest, hbehind, h⟩ := Option.bind_eq_some_iff.mp h
  split at h
  · rename_i hname
    obtain rfl := Option.some.inj h
    refine ⟨hname, ?_⟩
    rw [behind_eq hbehind, append_assoc, append_right_inj, append_right_inj]
    exact dropSlash_cases rest
  · cases h

theorem matchT4_eq (h : matchT4 pattern = some target) : isNamePath target = true ∧
    (pattern = anywhere ++ target ∨ pattern = anywhere ++ target ++ [slash]) := by
  obtain ⟨rest, hbehind, h⟩ := Option.bind_eq_some_iff.mp h
  split at h
  · rename_i hname
    obtain rfl := Option.some.inj h
    refine ⟨hname, ?_⟩
    rw [behind_eq hbehind, append_assoc, append_right_inj, append_right_inj]
    exact dropSlash_cases rest
  · cases h

theorem matchT5_eq (h : matchT5 pattern = some target) :
    isNamePath target = true ∧ (pattern = target ∨ pattern = target ++ [slash]) := by
  rw [matchT5] at h
  split at h
  · rename_i hname
    obtain rfl := Option.some.inj h
    exact ⟨hname, dropSlash_cases pattern⟩
  · cases h

end Recognized

section Agreement

variable {P : Platform} {options : Options} {pattern path : JsString} {base : Option JsString}

/-- What the expression of a pattern says of a path. -/
def regExpMatches (P : Platform) (options : Options) (pattern path : JsString) : Bool :=
  (parseRegExp pattern).any fun regEx => regExpTest P.canonicalize regEx options.ignoreCase path

def parseOne (P : Platform) (options : Options) (pattern : JsString) : Option ParsedStringPattern :=
  (parseFresh P options (fun _ cache => (none, cache)) pattern []).1

theorem regExpMatches_iff {regEx : List Pattern} (h : parseRegExp pattern = some regEx) :
    regExpMatches P options pattern path = true ↔
      path ∈ lang (reading P options) (.seqAll regEx) := by
  rw [regExpMatches, h, Option.any_some, regExpTest, test_iff]
  rfl

/-- What a parsed pattern finds in a path is what its expression finds. If it has names, the last
name of the path is one of them, but perhaps for case, exactly if the expression matches. -/
structure Agrees (P : Platform) (options : Options) (path : JsString) (base : Option JsString)
    (pattern text : JsString) (parsed : ParsedStringPattern) : Prop where
  result : parsed.run path base =
    if regExpMatches P options pattern path then some text else none
  named : ∀ names, parsed.basenames = some names →
    parsed.patterns = some (names.map fun _ => text) ∧
      (regExpMatches P options pattern path = true ↔
        ∃ name ∈ names, Same (reading P options) (lastName path) name)

theorem trivia1_agrees (hP : P.Known options) (hcase : CaseKnown options path)
    (h : testT1 pattern = true) :
    Agrees P options path base pattern pattern (trivia1 P options (pattern.drop 4) pattern) := by
  obtain ⟨hname, hpattern⟩ := testT1_eq h
  have hmatch :
      endsWith P options path (pattern.drop 4) = regExpMatches P options pattern path := by
    rw [Bool.eq_iff_iff, regExpMatches_iff (star_regExp hname (.inl hpattern)),
      mem_star_name (fixesSeparators hP), endsWith_iff hP hcase (isName_isAscii hname)]
  exact ⟨by simp only [trivia1, hmatch], fun _ hnames => nomatch hnames⟩

theorem mem_anywhere (hP : P.Known options) {target : JsString} (hpath : backslash ∉ path)
    (h : isNamePath target = true)
    (hpattern : pattern = anywhere ++ target ∨ pattern = anywhere ++ target ++ [slash]) :
    regExpMatches P options pattern path = true ↔
      ∃ u v, path = u ++ v ∧ SlashClosed u ∧ Same (reading P options) v target := by
  rw [regExpMatches_iff (anywhere_regExp h hpattern),
    mem_anywhere_names (fixesSeparators hP) (List.splitOn_ne_nil slash target) hpath,
    show [slash].intercalate (target.splitOn slash) = target from List.intercalate_splitOn slash]
  rfl

theorem trivia2_agrees (hP : P.Known options) (hpath : PosixPath path)
    (hcase : CaseKnown options path)
    (hbase : BaseOf path base) {name : JsString} (h : matchT2 pattern = some name) :
    Agrees P options path base pattern pattern (trivia2 P options name pattern) := by
  obtain ⟨hname, hpattern⟩ := matchT2_eq h
  obtain ⟨hslash, hbackslash⟩ := isName_no_separator hname
  have hascii := isName_isAscii hname
  have hlast := @lastName_iff P options path name hP hpath.no_backslash hslash
  have hregExp := @mem_anywhere P options pattern path hP name hpath.no_backslash
    (isNamePath_of_isName hname) hpattern
  have hnamed : ∀ names, (trivia2 P options name pattern).basenames = some names →
      (trivia2 P options name pattern).patterns = some (names.map fun _ => pattern) ∧
        (regExpMatches P options pattern path = true ↔
          ∃ name ∈ names, Same (reading P options) (lastName path) name) := by
    intro names hnames
    obtain rfl : [name] = names := Option.some.inj hnames
    refine ⟨rfl, (hregExp.trans hlast).trans ?_⟩
    simp
  refine ⟨?_, hnamed⟩
  rw [trivia2]
  -- Without the base name the path is tested, which is the same.
  have hwhole : (equals P options path name || endsWith P options path (slash :: name) ||
      endsWith P options path (backslash :: name)) = regExpMatches P options pattern path := by
    have hno := (not_endsWith_backslash hP hcase hpath.no_backslash
      (forall_mem_cons.mpr ⟨by decide, hascii⟩) mem_cons_self).2
    rw [hno, Bool.or_false, Bool.eq_iff_iff, endsWith_slash_iff hP hcase hascii, hregExp]
  have hshort : ∀ c ∈ lastName path, c ∈ path := by
    obtain ⟨u, heq, -, -⟩ := exists_lastName hpath.no_backslash
    intro c hc
    rw [heq]
    exact mem_append_right _ hc
  rcases hbase with rfl | ⟨rfl, hends⟩
  · simp only [hwhole]
  · rw [basename_eq hpath hends]
    cases hlastName : lastName path with
    | nil => simp only [hwhole]
    | cons c rest =>
      have hequals :
          equals P options (c :: rest) name = regExpMatches P options pattern path := by
        rw [Bool.eq_iff_iff, hregExp, hlast, hlastName]
        refine equals_iff hP (fun hic d hd => ?_) hascii
        exact hcase hic d (hshort d (hlastName ▸ hd))
      simp only [hequals]

theorem trivia4and5_agrees (hP : P.Known options) (hpath : PosixPath path) (hcase : CaseKnown
    options path) {target : JsString} {matchPathEnds : Bool} (h : isNamePath target = true)
    (hpattern : if matchPathEnds then pattern = anywhere ++ target ∨ pattern = anywhere ++ target ++
    [slash] else pattern = target ∨ pattern = target ++ [slash]) : Agrees P options path base
    pattern pattern (trivia4and5 P options target pattern matchPathEnds) := by
  have hascii : IsAscii target := isAscii_of_names (isNamePath_chars h)
  have hno := hpath.no_backslash
  -- Where the separator is a backslash, the native path adds nothing.
  have hnative : P.usingPosixSep = false →
      (equals P options path (target.map fun c => if c = slash then backslash else c) = true →
        equals P options path target = true) ∧
      endsWith P options path
        (backslash :: target.map fun c => if c = slash then backslash else c) = false := by
    intro _
    have hmap : IsAscii (target.map fun c => if c = slash then backslash else c) := by
      intro c hc
      obtain ⟨d, hd, rfl⟩ := mem_map.mp hc
      split
      · decide
      · exact hascii d hd
    constructor
    · intro heq
      by_cases hslash : slash ∈ target
      · have hmem : backslash ∈ target.map fun c => if c = slash then backslash else c :=
          mem_map.mpr ⟨slash, hslash, by simp⟩
        rw [(not_endsWith_backslash hP hcase hno hmap hmem).1] at heq
        cases heq
      · have hid : (target.map fun c => if c = slash then backslash else c) = target := by
          conv_rhs => rw [← map_id target]
          refine map_congr_left fun c hc => if_neg ?_
          rintro rfl
          exact hslash hc
        rwa [hid] at heq
    · exact (not_endsWith_backslash hP hcase hno
        (forall_mem_cons.mpr ⟨by decide, hmap⟩) mem_cons_self).2
  refine ⟨?_, fun _ hnames => nomatch hnames⟩
  rw [trivia4and5]
  cases matchPathEnds with
  | true =>
    have hends := @endsWith_slash_iff P options path target hP hcase hascii
    have hregExp := @mem_anywhere P options pattern path hP target hno h hpattern
    have hfound : regExpMatches P options pattern path =
        (equals P options path target || endsWith P options path (slash :: target)) := by
      rw [Bool.eq_iff_iff, hregExp, hends]
    cases hsep : P.usingPosixSep with
    | true => simp [hfound]
    | false =>
      obtain ⟨himp, hfalse⟩ := hnative hsep
      simp only [hfound, Bool.false_eq_true, if_false, hfalse, Bool.or_false, Bool.not_false,
        Bool.true_and, if_true]
      cases heq : equals P options path
        (target.map fun c => if c = slash then backslash else c) with
      | false => simp
      | true => simp [himp heq]
  | false =>
    have hfound : regExpMatches P options pattern path = equals P options path target := by
      rw [Bool.eq_iff_iff, regExpMatches_iff (names_regExp h hpattern),
        mem_names (fixesSeparators hP) (splitOn_ne_nil slash target) hno,
        show [slash].intercalate (target.splitOn slash) = target from
          intercalate_splitOn slash, equals_iff hP hcase hascii]
    cases hsep : P.usingPosixSep with
    | true => simp [hfound]
    | false =>
      obtain ⟨himp, -⟩ := hnative hsep
      simp only [hfound, Bool.false_eq_true, if_false, Bool.not_false, Bool.true_and]
      cases heq : equals P options path
        (target.map fun c => if c = slash then backslash else c) with
      | false => simp
      | true => simp [himp heq]

theorem toRegExp_agrees {parsed : ParsedStringPattern}
    (h : toRegExp P options pattern = some parsed) :
    Agrees P options path base pattern pattern parsed := by
  obtain ⟨regEx, hregEx, rfl⟩ := Option.map_eq_some_iff.mp h
  refine ⟨?_, fun _ hnames => nomatch hnames⟩
  rw [regExpMatches, hregEx, Option.any_some]

theorem toRegExp_none (h : toRegExp P options pattern = none) :
    regExpMatches P options pattern path = false := by
  rw [regExpMatches, Option.map_eq_none_iff.mp h]
  rfl

/-- What is parsed of a pattern that is not put together. -/
structure Parsed (P : Platform) (options : Options) (path : JsString) (base : Option JsString)
    (pattern text : JsString) (parsed : Option ParsedStringPattern) : Prop where
  some : ∀ p ∈ parsed, Agrees P options path base pattern text p
  none : parsed = none → regExpMatches P options pattern path = false

theorem parsed_some {text : JsString} {p : ParsedStringPattern}
    (h : Agrees P options path base pattern text p) :
    Parsed P options path base pattern text (some p) :=
  ⟨fun _ hp => Option.some.inj hp ▸ h, fun hnone => nomatch hnone⟩

theorem parseOne_agrees (hP : P.Known options) (htrim : options.trimForExclusions = false)
    (hpath : PosixPath path) (hcase : CaseKnown options path) (hbase : BaseOf path base)
    (h : testT3 false pattern = false) :
    Parsed P options path base pattern pattern (parseOne P options pattern) := by
  have hpattern : trimForExclusions options pattern = pattern := by
    rw [trimForExclusions, htrim]
    exact if_neg fun hc => Bool.false_ne_true hc.1
  rw [parseOne, parseFresh, htrim, hpattern]
  split
  · rename_i hT1
    exact parsed_some (trivia1_agrees hP hcase hT1)
  · split
    · rename_i name hT2
      exact parsed_some (trivia2_agrees hP hpath hcase hbase hT2)
    · rw [if_neg (by rw [h]; exact Bool.false_ne_true)]
      split
      · rename_i target hT4
        obtain ⟨hname, hwritten⟩ := matchT4_eq hT4
        exact parsed_some (trivia4and5_agrees hP hpath hcase hname hwritten)
      · split
        · rename_i target hT5
          obtain ⟨hname, hwritten⟩ := matchT5_eq hT5
          exact parsed_some (trivia4and5_agrees hP hpath hcase hname hwritten)
        · exact ⟨fun p hp => toRegExp_agrees hp, toRegExp_none⟩

end Agreement

end CodeOss.Glob
