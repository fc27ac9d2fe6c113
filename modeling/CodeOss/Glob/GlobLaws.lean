import CodeOss.Glob.Caching
import CodeOss.Glob.Matching

/-! What `parse` gives, whatever was parsed before: a pattern matches the paths that its segments
mean, the common shapes are tested as their expressions would test them, and an expression finds one
of its patterns. -/

namespace CodeOss.Glob

open Settings List

section Patterns

variable {P : Platform} {calls : List (Options × JsString)} {cache : Cache} {options : Options}
  {path pattern arg1 : JsString} {base : Option JsString} {parsed : Option ParsedStringPattern}

theorem trim_nil : trim [] = [] := rfl

theorem regExpMatches_nil (hpath : path ≠ []) : regExpMatches P options [] path = false := by
  refine Bool.eq_false_iff.mpr fun h => hpath ?_
  exact (regExpMatches_iff (show parseRegExp [] = some [] from rfl)).mp h

theorem reported_ne_nil (hpath : path ≠ []) (h : regExpMatches P options pattern path = true) :
    reported pattern ≠ [] := by
  rw [reported]
  split
  · rename_i hT3
    split
    · rename_i choice hchoices
      refine (testChoice_chars ((testT3_eq hT3).2 choice ?_)).1
      rw [hchoices]
      exact mem_cons_self
    · rintro rfl
      cases hT3
  · rintro rfl
    rw [regExpMatches_nil hpath] at h
    cases h

theorem Parsed.any_truthy {text : JsString} (h : Parsed P options path base pattern text parsed)
    (htext : regExpMatches P options pattern path = true → text ≠ []) :
    (parsed.any fun p => truthy (p.run path base)) = regExpMatches P options pattern path := by
  cases parsed with
  | none => exact (h.none rfl).symm
  | some p =>
    rw [Option.any_some, (h.some p rfl).result]
    split
    · rename_i hmatch
      rw [hmatch]
      exact decide_eq_true (htext hmatch)
    · rename_i hmatch
      exact (Bool.eq_false_iff.mpr hmatch).symm

/-- No name is missed where names are looked up in one table: neither in the table of a pattern with
choices, nor in that of all the patterns. -/
structure NamesKept (P : Platform) (options : Options) (path : JsString)
    (patterns : List JsString) : Prop where
  choices : ∀ pattern ∈ patterns, testT3 false (trim pattern) = true →
    TableKept P options path ((choices (trim pattern)).filterMap (parseOne P options))
  together : TableKept P options path (patterns.filterMap (denoted P options))

theorem tableKept_of_case (hcase : options.ignoreCase = false)
    (parsedPatterns : List ParsedStringPattern) : TableKept P options path parsedPatterns := by
  rintro - ⟨name, hname, hsame⟩
  rw [reading, hcase, if_neg Bool.false_ne_true, Same, map_id, map_id] at hsame
  rwa [hsame]

theorem NamesKept.of_ignoreCase {patterns : List JsString}
    (h : options.ignoreCase = true → NamesKept P options path patterns) :
    NamesKept P options path patterns := by
  cases hcase : options.ignoreCase with
  | true => exact h hcase
  | false => exact ⟨fun _ _ _ => tableKept_of_case hcase _, tableKept_of_case hcase _⟩

variable (hP : P.Known options) (htrim : options.trimForExclusions = false) (hpath : PosixPath path)
  (hcase : CaseKnown options path) (hbase : BaseOf path base)
include hP htrim hpath hcase hbase

theorem denoted_agrees (hkept : testT3 false (Settings.trim arg1) = true → TableKept P options path
    ((choices (Settings.trim arg1)).filterMap (parseOne P options))) : Parsed P options path base
    (Settings.trim arg1) (reported (Settings.trim arg1)) (denoted P options arg1) := by
  rw [denoted]
  split
  · rename_i hnil
    refine ⟨fun _ hp => (Option.not_mem_none _ hp).elim, fun _ => ?_⟩
    rw [hnil, trim_nil]
    exact regExpMatches_nil hpath.ne_nil
  · exact denote_agrees hP htrim hpath hcase hbase hkept

theorem parse_eq (hreached : Reached P calls cache) (hclear : Clear P options calls [arg1])
    (hkept : options.ignoreCase = true → NamesKept P options path [arg1]) :
    (parse P options arg1 cache).1 path base = regExpMatches P options (trim arg1) path := by
  have hagrees := @denoted_agrees _ _ _ arg1 _ hP htrim hpath hcase hbase
    ((NamesKept.of_ignoreCase hkept).choices arg1 mem_cons_self)
  rw [parse]
  simp only [hreached.parsePattern htrim hclear]
  exact hagrees.any_truthy (reported_ne_nil hpath.ne_nil)

end Patterns

section Expressions

variable {P : Platform} {calls : List (Options × JsString)} {cache : Cache} {options : Options}
  {path : JsString} {base : Option JsString} {patterns : List JsString}

def OneChoice (pattern : JsString) : Prop :=
  testT3 false pattern = true ∧ ∃ choice, choices pattern = [choice]

theorem reported_eq {pattern : JsString} (h : ¬ OneChoice pattern) :
    reported pattern = pattern := by
  rw [reported]
  split
  · rename_i hT3
    split
    · rename_i choice hchoices
      exact (h ⟨hT3, choice, hchoices⟩).elim
    · rfl
  · rfl

variable (hP : P.Known options) (htrim : options.trimForExclusions = false) (hpath : PosixPath path)
  (hcase : CaseKnown options path) (hbase : BaseOf path base)
include hP htrim hpath hcase hbase

theorem denoted_allAgree (hkept : ∀ pattern ∈ patterns, testT3 false (trim pattern) =
    true → TableKept P options path ((choices (trim pattern)).filterMap (parseOne P options))) :
    AllAgree P options path base (patterns.map fun pattern =>
    (trim pattern, reported (trim pattern))) (patterns.filterMap (denoted P options)) := by
  have hone (pattern : JsString) (hpattern : pattern ∈ patterns) :=
    @denoted_agrees _ _ _ pattern _ hP htrim hpath hcase hbase (hkept pattern hpattern)
  constructor
  · intro p hp
    obtain ⟨pattern, hpattern, hparsed⟩ := mem_filterMap.mp hp
    exact ⟨_, mem_map.mpr ⟨pattern, hpattern, rfl⟩, (hone pattern hpattern).some p hparsed⟩
  · intro item hitem hmatch
    obtain ⟨pattern, hpattern, rfl⟩ := mem_map.mp hitem
    cases hparsed : denoted P options pattern with
    | none =>
      rw [(hone pattern hpattern).none hparsed] at hmatch
      cases hmatch
    | some p =>
      exact ⟨p, mem_filterMap.mpr ⟨pattern, hpattern, hparsed⟩,
        (hone pattern hpattern).some p hparsed⟩

theorem parseExpression_eq {expression : Expression}
    (hreached : Reached P calls cache) (hclear : Clear P options calls (enabled expression))
    (hkept : options.ignoreCase = true → NamesKept P options path (enabled expression)) :
    (((parseExpression P options expression cache).1 path base).isSome = true ↔
    ∃ pattern ∈ enabled expression, regExpMatches P options (trim pattern) path = true) ∧ ∀ text ∈
    (parseExpression P options expression cache).1 path base, ∃ pattern ∈ enabled expression,
    regExpMatches P options (trim pattern) path = true ∧ text = reported (trim pattern) := by
  have hkept := NamesKept.of_ignoreCase hkept
  have hagree := denoted_allAgree hP htrim hpath hcase hbase hkept.choices
  have hparsed : (parseExpression P options expression cache).1 path base =
      (aggregateBasenameMatches ((enabled expression).filterMap (denoted P options)) none).findSome?
        fun p => p.run path base := by
    rw [parseExpression, ← hreached.parseAll htrim hclear]
    rfl
  have hfound : ∀ text ∈ (parseExpression P options expression cache).1 path base,
      ∃ pattern ∈ enabled expression, regExpMatches P options (trim pattern) path = true ∧
          text = reported (trim pattern) := by
    intro text htext
    rw [hparsed, Option.mem_def] at htext
    obtain ⟨p, hp, hrun⟩ := exists_of_findSome?_eq_some htext
    obtain ⟨item, hitem, hmatch, htext⟩ := aggregate_sound hpath hbase hagree hp hrun
    obtain ⟨pattern, hpattern, rfl⟩ := mem_map.mp hitem
    exact ⟨pattern, hpattern, hmatch, htext.resolve_right fun hnone => nomatch hnone⟩
  refine ⟨⟨fun hsome => ?_, ?_⟩, hfound⟩
  · obtain ⟨text, htext⟩ := Option.isSome_iff_exists.mp hsome
    obtain ⟨pattern, hpattern, hmatch, -⟩ := hfound text htext
    exact ⟨pattern, hpattern, hmatch⟩
  · rintro ⟨pattern, hpattern, hmatch⟩
    rw [hparsed, findSome?_isSome_iff]
    exact aggregate_complete hpath hbase hagree hkept.together
      (mem_map.mpr ⟨pattern, hpattern, rfl⟩) hmatch

end Expressions

/-- A platform as it is for ASCII. -/
def asciiPlatform : Platform where
  toLowerCase s := s.map toLowerAscii
  canonicalize := toUpperAscii
  usingPosixSep := true

theorem asciiPlatform_unicode : asciiPlatform.Unicode := by
  have hlower (c : CodeUnit) : LowersTo c (toLowerAscii c) := by
    rw [LowersTo]
    split
    · rfl
    · rename_i hc
      have h90 : (90 : CodeUnit).toNat = 90 := rfl
      rw [toLowerAscii, if_neg fun h => hc (by have := UInt16.le_iff_toNat_le.mp h.2; omega)]
      omega
  refine ⟨fun _ _ => rfl, fun c hc => ?_, fun s _ => ?_⟩
  · rw [asciiPlatform, toNat_toUpperAscii, if_neg (by omega)]
    exact hc
  · exact forall₂_map_right_iff.mpr (forall₂_same.mpr fun c _ => hlower c)

section Means

variable {P : Platform} {calls : List (Options × JsString)} {cache : Cache}
  {segments : List Segment} {path : List JsString} {arg1 : JsString}

theorem posixPath_pathText (hpath : ∀ s ∈ path, PathSegment s) (hne : path ≠ []) :
    PosixPath (pathText path) := by
  refine ⟨?_, backslash_not_mem hpath⟩
  cases path with
  | nil => exact (hne rfl).elim
  | cons first path =>
    obtain ⟨d, back, heq, -⟩ := @pathText_head first path (hpath first mem_cons_self)
    rw [heq]
    exact cons_ne_nil d back

/-- Without options, a pattern matches the paths that its segments mean. -/
theorem parse_iff_means (hreached : Reached P calls cache)
    (hsegments : ∀ segment ∈ segments, segment.Proper) (hne : segments ≠ [])
    (hwritten : Settings.trim arg1 = patternText segments)
    (hpath : ∀ s ∈ path, PathSegment s) (hpathNe : path ≠ []) (hapt : Apt segments path) :
    (Means segments path →
      (parse P ⟨false, false⟩ arg1 cache).1 (pathText path) none = true) ∧
    (Bounded segments path →
      (parse P ⟨false, false⟩ arg1 cache).1 (pathText path) none = true →
        Means segments path) := by
  have hparse : (parse P ⟨false, false⟩ arg1 cache).1 (pathText path) none =
      regExpTest P.canonicalize (patternRegEx segments) false (pathText path) := by
    have hoff : (⟨false, false⟩ : Options).ignoreCase ≠ true := Bool.false_ne_true
    rw [parse_eq (fun hcase => (hoff hcase).elim) rfl (posixPath_pathText hpath hpathNe)
      (fun hcase => (hoff hcase).elim) (.inl rfl) hreached (fun hcase => (hoff hcase).elim)
      (fun hcase => (hoff hcase).elim), hwritten, regExpMatches,
      parseRegExp_patternText hsegments hne, Option.any_some]
  rw [hparse]
  exact ⟨regExpTest_of_means hsegments hpath hpathNe hapt P.canonicalize,
    fun hbounded => means_of_regExpTest hsegments hne hpath hpathNe hapt hbounded P.canonicalize⟩

end Means

/-- `a/**/{b,*}[c-e]`. -/
def nested : List Segment :=
  [.pieces [.plain (.literal 97)], .globstar,
    .pieces [.braces [[.literal 98], [.star]], .plain (.oneOf [99, 45, 101])]]

theorem nested_proper : ∀ segment ∈ nested, segment.Proper := by
  have hclass : ClassContent [99, 45, 101] :=
    ⟨by decide, by decide, by decide, by decide, by decide⟩
  have hliteral : (Plain.literal 98).Proper ∧ (Plain.literal 98).Choosable := by
    constructor <;> simp only [Plain.Proper, Plain.Choosable] <;> decide
  refine forall_mem_cons.mpr ⟨⟨by simp, ?_, by decide⟩, forall_mem_cons.mpr ⟨trivial, ?_⟩⟩
  · simp only [mem_singleton, forall_eq, Piece.Proper, Plain.Proper]
    decide
  · refine forall_mem_cons.mpr ⟨⟨by simp, ?_, by decide⟩, fun _ h => nomatch h⟩
    refine forall_mem_cons.mpr
      ⟨⟨?_, [.star], rfl, by simp⟩, forall_mem_singleton.mpr hclass⟩
    refine forall_mem_cons.mpr ⟨⟨forall_mem_singleton.mpr hliteral, by decide⟩, ?_⟩
    exact forall_mem_singleton.mpr
      ⟨forall_mem_singleton.mpr ⟨trivial, trivial⟩, by decide⟩

/-- `a/x/zd` is matched by it after `a` was parsed. -/
theorem parse_nested :
    (parse asciiPlatform ⟨false, false⟩ (patternText nested)
      (parse asciiPlatform ⟨false, false⟩ [97] []).2).1 (pathText [[97], [120], [122, 100]]) none =
        true := by
  refine (parse_iff_means (.pattern .start ⟨false, false⟩ [97]) nested_proper (by simp [nested])
    (by decide) ?_ (by simp) (by simp [Apt, nested, Segment.isGlobstar, WellEnded])).1 ?_
  · simp only [List.mem_cons, List.not_mem_nil, or_false, forall_eq_or_imp, forall_eq, PathSegment]
    decide
  · refine ⟨_, _, rfl, ⟨[97], [], rfl, rfl, rfl⟩, 1, by simp, _, _, rfl, ?_, rfl⟩
    refine ⟨[122], [100], rfl, ⟨[.star], by simp, [122], [], rfl, trivial, rfl⟩, ?_⟩
    refine ⟨[100], [], rfl, ⟨100, rfl, ?_⟩, rfl⟩
    rw [InClass]
    decide

def found (segments : List Segment) (path : List JsString) : Bool :=
  (parse asciiPlatform ⟨false, false⟩ (patternText segments) []).1 (pathText path) none

/-- The patterns ` a`, `a/**/**`, `**`, `[{]/**`, `b{a,}`, `{[b-a],c}`, `{[}],a}` and `{[],],a}` miss
a path that they mean, and `a[!b]c` and `{**,b}` find one that they do not. -/
theorem parse_not_means :
    ((Means [.pieces [.plain (.literal 32), .plain (.literal 97)]] [[32, 97]] ∧
        found [.pieces [.plain (.literal 32), .plain (.literal 97)]] [[32, 97]] = false) ∧
      (Means [.pieces [.plain (.literal 97)], .globstar, .globstar] [[97]] ∧
        found [.pieces [.plain (.literal 97)], .globstar, .globstar] [[97]] = false) ∧
      (Means [.globstar] [[10]] ∧ found [.globstar] [[10]] = false) ∧
      (Means [.pieces [.plain (.oneOf [123])], .globstar] [[123]] ∧
        found [.pieces [.plain (.oneOf [123])], .globstar] [[123]] = false) ∧
      (Means [.pieces [.plain (.literal 98), .braces [[.literal 97], []]]] [[98]] ∧
        found [.pieces [.plain (.literal 98), .braces [[.literal 97], []]]] [[98]] = false) ∧
      (Means [.pieces [.braces [[.oneOf [98, 45, 97]], [.literal 99]]]] [[99]] ∧
        found [.pieces [.braces [[.oneOf [98, 45, 97]], [.literal 99]]]] [[99]] = false) ∧
      (Means [.pieces [.braces [[.oneOf [125]], [.literal 97]]]] [[97]] ∧
        found [.pieces [.braces [[.oneOf [125]], [.literal 97]]]] [[97]] = false) ∧
      (Means [.pieces [.braces [[.oneOf [93, 44]], [.literal 97]]]] [[44]] ∧
        found [.pieces [.braces [[.oneOf [93, 44]], [.literal 97]]]] [[44]] = false)) ∧
    (¬ Means [.pieces [.plain (.literal 97), .plain (.oneOf [33, 98]), .plain (.literal 99)]]
          [[97], [99]] ∧
        found [.pieces [.plain (.literal 97), .plain (.oneOf [33, 98]), .plain (.literal 99)]]
          [[97], [99]] = true) ∧
      (¬ Means [.pieces [.braces [[.star, .star], [.literal 98]]]] [[97], [97]] ∧
        found [.pieces [.braces [[.star, .star], [.literal 98]]]] [[97], [97]] = true) := by
  refine ⟨⟨⟨?_, by decide +kernel⟩, ⟨?_, by decide +kernel⟩, ⟨?_, by decide +kernel⟩,
    ⟨?_, by decide +kernel⟩, ⟨?_, by decide +kernel⟩, ⟨?_, by decide +kernel⟩,
    ⟨?_, by decide +kernel⟩, ⟨?_, by decide +kernel⟩⟩, ⟨?_, by decide +kernel⟩,
    ⟨?_, by decide +kernel⟩⟩
  · exact ⟨_, _, rfl, ⟨[32], [97], rfl, rfl, [97], [], rfl, rfl, rfl⟩, rfl⟩
  · exact ⟨_, _, rfl, ⟨[97], [], rfl, rfl, rfl⟩, 0, Nat.zero_le _, 0, Nat.zero_le _, rfl⟩
  · exact ⟨1, le_refl _, rfl⟩
  · refine ⟨_, _, rfl, ⟨[123], [], rfl, ⟨123, rfl, ?_⟩, rfl⟩, 0, Nat.zero_le _, rfl⟩
    rw [InClass]
    decide
  · exact ⟨_, _, rfl, ⟨[98], [], rfl, rfl, [], [], rfl, ⟨[], by simp, rfl⟩, rfl⟩, rfl⟩
  · exact ⟨_, _, rfl, ⟨[99], [], rfl, ⟨[.literal 99], by simp, [99], [], rfl, rfl, rfl⟩, rfl⟩, rfl⟩
  · exact ⟨_, _, rfl, ⟨[97], [], rfl, ⟨[.literal 97], by simp, [97], [], rfl, rfl, rfl⟩, rfl⟩, rfl⟩
  · refine ⟨_, _, rfl, ⟨[44], [], rfl, ⟨[.oneOf [93, 44]], by simp, [44], [], rfl, ?_, rfl⟩, rfl⟩,
      rfl⟩
    refine ⟨44, rfl, ?_⟩
    rw [InClass]
    decide
  · rintro ⟨_, _, heq, -, hrest⟩
    obtain ⟨-, rfl⟩ := List.cons.inj heq
    cases hrest
  · rintro ⟨_, _, heq, -, hrest⟩
    obtain ⟨-, rfl⟩ := List.cons.inj heq
    cases hrest

section Agree

variable {P : Platform} {calls : List (Options × JsString)} {cache : Cache} {options : Options}
  {path : JsString}

/-- A pattern is tested as its expression would test it, and an expression finds a pattern of it
exactly if one matches. -/
theorem parse_agrees (hP : P.Known options) (htrim : options.trimForExclusions = false)
    (hreached : Reached P calls cache) (hpath : PosixPath path) (hcase : CaseKnown options path) :
    (∀ arg1 base, BaseOf path base → Clear P options calls [arg1] →
      (options.ignoreCase = true → NamesKept P options path [arg1]) →
        (parse P options arg1 cache).1 path base =
          regExpMatches P options (Settings.trim arg1) path) ∧
    ∀ expression, Clear P options calls (enabled expression) →
      (options.ignoreCase = true → NamesKept P options path (enabled expression)) →
        (((parseExpression P options expression cache).1 path none).isSome = true ↔
          ∃ pattern ∈ enabled expression,
            regExpMatches P options (Settings.trim pattern) path = true) ∧
        ∀ text ∈ (parseExpression P options expression cache).1 path none,
          ∃ pattern ∈ enabled expression,
            regExpMatches P options (Settings.trim pattern) path = true ∧
              (¬ OneChoice (Settings.trim pattern) → text = Settings.trim pattern) := by
  constructor
  · intro arg1 base hbase hclear hkept
    exact parse_eq hP htrim hpath hcase hbase hreached hclear hkept
  · intro expression hclear hkept
    obtain ⟨hiff, hfound⟩ :=
      parseExpression_eq hP htrim hpath hcase (.inl rfl) hreached hclear hkept
    refine ⟨hiff, fun text htext => ?_⟩
    obtain ⟨pattern, hpattern, hmatch, heq⟩ := hfound text htext
    exact ⟨pattern, hpattern, hmatch, fun hone => heq.trans (reported_eq hone)⟩

end Agree

/-- Ignoring case, and after `**/*.TS` was parsed, `**/foo` finds `src/Foo`, and so does an
expression with `**/foo` enabled and `a` disabled. -/
theorem parse_agrees_ignoringCase :
    (parse asciiPlatform ⟨false, true⟩ [42, 42, 47, 102, 111, 111]
      (parse asciiPlatform ⟨false, true⟩ [42, 42, 47, 42, 46, 84, 83] []).2).1
        [115, 114, 99, 47, 70, 111, 111] (some [70, 111, 111]) = true ∧
      ((parseExpression asciiPlatform ⟨false, true⟩
        [([42, 42, 47, 102, 111, 111], true), ([97], false)]
        (parse asciiPlatform ⟨false, true⟩ [42, 42, 47, 42, 46, 84, 83] []).2).1
          [115, 114, 99, 47, 70, 111, 111] none).isSome = true := by
  have hmatch : regExpMatches asciiPlatform ⟨false, true⟩
      (Settings.trim [42, 42, 47, 102, 111, 111]) [115, 114, 99, 47, 70, 111, 111] = true := by
    decide +kernel
  have hclear : Clear asciiPlatform ⟨false, true⟩ [(⟨false, true⟩, [42, 42, 47, 42, 46, 84, 83])]
      [[42, 42, 47, 102, 111, 111]] := by
    rw [Clear]
    decide +kernel
  have hkept : NamesKept asciiPlatform ⟨false, true⟩ [115, 114, 99, 47, 70, 111, 111]
      [[42, 42, 47, 102, 111, 111]] := by
    refine ⟨fun pattern hpattern hT3 => ?_, fun htwo => absurd htwo ?_⟩
    · rw [List.mem_singleton.mp hpattern] at hT3
      exact absurd hT3 (by decide +kernel)
    · exact not_le.mpr (lt_of_le_of_lt (List.length_filter_le _ _)
        (lt_of_le_of_lt (List.length_filterMap_le _ _) (by decide)))
  have hcase : CaseKnown ⟨false, true⟩ [115, 114, 99, 47, 70, 111, 111] := fun _ => by
    simp [exotic]
  have hboth := parse_agrees (fun _ => asciiPlatform_unicode) rfl
    (.pattern .start ⟨false, true⟩ [42, 42, 47, 42, 46, 84, 83]) ⟨by decide, by decide⟩ hcase
  constructor
  · rw [← hmatch]
    exact hboth.1 _ _ (.inr ⟨by decide, by decide⟩) hclear fun _ => hkept
  · exact (hboth.2 [([42, 42, 47, 102, 111, 111], true), ([97], false)] hclear fun _ => hkept).1.mpr
      ⟨_, List.mem_cons_self, hmatch⟩

/-- A pattern is trimmed. Ignoring case, one table of names and the cache look at case, a parsed
pattern stands for another one, and U+212A is found as `k`. Braces with one choice are reported as
that choice, and a path that ends with a slash is found by its base name. -/
theorem parse_disagrees :
    ((parse asciiPlatform ⟨false, false⟩ [32, 97] []).1 [32, 97] none = false ∧
        regExpMatches asciiPlatform ⟨false, false⟩ [32, 97] [32, 97] = true) ∧
      (parseExpression asciiPlatform ⟨false, false⟩ [([32, 97], true)] []).1 [97] none =
        some [97] ∧
      ((parse asciiPlatform ⟨false, true⟩ [123, 42, 42, 47, 102, 44, 42, 42, 47, 98, 125] []).1
          [70] none = false ∧
        regExpMatches asciiPlatform ⟨false, true⟩ [123, 42, 42, 47, 102, 44, 42, 42, 47, 98, 125]
          [70] = true) ∧
      ((parse asciiPlatform ⟨false, true⟩ [120, 91, 97, 45, 122, 93]
          (parse asciiPlatform ⟨false, true⟩ [120, 91, 65, 45, 122, 93] []).2).1 [120, 95] none =
          true ∧
        regExpMatches asciiPlatform ⟨false, true⟩ [120, 91, 97, 45, 122, 93] [120, 95] = false) ∧
      (parseExpression asciiPlatform ⟨false, true⟩ [([97], true)]
        (parse asciiPlatform ⟨false, true⟩ [65] []).2).1 [97] none = some [65] ∧
      (parseExpression asciiPlatform ⟨false, false⟩ [([123, 42, 42, 47, 102, 125], true)] []).1
        [102] none = some [42, 42, 47, 102] ∧
      ((parse asciiPlatform ⟨false, false⟩ [42, 42, 47, 102] []).1 [102, 47]
          (some (basename [102, 47])) = true ∧
        regExpMatches asciiPlatform ⟨false, false⟩ [42, 42, 47, 102] [102, 47] = false) ∧
      ((parse { asciiPlatform with toLowerCase := List.map fun c => if c = 0x212A then 107 else c }
          ⟨false, true⟩ [107] []).1 [0x212A] none = true ∧
        regExpMatches asciiPlatform ⟨false, true⟩ [107] [0x212A] = false) := by
  refine ⟨⟨?_, ?_⟩, ?_, ⟨?_, ?_⟩, ⟨?_, ?_⟩, ?_, ?_, ⟨?_, ?_⟩, ?_, ?_⟩ <;> decide +kernel

end CodeOss.Glob
