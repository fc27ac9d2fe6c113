import CodeOss.Glob.FastPaths

/-! Patterns that are put together: `{**/a,**/*.b}`, whose names are looked up in one table, and the
same for the patterns of an expression. -/

namespace CodeOss.Glob

open Regex List

section Choices

variable {pattern choice : JsString}

def choices (pattern : JsString) : List JsString := pattern.tail.dropLast.splitOn comma

section

variable (h : testChoice false choice = true)
include h

theorem testChoice_eq : ∃ name, isName name = true ∧
    ((choice = anywhere ++ name ∨ choice = anywhere ++ name ++ [slash]) ∨ (choice =
    anywhere ++ asterisk :: name ∨ choice = anywhere ++ asterisk :: name ++ [slash])) := by
  rw [testChoice] at h
  split at h
  · cases h
  · rename_i rest hbehind
    rw [behind_eq hbehind]
    simp only [Bool.false_eq_true, false_and, if_false] at h
    split at h
    · rename_i hstar
      cases rest with
      | nil => cases hstar
      | cons c rest =>
        obtain rfl := Option.some.inj hstar
        rw [tail_cons] at h
        refine ⟨dropSlash rest, h, .inr ?_⟩
        rw [append_assoc, append_right_inj, append_right_inj, cons_append,
          List.cons.injEq, List.cons.injEq]
        exact (dropSlash_cases rest).imp (⟨rfl, ·⟩) (⟨rfl, ·⟩)
    · refine ⟨dropSlash rest, h, .inl ?_⟩
      rw [append_assoc, append_right_inj, append_right_inj]
      exact dropSlash_cases rest

theorem testChoice_chars : choice ≠ [] ∧ ∀ c ∈ choice, c ∉ brackets ∧ c ≠ comma := by
  obtain ⟨name, hname, hchoice⟩ := testChoice_eq h
  have hall : ∀ c ∈ name, c ∉ brackets ∧ c ≠ comma := fun c hc => by
    obtain ⟨hspecial, hcomma, -⟩ := isNameChar_spec ((isName_iff.mp hname).2 c hc)
    exact ⟨not_mem_brackets hspecial, hcomma⟩
  have hstar : asterisk ∉ brackets ∧ asterisk ≠ comma := by decide
  have hslash : ∀ c ∈ [slash], c ∉ brackets ∧ c ≠ comma := fun c hc => by
    rw [mem_singleton.mp hc]
    decide
  have hfront : ∀ c ∈ anywhere, c ∉ brackets ∧ c ≠ comma :=
    forall_mem_cons.mpr ⟨hstar, forall_mem_cons.mpr ⟨hstar, hslash⟩⟩
  rcases hchoice with (rfl | rfl) | rfl | rfl
  · exact ⟨by simp [anywhere], forall_mem_append.mpr ⟨hfront, hall⟩⟩
  · exact ⟨by simp [anywhere], forall_mem_append.mpr
      ⟨forall_mem_append.mpr ⟨hfront, hall⟩, hslash⟩⟩
  · exact ⟨by simp [anywhere], forall_mem_append.mpr
      ⟨hfront, forall_mem_cons.mpr ⟨hstar, hall⟩⟩⟩
  · exact ⟨by simp [anywhere], forall_mem_append.mpr
      ⟨forall_mem_append.mpr ⟨hfront, forall_mem_cons.mpr ⟨hstar, hall⟩⟩, hslash⟩⟩

theorem closeBrace_not_mem_choice : closeBrace ∉ choice :=
  fun hc => ((testChoice_chars h).2 closeBrace hc).1 (by decide)

theorem testChoice_regExp : ∃ regEx, parseRegExp choice = some regEx := by
  obtain ⟨name, hname, hchoice | hchoice⟩ := testChoice_eq h
  · exact ⟨_, anywhere_regExp (isNamePath_of_isName hname) hchoice⟩
  · exact ⟨_, star_regExp hname hchoice⟩

end

theorem testT3_eq (h : testT3 false pattern = true) :
    pattern = openBrace :: ([comma].intercalate (choices pattern) ++ [closeBrace]) ∧
      ∀ choice ∈ choices pattern, testChoice false choice = true := by
  rw [testT3, Bool.and_eq_true, Bool.and_eq_true, decide_eq_true_eq, decide_eq_true_eq,
    all_eq_true] at h
  obtain ⟨⟨hhead, hlast⟩, hall⟩ := h
  refine ⟨?_, hall⟩
  rw [choices, show [comma].intercalate (pattern.tail.dropLast.splitOn comma) =
    pattern.tail.dropLast from intercalate_splitOn comma]
  cases pattern with
  | nil => cases hhead
  | cons c rest =>
    obtain rfl := Option.some.inj hhead
    cases rest with
    | nil => cases hlast
    | cons d rest =>
      rw [getLast?_cons_cons] at hlast
      rw [tail_cons, dropLast_append_getLast? closeBrace hlast]

theorem choices_ne_nil (pattern : JsString) : choices pattern ≠ [] :=
  splitOn_ne_nil comma pattern.tail.dropLast

theorem choices_regExp (h : ∀ choice ∈ choices pattern, testChoice false choice = true) :
    (splitGlobAware ([comma].intercalate (choices pattern)) comma).mapM parseChoice =
      some ((choices pattern).map fun choice => (parseRegExp choice).getD []) := by
  have hsplit : splitGlobAware ([comma].intercalate (choices pattern)) comma = choices pattern := by
    refine splitGlobAware_intercalate (fun choice hchoice => ?_)
      ⟨(choices pattern).getLast (choices_ne_nil pattern),
        getLast?_eq_getLast_of_ne_nil (choices_ne_nil pattern), ?_⟩
    · have hall := (testChoice_chars (h choice hchoice)).2
      exact .plain (fun c hc => (hall c hc).1) (.inl fun hc => (hall comma hc).2 rfl)
    · exact (testChoice_chars (h _ (getLast_mem _))).1
  rw [hsplit]
  generalize choices pattern = list at h
  induction list with
  | nil => rfl
  | cons choice list ih =>
    obtain ⟨hchoice, hlist⟩ := forall_mem_cons.mp h
    obtain ⟨regEx, hregEx⟩ := testChoice_regExp hchoice
    rw [mapM_cons, parseChoice_eq_parseRegExp (closeBrace_not_mem_choice hchoice), hregEx,
      ih hlist, map_cons, hregEx]
    rfl

theorem testT3_regExp (h : testT3 false pattern = true) : parseRegExp pattern =
    some [alternatives ((choices pattern).map fun choice => (parseRegExp choice).getD [])] := by
  obtain ⟨hpattern, hall⟩ := testT3_eq h
  have hchars : ∀ c ∈ [comma].intercalate (choices pattern), c ∉ brackets := by
    intro c hc hmem
    refine not_mem_intercalate (c := c) ?_ (fun choice hchoice hc => ?_) hc
    · rw [mem_singleton]
      rintro rfl
      exact absurd hmem (by decide)
    · exact ((testChoice_chars (hall choice hchoice)).2 c hc).1 hmem
  have hscans : Scans slash (false, false) pattern (false, false) := by
    rw [hpattern]
    exact .braces (by decide) (by decide) (.plain hchars (.inr (by decide)))
  have hne : pattern ≠ [] := by
    rw [hpattern]
    exact cons_ne_nil _ _
  have hsplit : splitGlobAware pattern slash = [pattern] := by
    have hone := @splitGlobAware_intercalate slash [pattern]
      (fun text htext => by rwa [mem_singleton.mp htext]) ⟨_, rfl, hne⟩
    rwa [intercalate_singleton] at hone
  have hglob : pattern ≠ globstar := by
    rw [hpattern]
    exact fun heq => absurd (List.cons.inj heq).1 (by decide)
  have hclose : closeBrace ∉ [comma].intercalate (choices pattern) :=
    fun hc => hchars closeBrace hc (by decide)
  have hreads : Reads parseChoice pattern
      [alternatives ((choices pattern).map fun choice => (parseRegExp choice).getD [])] := by
    have hbraces := Reads.braces hclose (choices_regExp hall)
    rwa [← hpattern] at hbraces
  rw [parseRegExp, patternRegExp, if_neg hne, hsplit]
  simp [hglob, segmentsRegExp, segmentRegExp_eq hreads]

theorem testT3_matches {P : Platform} {options : Options} {path : JsString}
    (h : testT3 false pattern = true) : regExpMatches P options pattern path = true ↔
    ∃ choice ∈ choices pattern, regExpMatches P options choice path = true := by
  obtain ⟨-, hall⟩ := testT3_eq h
  have hnil : (choices pattern).map (fun choice => (parseRegExp choice).getD []) ≠ [] :=
    fun heq => choices_ne_nil pattern (map_eq_nil_iff.mp heq)
  rw [regExpMatches_iff (testT3_regExp h), alternatives, if_neg hnil, List.map_map]
  have hsingle {r : Pattern} : path ∈ lang (reading P options) (.seqAll [r]) ↔
      path ∈ lang (reading P options) r := by
    refine mem_seqAll_cons.trans ⟨?_, fun hmem => ⟨path, hmem, [], rfl, append_nil path⟩⟩
    rintro ⟨u, hu, v, rfl, rfl⟩
    rwa [append_nil]
  rw [hsingle]
  refine mem_altAll.trans ?_
  simp only [mem_map, exists_exists_and_eq_and]
  refine exists_congr fun choice => and_congr_right fun hchoice => ?_
  obtain ⟨regEx, hregEx⟩ := testChoice_regExp (hall choice hchoice)
  rw [regExpMatches_iff hregEx, Function.comp_apply, hregEx]
  rfl

end Choices

section Aggregate

variable {P : Platform} {options : Options} {path : JsString} {base : Option JsString}
  {items : List (JsString × JsString)} {parsedPatterns : List ParsedStringPattern}
  {result : Option JsString}

def tableNames (parsedPatterns : List ParsedStringPattern) : List JsString :=
  (parsedPatterns.filter (·.basenames.isSome)).flatMap (·.basenames.getD [])

/-- A name that is in the table but for case is in it. -/
def Kept (P : Platform) (options : Options) (path : JsString) (names : List JsString) : Prop :=
  (∃ name ∈ names, Same (reading P options) (lastName path) name) → lastName path ∈ names

/-- The same where there is a table: two patterns or more have names. -/
def TableKept (P : Platform) (options : Options) (path : JsString)
    (parsedPatterns : List ParsedStringPattern) : Prop :=
  2 ≤ (parsedPatterns.filter (·.basenames.isSome)).length →
    Kept P options path (tableNames parsedPatterns)

/-- Patterns with the texts they report, and what was parsed of them. -/
structure AllAgree (P : Platform) (options : Options) (path : JsString) (base : Option JsString)
    (items : List (JsString × JsString)) (parsedPatterns : List ParsedStringPattern) : Prop where
  sound : ∀ p ∈ parsedPatterns, ∃ item ∈ items, Agrees P options path base item.1 item.2 p
  complete : ∀ item ∈ items, regExpMatches P options item.1 path = true →
    ∃ p ∈ parsedPatterns, Agrees P options path base item.1 item.2 p

theorem mem_of_lookup {l : List (JsString × JsString)} {name text : JsString}
    (h : l.lookup name = some text) : (name, text) ∈ l := by
  obtain ⟨front, back, rfl, -⟩ := lookup_eq_some_iff.mp h
  exact mem_append_right _ mem_cons_self

theorem lookup_eq (l : List (JsString × JsString)) (name : JsString) : ((l.map Prod.fst).idxOf?
    name).bind (fun index => (l.map Prod.snd)[index]?) = l.lookup name := by
  induction l with
  | nil => rfl
  | cons e l ih =>
    rw [map_cons, map_cons, idxOf?_cons, lookup_cons]
    by_cases h : e.1 = name
    · simp [h]
    · have hne : (e.1 == name) = false := beq_eq_false_iff_ne.mpr h
      have hne' : (name == e.1) = false := beq_eq_false_iff_ne.mpr (Ne.symm h)
      simp only [hne, hne', Bool.false_eq_true, if_false, ← ih, Option.bind_map]
      rfl

theorem aggregate_run (hpath : PosixPath path) (hbase : BaseOf path base)
    (l : List (JsString × JsString)) :
    (aggregate (l.map Prod.fst) (l.map Prod.snd)).run path base = l.lookup (lastName path) := by
  rw [← lookup_eq]
  rcases hbase with rfl | ⟨rfl, hends⟩
  · rfl
  · rw [basename_eq hpath hends]
    cases hname : lastName path with
    | nil =>
      simp only [aggregate, hname]
    | cons c rest => rfl

/-- The names of the table with the patterns they stand for. -/
def tablePairs (parsedPatterns : List ParsedStringPattern) (result : Option JsString) :
    List (JsString × JsString) :=
  match result with
  | some result => (tableNames parsedPatterns).map fun name => (name, result)
  | none => (parsedPatterns.filter (·.basenames.isSome)).flatMap fun p =>
    (p.basenames.getD []).zip (p.patterns.getD [])

section

variable (h : AllAgree P options path base items parsedPatterns)
include h

theorem zip_named {p : ParsedStringPattern} (hp : p ∈ parsedPatterns.filter (·.basenames.isSome)) :
    ((p.basenames.getD []).zip (p.patterns.getD [])).map Prod.fst = p.basenames.getD [] ∧
      ((p.basenames.getD []).zip (p.patterns.getD [])).map Prod.snd = p.patterns.getD [] := by
  obtain ⟨hp, hnamed⟩ := mem_filter.mp hp
  obtain ⟨names, hnames⟩ := Option.isSome_iff_exists.mp hnamed
  obtain ⟨item, -, hagrees⟩ := h.sound p hp
  obtain ⟨hpatterns, -⟩ := hagrees.named names hnames
  rw [hnames, hpatterns, Option.getD_some, Option.getD_some]
  exact ⟨map_fst_zip (by simp), map_snd_zip (by simp)⟩

theorem tablePairs_fst :
    (tablePairs parsedPatterns result).map Prod.fst = tableNames parsedPatterns := by
  cases result with
  | some result =>
    rw [tablePairs, List.map_map]
    exact List.map_id _
  | none =>
    rw [tablePairs, List.map_flatMap]
    exact List.flatMap_congr fun p hp => (zip_named h hp).1

theorem aggregateBasenameMatches_eq
    (htwo : 2 ≤ (parsedPatterns.filter (·.basenames.isSome)).length) :
    aggregateBasenameMatches parsedPatterns result = parsedPatterns.filter (·.basenames.isNone) ++
    [aggregate ((tablePairs parsedPatterns result).map Prod.fst)
    ((tablePairs parsedPatterns result).map Prod.snd)] := by
  rw [aggregateBasenameMatches, if_neg (by omega), tablePairs_fst h]
  cases result with
  | some result =>
    simp only [tablePairs, List.map_map, tableNames]
    rfl
  | none =>
    simp only [tablePairs, List.map_flatMap, tableNames]
    congr 3
    exact List.flatMap_congr fun p hp => (zip_named h hp).2.symm

theorem mem_tablePairs
    {name text : JsString} (hmem : (name, text) ∈ tablePairs parsedPatterns result) :
    ∃ item ∈ items, ∃ p ∈ parsedPatterns, Agrees P options path base item.1 item.2 p ∧
    (∃ names, p.basenames = some names ∧ name ∈ names) ∧ (text = item.2 ∨ result = some text) := by
  have hnamed {p : ParsedStringPattern} (hp : p ∈ parsedPatterns.filter (·.basenames.isSome)) :
      ∃ item ∈ items, p ∈ parsedPatterns ∧ Agrees P options path base item.1 item.2 p ∧
        ∃ names, p.basenames = some names := by
    obtain ⟨hp, hsome⟩ := mem_filter.mp hp
    obtain ⟨item, hitem, hagrees⟩ := h.sound p hp
    exact ⟨item, hitem, hp, hagrees, Option.isSome_iff_exists.mp hsome⟩
  cases result with
  | some result =>
    obtain ⟨name', hname, heq⟩ := mem_map.mp hmem
    obtain ⟨rfl, rfl⟩ := Prod.mk.inj heq
    obtain ⟨p, hp, hname⟩ := mem_flatMap.mp hname
    obtain ⟨item, hitem, hp, hagrees, names, hnames⟩ := hnamed hp
    rw [hnames, Option.getD_some] at hname
    exact ⟨item, hitem, p, hp, hagrees, ⟨names, hnames, hname⟩, .inr rfl⟩
  | none =>
    obtain ⟨p, hp, hpair⟩ := mem_flatMap.mp hmem
    obtain ⟨item, hitem, hp, hagrees, names, hnames⟩ := hnamed hp
    obtain ⟨hpatterns, -⟩ := hagrees.named names hnames
    rw [hnames, hpatterns, Option.getD_some, Option.getD_some] at hpair
    obtain ⟨hname, htext⟩ := of_mem_zip hpair
    obtain ⟨-, -, rfl⟩ := mem_map.mp htext
    exact ⟨item, hitem, p, hp, hagrees, ⟨names, hnames, hname⟩, .inl rfl⟩

end

theorem aggregate_sound (hpath : PosixPath path) (hbase : BaseOf path base)
    (h : AllAgree P options path base items parsedPatterns) {p : ParsedStringPattern}
    {text : JsString} (hp : p ∈ aggregateBasenameMatches parsedPatterns result)
    (hrun : p.run path base = some text) : ∃ item ∈
    items, regExpMatches P options item.1 path = true ∧ (text = item.2 ∨ result = some text) := by
  have hold (hp : p ∈ parsedPatterns) : ∃ item ∈ items,
      regExpMatches P options item.1 path = true ∧ (text = item.2 ∨ result = some text) := by
    obtain ⟨item, hitem, hagrees⟩ := h.sound p hp
    rw [hagrees.result] at hrun
    split at hrun
    · rename_i hmatch
      exact ⟨item, hitem, hmatch, .inl (Option.some.inj hrun).symm⟩
    · cases hrun
  by_cases htwo : 2 ≤ (parsedPatterns.filter (·.basenames.isSome)).length
  · rw [aggregateBasenameMatches_eq h htwo] at hp
    rcases List.mem_append.mp hp with hp | hp
    · exact hold (mem_of_mem_filter hp)
    · rw [mem_singleton] at hp
      rw [hp, aggregate_run hpath hbase] at hrun
      obtain ⟨item, hitem, p', -, hagrees, ⟨names, hnames, hname⟩, htext⟩ :=
        mem_tablePairs h (mem_of_lookup hrun)
      refine ⟨item, hitem, ?_, htext⟩
      exact ((hagrees.named names hnames).2).mpr ⟨_, hname, rfl⟩
  · rw [aggregateBasenameMatches, if_pos (by omega)] at hp
    exact hold hp

theorem aggregate_complete (hpath : PosixPath path)
    (hbase : BaseOf path base) (h : AllAgree P options path base items parsedPatterns)
    (hkept : TableKept P options path parsedPatterns) {item : JsString × JsString}
    (hitem : item ∈ items) (hmatch : regExpMatches P options item.1 path = true) :
    ∃ p ∈ aggregateBasenameMatches parsedPatterns result, (p.run path base).isSome = true := by
  obtain ⟨p, hp, hagrees⟩ := h.complete item hitem hmatch
  have hfound : (p.run path base).isSome = true := by
    rw [hagrees.result, if_pos hmatch]
    rfl
  by_cases htwo : 2 ≤ (parsedPatterns.filter (·.basenames.isSome)).length
  · rw [aggregateBasenameMatches_eq h htwo]
    cases hnames : p.basenames with
    | none =>
      refine ⟨p, List.mem_append_left _ (List.mem_filter.mpr ⟨hp, ?_⟩), hfound⟩
      rw [hnames]
      rfl
    | some names =>
      refine ⟨_, List.mem_append_right _ (List.mem_singleton.mpr rfl), ?_⟩
      rw [aggregate_run hpath hbase]
      obtain ⟨name, hname, hsame⟩ := ((hagrees.named names hnames).2).mp hmatch
      have hnamed : p ∈ parsedPatterns.filter (·.basenames.isSome) :=
        List.mem_filter.mpr ⟨hp, by rw [hnames]; rfl⟩
      have htable : name ∈ tableNames parsedPatterns :=
        List.mem_flatMap.mpr ⟨p, hnamed, by rwa [hnames]⟩
      have hlast := hkept htwo ⟨name, htable, hsame⟩
      rw [← @tablePairs_fst _ _ _ _ _ _ result h] at hlast
      obtain ⟨e, he, heq⟩ := List.mem_map.mp hlast
      exact List.lookup_isSome_iff.mpr ⟨e, he, by rw [heq]; exact beq_self_eq_true _⟩
  · rw [aggregateBasenameMatches, if_pos (by omega)]
    exact ⟨p, hp, hfound⟩

end Aggregate

section Combine

variable {P : Platform} {options : Options} {path pattern text : JsString}
  {base : Option JsString} {items : List (JsString × JsString)}
  {parsedPatterns : List ParsedStringPattern}

theorem combine_single (h : AllAgree P options path base items parsedPatterns)
    (hmatch : regExpMatches P options pattern path = true ↔ ∃ item ∈ items, regExpMatches
    P options item.1 path = true) (htext : ∀ item ∈ items, text = item.2) {p : ParsedStringPattern}
    (hp : parsedPatterns = [p]) : Agrees P options path base pattern text p := by
  obtain ⟨item, hitem, hagrees⟩ := h.sound p (hp ▸ mem_cons_self)
  have hsame : regExpMatches P options pattern path = regExpMatches P options item.1 path := by
    rw [Bool.eq_iff_iff, hmatch]
    refine ⟨?_, fun hitemMatch => ⟨item, hitem, hitemMatch⟩⟩
    rintro ⟨item', hitem', hmatch'⟩
    obtain ⟨p', hp', hagrees'⟩ := h.complete item' hitem' hmatch'
    rw [hp, mem_singleton] at hp'
    have hrun := hagrees'.result
    rw [if_pos hmatch', hp', hagrees.result] at hrun
    by_contra hnot
    rw [if_neg hnot] at hrun
    cases hrun
  refine ⟨?_, ?_⟩
  · rw [hagrees.result, hsame, htext item hitem]
  · rw [hsame, htext item hitem]
    exact hagrees.named

variable (hpath : PosixPath path)
include hpath

theorem combine_table
    (hbase : BaseOf path base) (h : AllAgree P options path base items parsedPatterns)
    (hkept : TableKept P options path parsedPatterns)
    (hmatch : regExpMatches P options pattern path = true ↔
    ∃ item ∈ items, regExpMatches P options item.1 path = true) (htwo : 2 ≤ parsedPatterns.length)
    {p : ParsedStringPattern} (hp : aggregateBasenameMatches parsedPatterns (some pattern) = [p]) :
    Agrees P options path base pattern pattern p := by
  have hnamed : 2 ≤ (parsedPatterns.filter (·.basenames.isSome)).length := by
    by_contra hnot
    rw [aggregateBasenameMatches, if_pos (by omega)] at hp
    rw [hp] at htwo
    simp at htwo
  have htable := @aggregateBasenameMatches_eq _ _ _ _ _ _ (some pattern) h hnamed
  rw [hp] at htable
  have hall : parsedPatterns.filter (·.basenames.isNone) = [] := by
    have hlength := congrArg List.length htable
    rw [length_append] at hlength
    exact length_eq_zero_iff.mp (by simpa using hlength)
  rw [hall, nil_append] at htable
  obtain rfl := (List.cons.inj htable).1
  have hpairs : ∀ pair ∈ tablePairs parsedPatterns (some pattern), pair.2 = pattern := by
    intro pair hpair
    obtain ⟨name, -, rfl⟩ := mem_map.mp hpair
    rfl
  refine ⟨?_, ?_⟩
  · rw [aggregate_run hpath hbase]
    cases hlookup : (tablePairs parsedPatterns (some pattern)).lookup (lastName path) with
    | none =>
      refine (if_neg fun hmatches => ?_).symm
      obtain ⟨item, hitem, hitemMatch⟩ := hmatch.mp hmatches
      obtain ⟨p, hmem, hsome⟩ :=
        @aggregate_complete _ _ _ _ _ _ (some pattern) hpath hbase h hkept item hitem hitemMatch
      rw [hp, mem_singleton] at hmem
      rw [hmem, aggregate_run hpath hbase, hlookup] at hsome
      cases hsome
    | some found =>
      have hfound := hpairs _ (mem_of_lookup hlookup)
      obtain ⟨item, hitem, p', -, hagrees, ⟨names, hnames, hname⟩, -⟩ :=
        mem_tablePairs h (mem_of_lookup hlookup)
      have hitemMatch := ((hagrees.named names hnames).2).mpr ⟨_, hname, rfl⟩
      rw [if_pos (hmatch.mpr ⟨item, hitem, hitemMatch⟩)]
      exact congrArg some hfound
  · intro names hnames
    obtain rfl := Option.some.inj hnames
    refine ⟨?_, ?_⟩
    · refine congrArg some ?_
      rw [List.map_map]
      exact map_congr_left hpairs
    · rw [tablePairs_fst h, hmatch]
      constructor
      · rintro ⟨item, hitem, hitemMatch⟩
        obtain ⟨p, hmem, hagrees⟩ := h.complete item hitem hitemMatch
        have hsome : p.basenames.isSome = true := by
          by_contra hnone
          have hin : p ∈ parsedPatterns.filter (·.basenames.isNone) :=
            mem_filter.mpr ⟨hmem, by simpa using hnone⟩
          rw [hall] at hin
          cases hin
        obtain ⟨names, hnames⟩ := Option.isSome_iff_exists.mp hsome
        obtain ⟨name, hname, hsame⟩ := ((hagrees.named names hnames).2).mp hitemMatch
        exact ⟨name, mem_flatMap.mpr ⟨p, mem_filter.mpr ⟨hmem, hsome⟩, by rwa [hnames]⟩,
          hsame⟩
      · rintro ⟨name, hname, hsame⟩
        obtain ⟨p, hmem, hname⟩ := mem_flatMap.mp hname
        obtain ⟨hmem, hsome⟩ := mem_filter.mp hmem
        obtain ⟨names, hnames⟩ := Option.isSome_iff_exists.mp hsome
        rw [hnames] at hname
        obtain ⟨item, hitem, hagrees⟩ := h.sound p hmem
        exact ⟨item, hitem, ((hagrees.named names hnames).2).mpr ⟨name, hname, hsame⟩⟩

theorem combine_many
    (hbase : BaseOf path base) (h : AllAgree P options path base items parsedPatterns)
    (hkept : TableKept P options path parsedPatterns)
    (hmatch : regExpMatches P options pattern path = true ↔ ∃ item ∈ items,
    regExpMatches P options item.1 path = true) (htexts : ∀ item ∈ items, item.2 ≠ [])
    (hne : pattern ≠ []) : (aggregateBasenameMatches parsedPatterns (some pattern)).any
    (fun p => truthy (p.run path base)) = regExpMatches P options pattern path := by
  rw [Bool.eq_iff_iff, hmatch, any_eq_true]
  constructor
  · rintro ⟨p, hp, htruthy⟩
    cases hrun : p.run path base with
    | none =>
      rw [hrun] at htruthy
      cases htruthy
    | some found =>
      obtain ⟨item, hitem, hitemMatch, -⟩ := aggregate_sound hpath hbase h hp hrun
      exact ⟨item, hitem, hitemMatch⟩
  · rintro ⟨item, hitem, hitemMatch⟩
    obtain ⟨p, hp, hsome⟩ :=
      @aggregate_complete _ _ _ _ _ _ (some pattern) hpath hbase h hkept item hitem hitemMatch
    obtain ⟨found, hfound⟩ := Option.isSome_iff_exists.mp hsome
    obtain ⟨item', hitem', -, htext⟩ := aggregate_sound hpath hbase h hp hfound
    refine ⟨p, hp, ?_⟩
    have hnot : found ≠ [] := by
      rcases htext with rfl | heq
      · exact htexts item' hitem'
      · exact Option.some.inj heq ▸ hne
    rw [hfound]
    exact decide_eq_true hnot

theorem combine_agrees
    (hbase : BaseOf path base) (h : AllAgree P options path base items parsedPatterns)
    (hkept : TableKept P options path parsedPatterns)
    (hmatch : regExpMatches P options pattern path = true ↔ ∃ item ∈ items,
    regExpMatches P options item.1 path = true) (htexts : ∀ item ∈ items, item.2 ≠ [])
    (hne : pattern ≠ []) (hone : parsedPatterns.length < 2 → ∀ item ∈ items, text = item.2)
    (htwo : 2 ≤ parsedPatterns.length → text = pattern) :
    Parsed P options path base pattern text (combine parsedPatterns pattern) := by
  rw [combine]
  split
  · rename_i hnil
    refine ⟨fun _ hp => (Option.not_mem_none _ hp).elim, fun _ => ?_⟩
    refine Bool.eq_false_iff.mpr fun hmatches => ?_
    obtain ⟨item, hitem, hitemMatch⟩ := hmatch.mp hmatches
    obtain ⟨p, hp, -⟩ :=
      @aggregate_complete _ _ _ _ _ _ (some pattern) hpath hbase h hkept item hitem hitemMatch
    rw [hnil] at hp
    cases hp
  · rename_i p hp
    refine parsed_some ?_
    by_cases hlength : 2 ≤ parsedPatterns.length
    · rw [htwo hlength]
      exact combine_table hpath hbase h hkept hmatch hlength hp
    · refine combine_single h hmatch (hone (by omega)) ?_
      have hfew : (parsedPatterns.filter (·.basenames.isSome)).length < 2 :=
        lt_of_le_of_lt (length_filter_le _ _) (by omega)
      rwa [aggregateBasenameMatches, if_pos hfew] at hp
  · rename_i hnil hsingle
    have hlength : 2 ≤ parsedPatterns.length := by
      by_contra hnot
      have hfew : (parsedPatterns.filter (·.basenames.isSome)).length < 2 :=
        lt_of_le_of_lt (length_filter_le _ _) (by omega)
      rw [aggregateBasenameMatches, if_pos hfew] at hnil hsingle
      rcases parsedPatterns with _ | ⟨p, _ | ⟨p', rest⟩⟩
      · exact hnil rfl
      · exact hsingle p rfl
      · exact hnot (by simp)
    refine parsed_some ⟨?_, fun _ hnames => nomatch hnames⟩
    rw [htwo hlength]
    simp only [combine_many hpath hbase h hkept hmatch htexts hne]

end Combine

section Braces

variable {P : Platform} {options : Options} {path pattern choice : JsString}
  {base : Option JsString}

/-- What is parsed of a pattern, with an empty cache. -/
def denote (P : Platform) (options : Options) (pattern : JsString) : Option ParsedStringPattern :=
  if testT3 options.trimForExclusions pattern then
    combine ((choices pattern).filterMap (parseOne P options)) pattern
  else parseOne P options pattern

/-- The text a pattern is reported by: if there is only one choice it is that one's. -/
def reported (pattern : JsString) : JsString :=
  if testT3 false pattern then
    match choices pattern with
    | [choice] => choice
    | _ => pattern
  else pattern

theorem testChoice_head (h : testChoice false choice = true) : choice.head? = some asterisk := by
  rw [testChoice] at h
  split at h
  · cases h
  · rename_i rest hbehind
    rw [behind_eq hbehind]
    rfl

theorem testT3_head (h : testT3 false pattern = true) : pattern.head? = some openBrace := by
  rw [testT3, Bool.and_eq_true, Bool.and_eq_true, decide_eq_true_eq] at h
  exact h.1.1

theorem testChoice_not_testT3 (h : testChoice false choice = true) :
    testT3 false choice = false := by
  refine Bool.eq_false_iff.mpr fun hT3 => ?_
  have hhead := (testChoice_head h).symm.trans (testT3_head hT3)
  exact absurd (Option.some.inj hhead) (by decide)

theorem parseOne_isSome {regEx : List Pattern} (h : parseRegExp choice = some regEx)
    (hT3 : testT3 options.trimForExclusions choice = false) :
    (parseOne P options choice).isSome = true := by
  rw [parseOne, parseFresh, hT3, toRegExp, h]
  split
  · rfl
  · split
    · rfl
    · rw [if_neg Bool.false_ne_true]
      split
      · rfl
      · split <;> rfl

variable (hP : P.Known options) (htrim : options.trimForExclusions = false) (hpath : PosixPath path)
  (hcase : CaseKnown options path) (hbase : BaseOf path base)
include hP htrim hpath hcase hbase

theorem choices_agree (h : testT3 false pattern = true) :
    AllAgree P options path base ((choices pattern).map fun choice => (choice, choice))
      ((choices pattern).filterMap (parseOne P options)) := by
  obtain ⟨-, hall⟩ := testT3_eq h
  have hone {choice : JsString} (hchoice : choice ∈ choices pattern) :=
    @parseOne_agrees P options choice path base hP htrim hpath hcase hbase
      (testChoice_not_testT3 (hall choice hchoice))
  constructor
  · intro p hp
    obtain ⟨choice, hchoice, hparsed⟩ := mem_filterMap.mp hp
    exact ⟨(choice, choice), mem_map.mpr ⟨choice, hchoice, rfl⟩, (hone hchoice).some p hparsed⟩
  · intro item hitem hmatch
    obtain ⟨choice, hchoice, rfl⟩ := mem_map.mp hitem
    cases hparsed : parseOne P options choice with
    | none =>
      rw [(hone hchoice).none hparsed] at hmatch
      cases hmatch
    | some p =>
      exact ⟨p, mem_filterMap.mpr ⟨choice, hchoice, hparsed⟩, (hone hchoice).some p hparsed⟩

theorem denote_agrees (hkept : testT3 false pattern =
    true → TableKept P options path ((choices pattern).filterMap (parseOne P options))) :
    Parsed P options path base pattern (reported pattern) (denote P options pattern) := by
  rw [denote, htrim, reported]
  by_cases hT3 : testT3 false pattern = true
  · rw [if_pos hT3, if_pos hT3]
    have hall := (testT3_eq hT3).2
    have hagree := choices_agree hP htrim hpath hcase hbase hT3
    have hmatches : regExpMatches P options pattern path = true ↔
        ∃ item ∈ (choices pattern).map fun choice => (choice, choice),
          regExpMatches P options item.1 path = true := by
      rw [testT3_matches hT3]
      simp only [mem_map, exists_exists_and_eq_and]
    have hne : pattern ≠ [] := fun hnil => by
      have hhead := testT3_head hT3
      rw [hnil] at hhead
      cases hhead
    have hlength : ((choices pattern).filterMap (parseOne P options)).length =
        (choices pattern).length := by
      refine filterMap_length_eq_length.mpr fun choice hchoice => ?_
      obtain ⟨regEx, hregEx⟩ := testChoice_regExp (hall choice hchoice)
      refine parseOne_isSome hregEx ?_
      rw [htrim]
      exact testChoice_not_testT3 (hall choice hchoice)
    refine combine_agrees hpath hbase hagree (hkept hT3) hmatches ?_ hne ?_ ?_
    · intro item hitem
      obtain ⟨choice, hchoice, rfl⟩ := mem_map.mp hitem
      exact (testChoice_chars (hall choice hchoice)).1
    · intro hone item hitem
      obtain ⟨choice, hchoice, rfl⟩ := mem_map.mp hitem
      rw [hlength] at hone
      rcases hlist : choices pattern with _ | ⟨choice', _ | ⟨choice'', rest⟩⟩
      · exact (choices_ne_nil pattern hlist).elim
      · rw [hlist, mem_singleton] at hchoice
        exact hchoice.symm
      · rw [hlist] at hone
        simp at hone
    · intro htwo
      rw [hlength] at htwo
      rcases hlist : choices pattern with _ | ⟨choice', _ | ⟨choice'', rest⟩⟩
      · rfl
      · rw [hlist] at htwo
        simp at htwo
      · rfl
  · rw [if_neg hT3, if_neg hT3]
    exact parseOne_agrees hP htrim hpath hcase hbase (Bool.eq_false_iff.mpr hT3)

end Braces

end CodeOss.Glob
