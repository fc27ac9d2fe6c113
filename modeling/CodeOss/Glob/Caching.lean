import CodeOss.Glob.Choices

/-! The cache of parsed patterns: whatever was parsed before, a pattern gets what is parsed of it
with an empty cache, unless a pattern was parsed that has its key. -/

namespace CodeOss.Glob

open List

section Keys

variable {P : Platform} {options options' : Options} {pattern pattern' : JsString}

theorem boolText_cancel {s s' : JsString} {b b' : Bool}
    (h : s ++ 95 :: boolText b = s' ++ 95 :: boolText b') : s = s' ∧ b = b' := by
  have hrev := congrArg List.reverse h
  cases b <;> cases b' <;> simp [boolText] at hrev ⊢
  · exact hrev
  · exact hrev

/-- The key tells the options, and the pattern but perhaps for case. -/
theorem patternKey_injective (h : patternKey P options pattern = patternKey P options' pattern') :
    options = options' ∧ (if options.ignoreCase then P.toLowerCase pattern else pattern) = if
    options'.ignoreCase then P.toLowerCase pattern' else pattern' := by
  obtain ⟨trim, ignoreCase⟩ := options
  obtain ⟨trim', ignoreCase'⟩ := options'
  rw [patternKey, patternKey, ← cons_append, ← cons_append, ← append_assoc, ← append_assoc] at h
  obtain ⟨hfront, rfl⟩ := boolText_cancel h
  obtain ⟨htext, rfl⟩ := boolText_cancel hfront
  exact ⟨rfl, htext⟩

end Keys

section Entries

variable {P : Platform} {seen : Options → JsString → Prop} {cache cache' : Cache}
  {options : Options} {pattern : JsString} {parsed : Option ParsedStringPattern}

/-- The entries under the keys of the patterns that matter are theirs. -/
def Sound (P : Platform) (seen : Options → JsString → Prop) (cache : Cache) : Prop :=
  ∀ e ∈ cache, ∀ options pattern, seen options pattern → e.1 = patternKey P options pattern →
    e.2 = denote P options pattern

/-- No pattern that matters has the key of another one. -/
def Apart (P : Platform) (seen : Options → JsString → Prop) (options : Options)
    (pattern : JsString) : Prop :=
  ∀ options' pattern', seen options' pattern' →
    patternKey P options pattern = patternKey P options' pattern' →
    options = options' ∧ pattern = pattern'

theorem Sound.touch (h : Sound P seen cache) {key : JsString}
    (htouch : cache.touch key = some (parsed, cache')) :
    Sound P seen cache' ∧ ∃ e ∈ cache, e.1 = key ∧ e.2 = parsed := by
  obtain ⟨e, hfind, heq⟩ := Option.map_eq_some_iff.mp htouch
  obtain ⟨rfl, rfl⟩ := Prod.mk.inj heq
  have hmem := mem_of_find?_eq_some hfind
  have hkey : e.1 = key := by simpa using find?_some hfind
  refine ⟨fun e' he' => ?_, e, hmem, hkey, rfl⟩
  rcases List.mem_append.mp he' with hold | hnew
  · exact h e' (mem_of_mem_filter hold)
  · rw [mem_singleton.mp hnew]
    exact h e hmem

theorem Sound.set (h : Sound P seen cache) (hapart : Apart P seen options pattern)
    (hparsed : seen options pattern → parsed = denote P options pattern) :
    Sound P seen (cache.set (patternKey P options pattern) parsed) := by
  intro e he options' pattern' hseen hkey
  rcases List.mem_append.mp (mem_of_mem_drop he) with hold | hnew
  · exact h e (mem_of_mem_filter hold) options' pattern' hseen hkey
  · rw [mem_singleton] at hnew
    rw [hnew] at hkey ⊢
    obtain ⟨rfl, rfl⟩ := hapart options' pattern' hseen hkey
    exact hparsed hseen

end Entries

section One

variable {P : Platform} {seen : Options → JsString → Prop} {cache : Cache} {options : Options}
  {pattern arg1 : JsString} {parser : Parser}

/-- What a parser does with the cache: it stays sound, and a pattern that matters is parsed as with
an empty cache. -/
structure Parses (P : Platform) (seen : Options → JsString → Prop)
    (parse : Cache → Option ParsedStringPattern × Cache) (matters : Prop)
    (value : Option ParsedStringPattern) : Prop where
  sound : ∀ cache, Sound P seen cache → Sound P seen (parse cache).2
  parsed : ∀ cache, Sound P seen cache → matters → (parse cache).1 = value

theorem parseFresh_cases (P : Platform) (options : Options) (trivia3 : Parser)
    (pattern : JsString) (cache : Cache) : parseFresh P options trivia3 pattern cache =
    (parseOne P options pattern, cache) ∨ (testT3 options.trimForExclusions pattern =
    true ∧ parseFresh P options trivia3 pattern cache = trivia3 pattern cache) := by
  rw [parseOne, parseFresh, parseFresh]
  split
  · exact .inl rfl
  · split
    · exact .inl rfl
    · split
      · rename_i hT3
        exact .inr ⟨hT3, rfl⟩
      · split
        · exact .inl rfl
        · split <;> exact .inl rfl

theorem parseFresh_testT3 (htrim : options.trimForExclusions = false)
    (h : testT3 false pattern = true) (trivia3 : Parser) (cache : Cache) :
    parseFresh P options trivia3 pattern cache = trivia3 pattern cache := by
  have hhead := testT3_head h
  have hbehind {front : JsString} : behind (anywhere ++ front) pattern = none := by
    rw [behind, if_neg]
    intro hfront
    obtain ⟨back, rfl⟩ := isPrefixOf_iff_prefix.mp hfront
    exact absurd (Option.some.inj hhead) (by decide)
  have hpattern : trimForExclusions options pattern = pattern := by
    rw [trimForExclusions, htrim]
    exact if_neg fun hc => Bool.false_ne_true hc.1
  have hT2 : matchT2 pattern = none := by
    have hnone := @hbehind []
    rw [append_nil] at hnone
    rw [matchT2, hnone]
    rfl
  have hT1 : testT1 pattern = false := by
    rw [testT1, hbehind]
  rw [parseFresh, hT1, hpattern, hT2, htrim, if_neg Bool.false_ne_true]
  exact if_pos h

variable {trivia3 : Parser}

theorem parsePatternWith_hit (hne : arg1 ≠ []) {entry : Option ParsedStringPattern × Cache}
    (h : cache.touch (patternKey P options (Settings.trim arg1)) = some entry) :
    parsePatternWith P options trivia3 arg1 cache = entry := by
  rw [parsePatternWith, if_neg hne]
  simp only [h]

theorem parsePatternWith_miss (hne : arg1 ≠ [])
    (h : cache.touch (patternKey P options (Settings.trim arg1)) = none) : parsePatternWith
    P options trivia3 arg1 cache = ((parseFresh P options trivia3 (Settings.trim arg1) cache).1,
    (parseFresh P options trivia3 (Settings.trim arg1) cache).2.set (patternKey P options
    (Settings.trim arg1)) (parseFresh P options trivia3 (Settings.trim arg1) cache).1) := by
  rw [parsePatternWith, if_neg hne]
  simp only [h]

theorem parsePatternWith_parses (hne : arg1 ≠ [])
    (hseen : ∀ options pattern, seen options pattern → options.trimForExclusions = false)
    (hapart : Apart P seen options (Settings.trim arg1))
    (htrivia3 : testT3 options.trimForExclusions (Settings.trim arg1) =
    true → Parses P seen (trivia3 (Settings.trim arg1)) (seen options (Settings.trim arg1))
    (denote P options (Settings.trim arg1))) : Parses P seen (parsePatternWith P options
    trivia3 arg1) (seen options (Settings.trim arg1)) (denote P options (Settings.trim arg1)) := by
  have hfresh (cache : Cache) (h : Sound P seen cache) :
      Sound P seen (parseFresh P options trivia3 (Settings.trim arg1) cache).2 ∧
        (seen options (Settings.trim arg1) →
          (parseFresh P options trivia3 (Settings.trim arg1) cache).1 =
            denote P options (Settings.trim arg1)) := by
    rcases parseFresh_cases P options trivia3 (Settings.trim arg1) cache with heq | ⟨hT3, heq⟩
    · rw [heq]
      refine ⟨h, fun hmatters => ?_⟩
      have htrim := hseen _ _ hmatters
      by_cases hT3 : testT3 false (Settings.trim arg1) = true
      · have hthree := (parseFresh_testT3 (P := P) htrim hT3 trivia3 cache).symm.trans heq
        rw [← htrim] at hT3
        have hparsed := (htrivia3 hT3).parsed cache h hmatters
        rw [hthree] at hparsed
        exact hparsed
      · rw [denote, htrim, if_neg hT3]
    · rw [heq]
      exact ⟨(htrivia3 hT3).sound cache h, (htrivia3 hT3).parsed cache h⟩
  constructor
  · intro cache h
    cases htouch : cache.touch (patternKey P options (Settings.trim arg1)) with
    | some entry =>
      rw [parsePatternWith_hit hne htouch]
      exact (h.touch htouch).1
    | none =>
      rw [parsePatternWith_miss hne htouch]
      dsimp only
      exact (hfresh cache h).1.set hapart (hfresh cache h).2
  · intro cache h hmatters
    cases htouch : cache.touch (patternKey P options (Settings.trim arg1)) with
    | some entry =>
      rw [parsePatternWith_hit hne htouch]
      obtain ⟨e, he, hkey, hparsed⟩ := (h.touch htouch).2
      rw [← hparsed]
      exact h e he _ _ hmatters hkey
    | none =>
      rw [parsePatternWith_miss hne htouch]
      exact (hfresh cache h).2 hmatters

theorem parseAll_parses {parser : Parser} {patterns : List JsString}
    {matters : JsString → Prop} {value : JsString → Option ParsedStringPattern}
    (h : ∀ pattern ∈ patterns, Parses P seen (parser pattern) (matters pattern) (value pattern))
    (hsound : Sound P seen cache) :
    Sound P seen (parseAll parser patterns cache).2 ∧ ((∀ pattern ∈ patterns, matters pattern) →
    (parseAll parser patterns cache).1 = patterns.filterMap value) := by
  induction patterns generalizing cache with
  | nil => exact ⟨hsound, fun _ => rfl⟩
  | cons pattern rest ih =>
    obtain ⟨hpattern, hrest⟩ := forall_mem_cons.mp h
    obtain ⟨hsound', hparsed⟩ := ih hrest (hpattern.sound cache hsound)
    refine ⟨hsound', fun hmatters => ?_⟩
    obtain ⟨hfirst, hlater⟩ := forall_mem_cons.mp hmatters
    rw [parseAll]
    simp only [hparsed hlater, hpattern.parsed cache hsound hfirst, filterMap_cons]
    cases value pattern <;> rfl

end One

section Braces

variable {P : Platform} {seen : Options → JsString → Prop} {cache : Cache} {options : Options}
  {pattern choice arg1 : JsString}

theorem trim_eq {s : JsString} (h : ∀ c ∈ s, Settings.isWhitespace c = false) :
    Settings.trim s = s := by
  have hdrop {s : JsString} (h : ∀ c ∈ s, Settings.isWhitespace c = false) :
      s.dropWhile Settings.isWhitespace = s := by
    cases s with
    | nil => rfl
    | cons c s => exact dropWhile_cons_of_neg (by simp [h c mem_cons_self])
  rw [Settings.trim, hdrop h, hdrop fun c hc => h c (mem_reverse.mp hc), reverse_reverse]

theorem trim_choice (h : testChoice false choice = true) : Settings.trim choice = choice := by
  have hname {c : CodeUnit} (hc : isNameChar c = true) : Settings.isWhitespace c = false := by
    simp only [isNameChar, Bool.or_eq_true, Bool.and_eq_true, decide_eq_true_eq, mem_cons,
      not_mem_nil, or_false, ← UInt16.toNat_inj, UInt16.reduceToNat] at hc
    simp only [Settings.isWhitespace, Bool.or_eq_false_iff, Bool.and_eq_false_iff,
      decide_eq_false_iff_not, mem_cons, not_mem_nil, or_false, ← UInt16.toNat_inj,
      UInt16.le_iff_toNat_le, UInt16.reduceToNat]
    omega
  obtain ⟨name, hisName, hchoice⟩ := testChoice_eq h
  have hall : ∀ c ∈ name, Settings.isWhitespace c = false := fun c hc =>
    hname ((isName_iff.mp hisName).2 c hc)
  have hslash : ∀ c ∈ [slash], Settings.isWhitespace c = false := fun c hc => by
    rw [mem_singleton.mp hc]
    decide
  have hstar : Settings.isWhitespace asterisk = false := by decide
  have hfront : ∀ c ∈ anywhere, Settings.isWhitespace c = false :=
    forall_mem_cons.mpr ⟨hstar, forall_mem_cons.mpr ⟨hstar, hslash⟩⟩
  refine trim_eq ?_
  rcases hchoice with (rfl | rfl) | rfl | rfl
  · exact forall_mem_append.mpr ⟨hfront, hall⟩
  · exact forall_mem_append.mpr ⟨forall_mem_append.mpr ⟨hfront, hall⟩, hslash⟩
  · exact forall_mem_append.mpr ⟨hfront, forall_mem_cons.mpr ⟨hstar, hall⟩⟩
  · exact forall_mem_append.mpr
      ⟨forall_mem_append.mpr ⟨hfront, forall_mem_cons.mpr ⟨hstar, hall⟩⟩, hslash⟩

/-- The patterns that are parsed with a pattern. -/
def parts (options : Options) (arg1 : JsString) : List JsString :=
  if arg1 = [] then []
  else
    Settings.trim arg1 ::
      if testT3 options.trimForExclusions (Settings.trim arg1) then
        (choices (Settings.trim arg1)).map Settings.trim
      else []

/-- Which patterns matter: patterns that are parsed as they are, with their choices. -/
structure Complete (seen : Options → JsString → Prop) : Prop where
  trim : ∀ options pattern, seen options pattern → options.trimForExclusions = false
  choices : ∀ options pattern, seen options pattern → testT3 false pattern = true →
    ∀ choice ∈ Glob.choices pattern, seen options choice

theorem parseChoicePattern_parses (hseen : Complete seen)
    (hchoice : options.trimForExclusions = false → testChoice false choice = true)
    (hne : choice ≠ []) (hapart : Apart P seen options (Settings.trim choice)) :
    Parses P seen (parseChoicePattern P options choice)
    (seen options (Settings.trim choice)) (denote P options (Settings.trim choice)) := by
  refine parsePatternWith_parses hne hseen.trim hapart fun hT3 => ⟨fun _ h => h, ?_⟩
  intro cache _ hmatters
  have htrim := hseen.trim _ _ hmatters
  rw [htrim, trim_choice (hchoice htrim), testChoice_not_testT3 (hchoice htrim)] at hT3
  cases hT3

theorem trivia3_parses
    (hseen : Complete seen) (hT3 : testT3 options.trimForExclusions pattern = true)
    (hapart : ∀ choice ∈ choices pattern, Apart P seen options (Settings.trim choice)) : Parses
    P seen (trivia3 P options pattern) (seen options pattern) (denote P options pattern) := by
  have hall : ∀ choice ∈ choices pattern, testChoice options.trimForExclusions choice = true := by
    rw [testT3, Bool.and_eq_true, all_eq_true] at hT3
    exact hT3.2
  have hne : ∀ choice ∈ choices pattern, choice ≠ [] := by
    rintro choice hchoice rfl
    exact Bool.noConfusion (hall [] hchoice)
  have hparses : ∀ choice ∈ choices pattern,
      Parses P seen (parseChoicePattern P options choice) (seen options (Settings.trim choice))
        (denote P options (Settings.trim choice)) := fun choice hchoice =>
    parseChoicePattern_parses hseen (fun htrim => htrim ▸ hall choice hchoice)
      (hne choice hchoice) (hapart choice hchoice)
  constructor
  · intro cache hsound
    exact (parseAll_parses hparses hsound).1
  · intro cache hsound hmatters
    have htrim := hseen.trim _ _ hmatters
    rw [htrim] at hT3
    have hchoices := (testT3_eq hT3).2
    have hparsed := (parseAll_parses hparses hsound).2 fun choice hchoice => by
      rw [trim_choice (hchoices choice hchoice)]
      exact hseen.choices _ _ hmatters hT3 choice hchoice
    have hvalue :
        (choices pattern).filterMap (fun choice => denote P options (Settings.trim choice)) =
          (choices pattern).filterMap (parseOne P options) := by
      refine filterMap_congr fun choice hchoice => ?_
      rw [trim_choice (hchoices choice hchoice), denote, htrim,
        testChoice_not_testT3 (hchoices choice hchoice)]
      rfl
    rw [hvalue] at hparsed
    rw [trivia3, denote, htrim, if_pos hT3, show pattern.tail.dropLast.splitOn comma =
      choices pattern from rfl]
    simp only [hparsed]

theorem parsePattern_parses (hseen : Complete seen)
    (hne : arg1 ≠ []) (hapart : ∀ part ∈ parts options arg1, Apart P seen options part) :
    Parses P seen (parsePattern P options arg1)
    (seen options (Settings.trim arg1)) (denote P options (Settings.trim arg1)) := by
  rw [parts, if_neg hne] at hapart
  refine parsePatternWith_parses hne hseen.trim (hapart _ mem_cons_self) fun hT3 => ?_
  refine trivia3_parses hseen hT3 fun choice hchoice => ?_
  refine hapart _ (mem_cons_of_mem _ ?_)
  rw [if_pos hT3]
  exact mem_map.mpr ⟨choice, hchoice, rfl⟩

/-- What is parsed of a pattern as it is given, with an empty cache. -/
def denoted (P : Platform) (options : Options) (arg1 : JsString) : Option ParsedStringPattern :=
  if arg1 = [] then none else denote P options (Settings.trim arg1)

theorem parsePattern_denoted (hseen : Complete seen)
    (hapart : ∀ part ∈ parts options arg1, Apart P seen options part) : Parses P seen
    (parsePattern P options arg1) (seen options (Settings.trim arg1)) (denoted P options arg1) := by
  by_cases hne : arg1 = []
  · subst hne
    exact ⟨fun _ h => h, fun _ _ _ => rfl⟩
  · rw [denoted, if_neg hne]
    exact parsePattern_parses hseen hne hapart

end Braces

section Runs

variable {P : Platform} {calls : List (Options × JsString)} {cache : Cache} {options : Options}
  {patterns : List JsString} {pattern : JsString}

def enabled (expression : Expression) : List JsString :=
  (expression.filter Prod.snd).map Prod.fst

/-- The patterns that were parsed so far, with their options, and the cache then. -/
inductive Reached (P : Platform) : List (Options × JsString) → Cache → Prop where
  | start : Reached P [] []
  | pattern {calls : List (Options × JsString)} {cache : Cache} (h : Reached P calls cache)
      (options : Options) (arg1 : JsString) :
      Reached P (calls ++ [(options, arg1)]) (parse P options arg1 cache).2
  | expression {calls : List (Options × JsString)} {cache : Cache} (h : Reached P calls cache)
      (options : Options) (expression : Expression) :
      Reached P (calls ++ (enabled expression).map fun arg1 => (options, arg1))
        (parseExpression P options expression cache).2

theorem Reached.sound {seen : Options → JsString → Prop} (h : Reached P calls cache)
    (hseen : Complete seen)
    (hapart : ∀ call ∈ calls, ∀ part ∈ parts call.1 call.2, Apart P seen call.1 part) :
    Sound P seen cache := by
  induction h with
  | start => exact fun e he => (not_mem_nil he).elim
  | pattern h options arg1 ih =>
    obtain ⟨hcalls, hcall⟩ := forall_mem_append.mp hapart
    exact (parsePattern_denoted hseen (hcall _ mem_cons_self)).sound _ (ih hcalls)
  | expression h options expression ih =>
    obtain ⟨hcalls, hcall⟩ := forall_mem_append.mp hapart
    have hparses : ∀ arg1 ∈ enabled expression, Parses P seen (parsePattern P options arg1)
        (seen options (Settings.trim arg1)) (denoted P options arg1) := fun arg1 harg1 =>
      parsePattern_denoted hseen (hcall _ (mem_map.mpr ⟨arg1, harg1, rfl⟩))
    exact (parseAll_parses hparses (ih hcalls)).1

/-- Where case is ignored, no pattern that was parsed with the same options differs only by case
from one of these, and neither do two of these. -/
def Clear (P : Platform) (options : Options) (calls : List (Options × JsString))
    (patterns : List JsString) : Prop :=
  options.ignoreCase = true → ∀ call ∈ calls ++ patterns.map (options, ·), call.1 = options →
    ∀ part ∈ parts options call.2, ∀ pattern ∈ patterns, ∀ part' ∈ parts options pattern,
      P.toLowerCase part = P.toLowerCase part' → part = part'

/-- The patterns that matter are these, with what is parsed with them. -/
def partOf (options : Options) (patterns : List JsString) (options' : Options)
    (part : JsString) : Prop :=
  options' = options ∧ ∃ pattern ∈ patterns, part ∈ parts options pattern

theorem Clear.apart (h : Clear P options calls patterns) : ∀ call ∈ calls ++ patterns.map (options,
    ·), ∀ part ∈ parts call.1 call.2, Apart P (partOf options patterns) call.1 part := by
  rintro ⟨options', arg1⟩ hcall part hpart _ part' ⟨rfl, pattern, hpattern, hpart'⟩ hkey
  obtain ⟨heq, htext⟩ := patternKey_injective hkey
  obtain rfl : options' = _ := heq
  refine ⟨rfl, ?_⟩
  by_cases hcase : options'.ignoreCase = true
  · rw [if_pos hcase, if_pos hcase] at htext
    exact h hcase _ hcall rfl part hpart pattern hpattern part' hpart' htext
  · rw [if_neg hcase, if_neg hcase] at htext
    exact htext

theorem partOf_complete (htrim : options.trimForExclusions = false) :
    Complete (partOf options patterns) := by
  constructor
  · rintro _ _ ⟨rfl, -⟩
    exact htrim
  · rintro _ part ⟨rfl, pattern, hpattern, hpart⟩ hT3 choice hchoice
    refine ⟨rfl, pattern, hpattern, ?_⟩
    rw [parts] at hpart ⊢
    split at hpart
    · cases hpart
    · rename_i hne
      rw [if_neg hne]
      rw [htrim] at hpart ⊢
      have hchoices {s : JsString} (h : testT3 false s = true) : ∀ choice ∈ choices s,
          testChoice false choice = true := (testT3_eq h).2
      rcases List.mem_cons.mp hpart with rfl | hmem
      · rw [if_pos hT3]
        refine List.mem_cons_of_mem _ (List.mem_map.mpr ⟨choice, hchoice, ?_⟩)
        exact trim_choice (hchoices hT3 choice hchoice)
      · split at hmem
        · rename_i hT3'
          obtain ⟨choice', hchoice', rfl⟩ := List.mem_map.mp hmem
          have hchoice' := hchoices hT3' choice' hchoice'
          rw [trim_choice hchoice', testChoice_not_testT3 hchoice'] at hT3
          cases hT3
        · cases hmem

theorem trim_mem_parts (hne : pattern ≠ []) : Settings.trim pattern ∈ parts options pattern := by
  rw [parts, if_neg hne]
  exact mem_cons_self

variable (h : Reached P calls cache)
include h

variable (htrim : options.trimForExclusions = false)
include htrim

theorem Reached.parses
    (hclear : Clear P options calls patterns) : Sound P (partOf options patterns) cache ∧
    ∀ pattern ∈ patterns, Parses P (partOf options patterns)
    (Glob.parsePattern P options pattern) True (denoted P options pattern) := by
  have hcomplete := @partOf_complete options patterns htrim
  obtain ⟨hcalls, hpatterns⟩ := forall_mem_append.mp hclear.apart
  refine ⟨h.sound hcomplete hcalls, fun pattern hpattern => ?_⟩
  have hparse :=
    parsePattern_denoted hcomplete (hpatterns _ (mem_map.mpr ⟨pattern, hpattern, rfl⟩))
  refine ⟨hparse.sound, fun cache hsound _ => ?_⟩
  by_cases hne : pattern = []
  · rw [hne]
    rfl
  · exact hparse.parsed cache hsound ⟨rfl, pattern, hpattern, trim_mem_parts hne⟩

theorem Reached.parsePattern (hclear : Clear P options calls [pattern]) :
    (Glob.parsePattern P options pattern cache).1 = denoted P options pattern := by
  obtain ⟨hsound, hparses⟩ := h.parses htrim hclear
  exact (hparses pattern mem_cons_self).parsed cache hsound trivial

theorem Reached.parseAll
    (hclear : Clear P options calls patterns) : (Glob.parseAll (Glob.parsePattern P options)
    patterns cache).1 = patterns.filterMap (denoted P options) := by
  obtain ⟨hsound, hparses⟩ := h.parses htrim hclear
  exact (parseAll_parses hparses hsound).2 fun _ _ => trivial

end Runs

end CodeOss.Glob
