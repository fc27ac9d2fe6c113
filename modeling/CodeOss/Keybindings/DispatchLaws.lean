import CodeOss.Library.WordDispatch
import CodeOss.Keybindings.RuleMaps

/-! Pressing chords one after the other reaches the last rule whose when-clause holds, and
which of the rules that are dropped from the lookup are still reached. -/

namespace CodeOss.Keybindings

open ContextKeys WordDispatch List

section Dispatch

variable {Args : Type} (E : Engine) (constants : JsString → Option Bool) (depth : Nat)
  (context : Context)

inductive Awaits (maps : KeybindingMaps Args) : List JsString → Prop
  | nil : Awaits maps []
  | press {currentChords : List JsString} {keypress : JsString} (h : Awaits maps currentChords)
      (more : resolve E maps context currentChords keypress = .moreChordsNeeded) :
      Awaits maps (currentChords ++ [keypress])

/-- The rule that is looked at for the pressed chords. -/
def foundRule (maps : KeybindingMaps Args) (pressedChords : List JsString) : Option (Entry Args) :=
  (candidates maps pressedChords).bind (findCommand E context)

/-- The last of the chords, pressed one after the other, dispatches the rule. -/
structure Dispatches (maps : KeybindingMaps Args) (currentChords : List JsString)
    (keypress : JsString) (entry : Entry Args) : Prop where
  awaits : Awaits E context maps currentChords
  found : foundRule E context maps (currentChords ++ [keypress]) = some entry
  result : resolve E maps context currentChords keypress =
    .kbFound entry.item.command entry.item.commandArgs entry.item.bubble

def chordsOf (entry : Entry Args) : List JsString := entry.item.chords

def holding (kept : List (Entry Args)) : List (Entry Args) :=
  kept.filter fun entry => contextMatchesRules E context entry.item.when

/-- A kept rule whose when-clause holds, as does that of no later rule which begins with its
chords. -/
def Final (kept : List (Entry Args)) (entry : Entry Args) : Prop :=
  WordDispatch.Final chordsOf Entry.index (holding E context kept) entry

/-- The chords of a final rule are a proper prefix of those of the rule. -/
def Stopped (kept : List (Entry Args)) (entry : Entry Args) : Prop :=
  WordDispatch.Stopped chordsOf Entry.index (holding E context kept) (chordsOf entry)

variable {E constants depth context} {kept : List (Entry Args)} {maps : KeybindingMaps Args}

variable {pressedChords : List JsString}

theorem candidates_eq (h : Represents E kept maps)
    (hne : pressedChords ≠ []) : (candidates maps pressedChords).getD [] =
    kept.filter fun entry => pressedChords.isPrefixOf (chordsOf entry) := by
  match pressedChords, hne with
  | [chord], _ =>
    rw [candidates, h.map]
    refine filter_congr fun entry _ => ?_
    rw [chordsOf]
    cases entry.item.chords with
    | nil => rfl
    | cons c cs =>
      rw [Bool.eq_iff_iff, decide_eq_true_eq, isPrefixOf_iff_prefix,
        cons_prefix_cons, head?_cons, Option.some_inj, eq_comm]
      exact ⟨fun heq => ⟨heq, nil_prefix⟩, fun hbegins => hbegins.1⟩
  | chord :: chord' :: others, _ =>
    have hmap : (candidates maps (chord :: chord' :: others)).getD [] =
        ((maps.map chord).getD []).filter fun candidate =>
          (chord' :: others).length + 1 ≤ candidate.item.chords.length &&
            (chord' :: others).isPrefixOf candidate.item.chords.tail := by
      rw [candidates]
      · cases maps.map chord <;> rfl
      · exact cons_ne_nil _ _
    rw [hmap, h.map, filter_filter]
    refine filter_congr fun entry _ => ?_
    rw [chordsOf, Bool.eq_iff_iff]
    simp only [Bool.and_eq_true, decide_eq_true_eq, isPrefixOf_iff_prefix]
    cases entry.item.chords with
    | nil => simp
    | cons c cs =>
      rw [cons_prefix_cons, head?_cons, Option.some_inj, tail_cons, length_cons, eq_comm]
      constructor
      · rintro ⟨⟨-, hbegins⟩, heq⟩
        exact ⟨heq, hbegins⟩
      · rintro ⟨heq, hbegins⟩
        exact ⟨⟨Nat.succ_le_succ hbegins.length_le, hbegins⟩, heq⟩

theorem foundRule_eq (h : Represents E kept maps)
    (hne : pressedChords ≠ []) : foundRule E context maps pressedChords =
    lastMatch chordsOf (holding E context kept) pressedChords := by
  have hfound : foundRule E context maps pressedChords =
      findCommand E context ((candidates maps pressedChords).getD []) := by
    rw [foundRule]
    cases candidates maps pressedChords <;> rfl
  rw [hfound, candidates_eq h hne, findCommand, lastMatch, holding, ← filter_reverse,
    ← filter_reverse, find?_filter, find?_filter]
  congr 1
  funext entry
  rw [Bool.eq_iff_iff, decide_eq_true_eq, decide_eq_true_eq]
  exact and_comm

theorem resolve_eq (maps : KeybindingMaps Args) (currentChords : List JsString)
    (keypress : JsString) :
    resolve E maps context currentChords keypress =
      match foundRule E context maps (currentChords ++ [keypress]) with
      | none => .noMatchingKb
      | some result =>
        if (currentChords ++ [keypress]).length < result.item.chords.length then
          .moreChordsNeeded
        else .kbFound result.item.command result.item.commandArgs result.item.bubble := by
  rw [resolve, foundRule]
  cases candidates maps (currentChords ++ [keypress]) <;> rfl

variable {currentChords : List JsString} {keypress : JsString} {entry : Entry Args}

section

variable (h : Represents E kept maps)
include h

theorem resolve_eq_more :
    resolve E maps context currentChords keypress = .moreChordsNeeded ↔
      Waits chordsOf (holding E context kept) (currentChords ++ [keypress]) := by
  rw [resolve_eq, foundRule_eq h (append_ne_nil_of_right_ne_nil _ (cons_ne_nil _ _)), Waits]
  cases lastMatch chordsOf (holding E context kept) (currentChords ++ [keypress]) with
  | none => simp
  | some result =>
    simp only [Option.some_inj, exists_eq_left', chordsOf]
    split
    · next hlt => simpa using hlt
    · next hle => simpa using hle

theorem awaits_iff {chords : List JsString} :
    Awaits E context maps chords ↔ ∀ front, front <+: chords → front ≠ [] →
      Waits chordsOf (holding E context kept) front := by
  constructor
  · intro hawaits
    induction hawaits with
    | nil => exact fun front hfront hne => absurd (prefix_nil.mp hfront) hne
    | press _ more ih =>
      intro front hfront hne
      rcases prefix_concat_iff.mp hfront with rfl | hfront
      · exact (resolve_eq_more h).mp more
      · exact ih front hfront hne
  · induction chords using List.reverseRecOn with
    | nil => exact fun _ => .nil
    | append_singleton chords chord ih =>
      intro hall
      refine .press (ih fun front hfront hne => hall front ?_ hne) ?_
      · exact hfront.trans (prefix_append _ _)
      · exact (resolve_eq_more h).mpr (hall _ prefix_rfl (by simp))

theorem dispatches_iff_reaches :
    Dispatches E context maps currentChords keypress entry ↔
      Reaches chordsOf (holding E context kept) (currentChords ++ [keypress]) entry := by
  have hne : currentChords ++ [keypress] ≠ [] := by simp
  have hfront : ∀ front, front <+: currentChords ++ [keypress] →
      (front ≠ currentChords ++ [keypress] ↔ front <+: currentChords) := by
    intro front hfront
    constructor
    · exact fun hproper => (prefix_concat_iff.mp hfront).resolve_left hproper
    · rintro hbegins rfl
      have := hbegins.length_le
      simp at this
  have hresult : ∀ (hfound : foundRule E context maps (currentChords ++ [keypress]) =
      some entry), (resolve E maps context currentChords keypress =
        .kbFound entry.item.command entry.item.commandArgs entry.item.bubble ↔
        (chordsOf entry).length ≤ (currentChords ++ [keypress]).length) := by
    intro hfound
    rw [resolve_eq, hfound, chordsOf]
    simp only
    split
    · next hlt => simpa using hlt
    · next hle => simpa using hle
  constructor
  · rintro ⟨hawaits, hfound, hres⟩
    refine ⟨hne, fun front hbegins hnil hproper => ?_, ?_, (hresult hfound).mp hres⟩
    · exact (awaits_iff h).mp hawaits front ((hfront front hbegins).mp hproper) hnil
    · rwa [foundRule_eq h hne] at hfound
  · rintro ⟨-, hwaits, hlast, hlen⟩
    have hfound : foundRule E context maps (currentChords ++ [keypress]) = some entry := by
      rwa [foundRule_eq h hne]
    refine ⟨(awaits_iff h).mpr fun front hbegins hnil => ?_, hfound, (hresult hfound).mpr hlen⟩
    have hbegins' := hbegins.trans (prefix_append currentChords [keypress])
    exact hwaits front hbegins' hnil ((hfront front hbegins').mpr hbegins)

/-- The rules that are dispatched: they are final, and no shorter final rule stops them. -/
theorem dispatches_iff (horder : kept.Pairwise fun a b => a.index < b.index)
    (hchords : ∀ entry ∈ kept, entry.item.chords ≠ [])
    {currentChords : List JsString} {keypress : JsString} {entry : Entry Args} :
    Dispatches E context maps currentChords keypress entry ↔ Final E context kept entry ∧
    entry.item.chords = currentChords ++ [keypress] ∧ ¬ Stopped E context kept entry := by
  have hwords : ∀ entry ∈ holding E context kept, chordsOf entry ≠ [] := fun entry hentry =>
    hchords entry (List.mem_filter.mp hentry).1
  have hsorted : (holding E context kept).Pairwise fun a b => a.index < b.index :=
    horder.filter _
  rw [dispatches_iff_reaches h, reaches_iff hsorted hwords, Final, Stopped, chordsOf]
  constructor
  · rintro ⟨hfinal, hword, hstopped⟩
    exact ⟨hfinal, hword, hword ▸ hstopped⟩
  · rintro ⟨hfinal, hword, hstopped⟩
    exact ⟨hfinal, hword, hword ▸ hstopped⟩

end

variable (E constants depth context)

/-- A rule that is kept for dispatch but is dropped from the lookup of its command. -/
def Overridden (maps : KeybindingMaps Args) (entry : Entry Args) : Prop :=
  (∃ chord, entry ∈ (maps.map chord).getD []) ∧
    ∃ command, entry.item.named = some command ∧ entry ∉ (maps.lookupMap command).getD []

/-- Lookup agrees with dispatch in a context: what is found is the last rule with the pressed
chords whose when-clause holds, and rules that are dropped from the lookup are never found. -/
structure LookupAgrees (defaultKeybindings overrides : List (ResolvedKeybindingItem Args)) :
    Prop where
  found : ∀ currentChords keypress commandId commandArgs isBubble,
    Awaits E context (keybindingMaps E constants depth defaultKeybindings overrides)
      currentChords →
    resolve E (keybindingMaps E constants depth defaultKeybindings overrides) context
      currentChords keypress = .kbFound commandId commandArgs isBubble →
    ∃ entry, foundRule E context
        (keybindingMaps E constants depth defaultKeybindings overrides)
        (currentChords ++ [keypress]) = some entry ∧
      entry.item.command = commandId ∧ entry.item.commandArgs = commandArgs ∧
      entry.item.bubble = isBubble ∧
      entry ∈ entriesOf
        (handleRemovals E constants depth (defaultKeybindings ++ overrides)) ∧
      entry.item.chords = currentChords ++ [keypress] ∧
      contextMatchesRules E context entry.item.when = true ∧
      ∀ later ∈ entriesOf (handleRemovals E constants depth (defaultKeybindings ++ overrides)),
        entry.index < later.index → later.item.chords = currentChords ++ [keypress] →
        contextMatchesRules E context later.item.when = false
  overridden : ∀ entry,
    Overridden (keybindingMaps E constants depth defaultKeybindings overrides) entry →
    ∀ currentChords keypress, ¬ Dispatches E context
      (keybindingMaps E constants depth defaultKeybindings overrides) currentChords keypress
      entry

/-- Every final rule that is overwritten is stopped by a shorter one, and so is every final
rule before a rule with the same chords which holds although the constants make it false. -/
structure Settled (defaultKeybindings overrides : List (ResolvedKeybindingItem Args)) :
    Prop where
  overwritten : ∀ entry,
    Final E context (keptEntries E constants depth defaultKeybindings overrides) entry →
    entry.item.named ≠ none →
    (keptEntries E constants depth defaultKeybindings overrides).any
      (overwrittenBy E entry) = true →
    Stopped E context (keptEntries E constants depth defaultKeybindings overrides) entry
  constants : ∀ entry,
    Final E context (keptEntries E constants depth defaultKeybindings overrides) entry →
    ∀ later ∈ entriesOf (handleRemovals E constants depth (defaultKeybindings ++ overrides)),
      entry.index < later.index → later.item.chords = entry.item.chords →
      unreachable E constants depth later.item = true →
      contextMatchesRules E context later.item.when = true →
      Stopped E context (keptEntries E constants depth defaultKeybindings overrides) entry

variable {E constants depth context}

theorem overridden_iff (h : Represents E kept maps)
    (hchords : ∀ entry ∈ kept, entry.item.chords ≠ []) : Overridden maps entry ↔
    entry ∈ kept ∧ entry.item.named ≠ none ∧ kept.any (overwrittenBy E entry) = true := by
  have hmem : (∃ chord, entry ∈ (maps.map chord).getD []) ↔ entry ∈ kept := by
    constructor
    · rintro ⟨chord, hentry⟩
      rw [h.map] at hentry
      exact (mem_filter.mp hentry).1
    · intro hentry
      obtain ⟨chord, hchord⟩ := Option.isSome_iff_exists.mp
        (isSome_head?.mpr (hchords entry hentry))
      refine ⟨chord, ?_⟩
      rw [h.map]
      exact mem_filter.mpr ⟨hentry, by simpa using hchord⟩
  have hlisted : ∀ command, entry.item.named = some command → entry ∈ kept →
      (entry ∉ (maps.lookupMap command).getD [] ↔ kept.any (overwrittenBy E entry) = true) := by
    intro command hnamed hentry
    rw [h.lookupMap command, mem_filter]
    simp [hasCommand, hnamed, hentry]
  rw [Overridden, hmem]
  constructor
  · rintro ⟨hentry, command, hnamed, hnot⟩
    exact ⟨hentry, by simp [hnamed], (hlisted command hnamed hentry).mp hnot⟩
  · rintro ⟨hentry, hnamed, hany⟩
    obtain ⟨command, hcommand⟩ := Option.ne_none_iff_exists'.mp hnamed
    exact ⟨hentry, command, hcommand, (hlisted command hcommand hentry).mpr hany⟩

theorem dispatches_of_kbFound {commandId : Option JsString}
    {commandArgs : Args} {isBubble : Bool} (hawaits : Awaits E context maps currentChords)
    (h : resolve E maps context currentChords keypress = .kbFound commandId commandArgs isBubble) :
    ∃ entry, Dispatches E context maps currentChords keypress entry ∧ entry.item.command =
    commandId ∧ entry.item.commandArgs = commandArgs ∧ entry.item.bubble = isBubble := by
  have hres := h
  rw [resolve_eq] at hres
  cases hfound : foundRule E context maps (currentChords ++ [keypress]) with
  | none =>
    rw [hfound] at hres
    cases hres
  | some entry =>
    rw [hfound] at hres
    simp only at hres
    split at hres
    · cases hres
    · cases hres
      exact ⟨entry, ⟨hawaits, hfound, h⟩, rfl, rfl, rfl⟩

theorem Final.mem (h : Final E context kept entry) :
    entry ∈ kept ∧ contextMatchesRules E context entry.item.when = true := by
  exact mem_filter.mp h.1

/-- Lookup agrees with dispatch exactly if no third rule steers the presses past the one that
overwrites, and constants and context do not contradict each other. -/
theorem lookup_agrees_iff (E : Engine) (constants : JsString → Option Bool) (depth : Nat)
    (context : Context) (defaultKeybindings overrides : List (ResolvedKeybindingItem Args)) :
    LookupAgrees E constants depth context defaultKeybindings overrides ↔
      Settled E constants depth context defaultKeybindings overrides := by
  have hrep := @represents_keybindingMaps _ E constants depth defaultKeybindings overrides
  have horder := @pairwise_keptEntries _ E constants depth defaultKeybindings overrides
  have hkept : ∀ entry, entry ∈ keptEntries E constants depth defaultKeybindings overrides ↔
      entry ∈ entriesOf (handleRemovals E constants depth (defaultKeybindings ++ overrides)) ∧
        entry.item.chords ≠ [] ∧ unreachable E constants depth entry.item = false := by
    intro entry
    simp [keptEntries, List.mem_filter]
  have hchords : ∀ entry ∈ keptEntries E constants depth defaultKeybindings overrides,
      entry.item.chords ≠ [] := fun entry hentry => ((hkept entry).mp hentry).2.1
  have hdispatches := fun currentChords keypress entry =>
    @dispatches_iff _ E context _ _ hrep horder hchords currentChords keypress entry
  constructor
  · rintro ⟨hfound, hoverridden⟩
    refine ⟨fun entry hfinal hnamed hany => ?_,
      fun entry hfinal later hlater hlt hsame _ hholds => ?_⟩
    · by_contra hstopped
      have hne := hchords entry hfinal.mem.1
      refine hoverridden entry ((overridden_iff hrep hchords).mpr
        ⟨hfinal.mem.1, hnamed, hany⟩) entry.item.chords.dropLast (entry.item.chords.getLast hne)
        ((hdispatches _ _ _).mpr ⟨hfinal, ?_, hstopped⟩)
      exact (List.dropLast_append_getLast hne).symm
    · by_contra hstopped
      have hne := hchords entry hfinal.mem.1
      have hdispatched := (hdispatches entry.item.chords.dropLast (entry.item.chords.getLast hne)
        entry).mpr ⟨hfinal, (List.dropLast_append_getLast hne).symm, hstopped⟩
      obtain ⟨entry', hfound', -, -, -, -, -, -, hlast⟩ := hfound _ _ _ _ _ hdispatched.awaits
        hdispatched.result
      obtain rfl : entry = entry' := Option.some_inj.mp (hdispatched.found.symm.trans hfound')
      have hfalse := hlast later hlater hlt
        (hsame.trans (List.dropLast_append_getLast hne).symm)
      rw [hholds] at hfalse
      cases hfalse
  · rintro ⟨hoverwritten, hconstants⟩
    refine ⟨fun currentChords keypress commandId commandArgs isBubble hawaits hres => ?_,
      fun entry hentry currentChords keypress hdispatched => ?_⟩
    · obtain ⟨entry, hdispatched, hcommand, hargs, hbubble⟩ :=
        dispatches_of_kbFound hawaits hres
      obtain ⟨hfinal, hpressed, hstopped⟩ := (hdispatches _ _ _).mp hdispatched
      refine ⟨entry, hdispatched.found, hcommand, hargs, hbubble,
        ((hkept entry).mp hfinal.mem.1).1, hpressed, hfinal.mem.2,
        fun later hlater hlt hsame => ?_⟩
      by_contra hholds
      rw [Bool.not_eq_false] at hholds
      cases hunreachable : unreachable E constants depth later.item with
      | true =>
        exact hstopped (hconstants entry hfinal later hlater hlt (hsame.trans hpressed.symm)
          hunreachable hholds)
      | false =>
        have hlater' : later ∈ holding E context
            (keptEntries E constants depth defaultKeybindings overrides) :=
          List.mem_filter.mpr ⟨(hkept later).mpr ⟨hlater, by simp [hsame], hunreachable⟩,
            hholds⟩
        refine hfinal.2 later hlater' hlt ?_
        rw [chordsOf, chordsOf, hsame, hpressed]
    · obtain ⟨hmem, hnamed, hany⟩ := (overridden_iff hrep hchords).mp hentry
      obtain ⟨hfinal, -, hstopped⟩ := (hdispatches _ _ _).mp hdispatched
      exact hstopped (hoverwritten entry hfinal hnamed hany)

/-- Of the rules for `k a`, `k` and `k b` the first is dropped from the lookup for the second,
and is reached past it because the third is longer. -/
theorem lookup_disagrees :
    ¬ ∀ (E : Engine) (constants : JsString → Option Bool) (depth : Nat) (context : Context)
        (defaultKeybindings overrides : List (ResolvedKeybindingItem Unit)),
        LookupAgrees E constants depth context defaultKeybindings overrides := by
  intro h
  let rule : List JsString → JsString → ResolvedKeybindingItem Unit := fun chords command =>
    { chords, bubble := false, command := some command, commandArgs := (), when := none
      isDefault := true }
  let rules := [rule [[107], [97]] [49], rule [[107]] [50], rule [[107], [98]] [51]]
  have hagrees := h sampleEngine (fun _ => none) 0 (fun _ => .undefined) rules []
  let maps := keybindingMaps sampleEngine (fun _ => none) 0 rules []
  have hoverridden : Overridden maps ⟨0, rule [[107], [97]] [49]⟩ := by
    refine ⟨⟨[107], List.mem_cons_self⟩, [49], rfl, ?_⟩
    have hnone : (maps.lookupMap [49]).getD [] = [] := by rfl
    rw [hnone]
    exact List.not_mem_nil
  refine hagrees.overridden _ hoverridden [[107]] [97] ⟨?_, rfl, rfl⟩
  exact @Awaits.press _ _ _ maps [] [107] .nil rfl

end Dispatch

end CodeOss.Keybindings
