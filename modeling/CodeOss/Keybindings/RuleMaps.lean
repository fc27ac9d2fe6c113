import CodeOss.Keybindings.KeybindingResolver

/-! What the constructor leaves in its two maps: the rules by their first chord, and the rules
by command that no later rule overwrites. -/

namespace CodeOss.Keybindings

open ContextKeys List

section Maps

variable {Args : Type} (E : Engine) (constants : JsString → Option Bool) (depth : Nat)

/-- The constants make the when-clause false. -/
def unreachable (item : ResolvedKeybindingItem Args) : Bool :=
  match item.when.bind fun when => when.substituteConstants E constants depth with
  | some .falseExpr => true
  | _ => false

variable (defaultKeybindings overrides : List (ResolvedKeybindingItem Args))

def keptEntries : List (Entry Args) :=
  (entriesOf (handleRemovals E constants depth (defaultKeybindings ++ overrides))).filter
    fun entry => entry.item.chords ≠ [] && !unreachable E constants depth entry.item

/-- A rule that a later one with the same first chord overwrites. -/
def overwrittenBy (entry later : Entry Args) : Bool :=
  entry.index < later.index && entry.item.chords.head? = later.item.chords.head? &&
    overwrites E entry.item later.item

def hasCommand (command : JsString) (entry : Entry Args) : Bool :=
  entry.item.named = some command

variable {E constants depth} {entries : List (Entry Args)} {live : Entry Args → Bool}
  {lookupMap : JsString → Option (List (Entry Args))}

/-- A lookup map that has the live ones of the rules, by command. -/
def Lists (entries : List (Entry Args)) (live : Entry Args → Bool)
    (lookupMap : JsString → Option (List (Entry Args))) : Prop :=
  ∀ command, (lookupMap command).getD [] =
    entries.filter fun entry => hasCommand command entry && live entry

theorem Lists.congr {live' : Entry Args → Bool} (h : Lists entries live lookupMap) (hlive :
    ∀ entry ∈ entries, ∀ command, entry.item.named = some command → live entry = live' entry) :
    Lists entries live' lookupMap := by
  intro command
  rw [h command]
  refine List.filter_congr fun entry hentry => ?_
  rw [hasCommand]
  by_cases hnamed : entry.item.named = some command
  · rw [hlive entry hentry command hnamed]
  · simp [hnamed]

theorem eraseP_eq_filter {arr : List (Entry Args)}
    {index : Nat} (h : arr.Pairwise fun a b => a.index < b.index) : arr.eraseP
    (fun other => other.index = index) = arr.filter fun other => other.index ≠ index := by
  induction arr with
  | nil => rfl
  | cons a arr ih =>
    obtain ⟨hfirst, hrest⟩ := pairwise_cons.mp h
    by_cases hindex : a.index = index
    · rw [eraseP_cons_of_pos (by simpa using hindex),
        filter_cons_of_neg (by simpa using hindex), filter_eq_self.mpr]
      intro b hb
      have := hfirst b hb
      simp only [ne_eq, decide_not, Bool.not_eq_eq_eq_not, Bool.not_true, decide_eq_false_iff_not]
      omega
    · rw [eraseP_cons_of_neg (by simpa using hindex),
        filter_cons_of_pos (by simpa using hindex), ih hrest]

variable {entry : Entry Args}

theorem lists_removeFromLookupMap (horder : entries.Pairwise fun a b => a.index < b.index)
    (h : Lists entries live lookupMap) (hentry : entry ∈ entries) :
    Lists entries (fun other => live other && other.index ≠ entry.index)
      (removeFromLookupMap lookupMap entry) := by
  have hsame : ∀ other ∈ entries, other.index = entry.index → other = entry := by
    have hnodup : (entries.map Entry.index).Nodup :=
      pairwise_map.mpr (horder.imp fun hlt => hlt.ne)
    exact fun other hother heq => inj_on_of_nodup_map hnodup hother hentry heq
  have hother : ∀ command, entry.item.named ≠ some command →
      (entries.filter fun other => hasCommand command other && live other) =
        entries.filter fun other => hasCommand command other &&
          (live other && other.index ≠ entry.index) := by
    intro command hne
    refine filter_congr fun other hmem => ?_
    by_cases heq : other.index = entry.index
    · rw [hsame other hmem heq, hasCommand]
      simp [hne]
    · simp [heq]
  intro command
  rw [removeFromLookupMap]
  cases hnamed : entry.item.named with
  | none =>
    rw [← hother command (by simp [hnamed])]
    exact h command
  | some k =>
    by_cases hk : k = command
    · subst hk
      have hfilter : ((lookupMap k).getD []).filter (fun other => other.index ≠ entry.index) =
          entries.filter fun other => hasCommand k other &&
            (live other && other.index ≠ entry.index) := by
        rw [h k, filter_filter]
        refine filter_congr fun other _ => ?_
        rw [Bool.and_comm, Bool.and_assoc]
      rw [← hfilter]
      simp only
      cases harr : lookupMap k with
      | none => simp [harr]
      | some arr =>
        have hpair : arr.Pairwise fun a b => a.index < b.index := by
          have hk := h k
          rw [harr, Option.getD_some] at hk
          rw [hk]
          exact horder.filter _
        simp only [Function.update_self, Option.getD_some]
        exact eraseP_eq_filter hpair
    · rw [← hother command (by rw [hnamed]; exact fun hc => hk (Option.some_inj.mp hc)),
        ← h command]
      cases harr : lookupMap k with
      | none => simp only [harr]
      | some arr => simp only [harr, Function.update_of_ne (Ne.symm hk)]

theorem lists_foldl_remove (horder : entries.Pairwise fun a b => a.index < b.index)
    {item : ResolvedKeybindingItem Args} {conflicts : List (Entry Args)}
    (hconflicts : ∀ c ∈ conflicts, c ∈ entries) (h : Lists entries live lookupMap) :
    Lists entries
      (fun other => live other &&
        !(overwrites E other.item item && conflicts.any fun c => c.index = other.index))
      (conflicts.foldl (fun lookupMap conflict =>
        if overwrites E conflict.item item then removeFromLookupMap lookupMap conflict
        else lookupMap) lookupMap) := by
  have hsame : ∀ a ∈ entries, ∀ b ∈ entries, a.index = b.index → a = b := by
    have hnodup : (entries.map Entry.index).Nodup :=
      pairwise_map.mpr (horder.imp fun hlt => hlt.ne)
    exact fun a ha b hb heq => inj_on_of_nodup_map hnodup ha hb heq
  induction conflicts generalizing live lookupMap with
  | nil => exact h.congr fun _ _ _ _ => by simp
  | cons c conflicts ih =>
    obtain ⟨hc, hconflicts⟩ := forall_mem_cons.mp hconflicts
    rw [foldl_cons]
    split
    · next hover =>
        refine (ih hconflicts (lists_removeFromLookupMap horder h hc)).congr
          fun other hother _ _ => ?_
        by_cases heq : c.index = other.index
        · have hover' := hover
          rw [hsame c hc other hother heq] at hover'
          simp [heq, hover']
        · simp [heq, Ne.symm heq]
    · next hover =>
        refine (ih hconflicts h).congr fun other hother _ _ => ?_
        by_cases heq : c.index = other.index
        · have hover' := hover
          rw [hsame c hc other hother heq] at hover'
          simp [hover']
        · simp [heq]

theorem lists_addToLookupMap
    (hnew : ∀ other ∈ entries, other.index ≠ entry.index) (h : Lists entries live lookupMap) :
    Lists (entries ++ [entry]) (fun other => other.index = entry.index || live other)
      (addToLookupMap lookupMap entry) := by
  intro command
  have hfilter : ((entries ++ [entry]).filter fun other => hasCommand command other &&
      (other.index = entry.index || live other)) =
      (lookupMap command).getD [] ++ [entry].filter (hasCommand command) := by
    rw [h command, filter_append]
    congr 1
    · exact filter_congr fun other hother => by simp [hnew other hother]
    · exact filter_congr fun other hother => by simp [mem_singleton.mp hother]
  rw [hfilter, addToLookupMap]
  cases hnamed : entry.item.named with
  | none => simp [hasCommand, hnamed]
  | some k =>
    by_cases hk : k = command
    · simp [hasCommand, hnamed, hk]
    · simp [hasCommand, hnamed, hk, Function.update_of_ne (Ne.symm hk)]

/-- The maps have the kept rules, and the lookup map those that are not overwritten. -/
structure Represents (E : Engine) (kept : List (Entry Args)) (maps : KeybindingMaps Args) :
    Prop where
  map : ∀ chord, (maps.map chord).getD [] =
    kept.filter fun entry => entry.item.chords.head? = some chord
  lookupMap : Lists kept (fun entry => !kept.any (overwrittenBy E entry)) maps.lookupMap

theorem addKeyPress_eq (maps : KeybindingMaps Args) (keypress : JsString) (entry : Entry Args) :
    addKeyPress E maps keypress entry =
      { map := Function.update maps.map keypress
          (some ((maps.map keypress).getD [] ++ [entry]))
        lookupMap := addToLookupMap
          (((maps.map keypress).getD []).reverse.foldl (fun lookupMap conflict =>
            if overwrites E conflict.item entry.item then removeFromLookupMap lookupMap conflict
            else lookupMap) maps.lookupMap) entry } := by
  rw [addKeyPress]
  cases maps.map keypress <;> rfl

theorem represents_addKeyPress {kept : List (Entry Args)} {maps : KeybindingMaps Args}
    {chord : JsString} (h : Represents E kept maps)
    (horder : (kept ++ [entry]).Pairwise fun a b => a.index < b.index)
    (hchord : entry.item.chords.head? = some chord) :
    Represents E (kept ++ [entry]) (addKeyPress E maps chord entry) := by
  obtain ⟨hpair, -, hlast⟩ := pairwise_append.mp horder
  have hbefore : ∀ other ∈ kept, other.index < entry.index := fun other hother =>
    hlast other hother entry mem_cons_self
  rw [addKeyPress_eq]
  refine ⟨fun chord' => ?_, ?_⟩
  · simp only [filter_append]
    by_cases hsame : chord' = chord
    · subst hsame
      rw [Function.update_self, Option.getD_some, h.map, filter_cons_of_pos (by simpa),
        filter_nil]
    · rw [Function.update_of_ne hsame, h.map, filter_cons_of_neg (by
        rw [hchord, decide_eq_true_eq]
        exact fun hc => hsame (Option.some_inj.mp hc).symm), filter_nil, append_nil]
  · have hconflicts : ∀ c ∈ ((maps.map chord).getD []).reverse, c ∈ kept := by
      intro c hc
      rw [mem_reverse, h.map] at hc
      exact (mem_filter.mp hc).1
    refine (lists_addToLookupMap (fun other hother => (hbefore other hother).ne)
      (lists_foldl_remove hpair hconflicts h.lookupMap)).congr fun other hother command _ => ?_
    rcases List.mem_append.mp hother with hother | hother
    · have hlt := hbefore other hother
      have hany : (((maps.map chord).getD []).reverse.any fun c => c.index = other.index) =
          decide (other.item.chords.head? = some chord) := by
        rw [Bool.eq_iff_iff, any_eq_true, h.map, decide_eq_true_eq]
        simp only [mem_reverse, mem_filter, decide_eq_true_eq]
        constructor
        · rintro ⟨c, ⟨hc, hhead⟩, heq⟩
          have hnodup : (kept.map Entry.index).Nodup :=
            pairwise_map.mpr (hpair.imp fun hlt => hlt.ne)
          rwa [← inj_on_of_nodup_map hnodup hc hother heq]
        · exact fun hhead => ⟨other, ⟨hother, hhead⟩, rfl⟩
      rw [hany, any_append, any_cons, any_nil, overwrittenBy, hchord]
      simp only [hlt.ne, hlt, decide_false, decide_true, Bool.false_or, Bool.or_false,
        Bool.true_and, Bool.not_or]
      rw [Bool.and_comm (overwrites E other.item entry.item)]
    · obtain rfl := mem_singleton.mp hother
      have hnone : (kept ++ [other]).any (overwrittenBy E other) = false := by
        rw [any_eq_false]
        intro later hlater
        have hle : later.index ≤ other.index := by
          rcases List.mem_append.mp hlater with hlater | hlater
          · exact (hbefore later hlater).le
          · rw [mem_singleton.mp hlater]
        simp [overwrittenBy, hle.not_gt]
      simp [hnone]

theorem represents_foldl {entries : List (Entry Args)}
    (horder : entries.Pairwise fun a b => a.index < b.index) : Represents E
    (entries.filter fun entry => entry.item.chords ≠ [] && !unreachable E constants depth
    entry.item) (entries.foldl (addRule E constants depth) ⟨fun _ => none, fun _ => none⟩) := by
  induction entries using List.reverseRecOn with
  | nil => exact ⟨fun _ => rfl, fun _ => rfl⟩
  | append_singleton entries entry ih =>
    have h := ih (pairwise_append.mp horder).1
    rw [foldl_append, foldl_cons, foldl_nil, filter_append]
    generalize entries.foldl (addRule E constants depth) ⟨fun _ => none, fun _ => none⟩ = maps
      at h ⊢
    have hsorted := horder.filter fun entry => entry.item.chords ≠ [] &&
      !unreachable E constants depth entry.item
    rw [filter_append] at hsorted
    rw [addRule]
    cases hchords : entry.item.chords with
    | nil => simpa [hchords] using h
    | cons chord chords =>
      have hunreachable : unreachable E constants depth entry.item =
          match entry.item.when.bind fun when => when.substituteConstants E constants depth
          with
          | some .falseExpr => true
          | _ => false := rfl
      simp only
      split
      · next hfalse =>
          rw [hfalse] at hunreachable
          simpa [hunreachable] using h
      · next hfalse =>
          have hreach : unreachable E constants depth entry.item = false := by
            rw [hunreachable]
            split
            · next hc => exact absurd hc hfalse
            · rfl
          have hone : [entry].filter (fun entry => entry.item.chords ≠ [] &&
              !unreachable E constants depth entry.item) = [entry] := by
            simp [hchords, hreach]
          rw [hone] at hsorted ⊢
          exact represents_addKeyPress h hsorted (by rw [hchords]; rfl)

theorem pairwise_entriesOf (keybindings : List (ResolvedKeybindingItem Args)) :
    (entriesOf keybindings).Pairwise fun a b => a.index < b.index := by
  have hindex : (entriesOf keybindings).map Entry.index = List.range' 0 keybindings.length := by
    rw [entriesOf, List.map_map, ← zipIdx_map_snd]
    rfl
  exact pairwise_map.mp (hindex ▸ pairwise_lt_range')

theorem pairwise_keptEntries : (keptEntries E constants depth defaultKeybindings overrides).Pairwise
    fun a b => a.index < b.index :=
  (pairwise_entriesOf _).filter _

theorem represents_keybindingMaps : Represents E (keptEntries E constants depth
    defaultKeybindings overrides) (keybindingMaps E constants depth defaultKeybindings overrides) :=
  represents_foldl (pairwise_entriesOf _)

end Maps

end CodeOss.Keybindings
