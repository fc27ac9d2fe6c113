import CodeOss.UserDataSync.GlobalStateMerge

/-! The merge of the snippets of a client with the synced ones. -/

namespace CodeOss.UserDataSync.Snippets

structure MergeResult where
  localChanges : LocalChanges String
  remoteChanges : LocalChanges String
  conflicts : List String

/-- `compare`, where a dictionary that is not there has no keys. -/
def compare (fromMap toMap : Option (IStringDictionary String)) : Comparison :=
  let fromMap := fromMap.getD .empty
  let toMap := toMap.getD .empty
  compareWith (fun fromSnippet toSnippet => decide (fromSnippet = toSnippet)) fromMap.keys toMap.keys
    fromMap.get toMap.get

structure State where
  localAdded : IStringDictionary String
  localUpdated : IStringDictionary String
  localRemoved : List String
  remoteAdded : IStringDictionary String
  remoteUpdated : IStringDictionary String
  remoteRemoved : List String
  conflicts : List String

def addTo (set : List String) (key : String) : List String :=
  if set.contains key then set else set ++ [key]

/-- `dictionary[key] = source[key]`, for a key of the source. -/
def copyKey (source dictionary : IStringDictionary String) (key : String) :
    IStringDictionary String :=
  match source.get key with
  | some content => dictionary.set key content
  | none => dictionary

section

variable (localSnippets remote : IStringDictionary String)
  (localToRemote baseToLocal baseToRemote : Comparison)

variable (state : State)

def removedLocally (key : String) : State :=
  if baseToRemote.updated.contains key then
    { state with localAdded := copyKey remote state.localAdded key }
  else { state with remoteRemoved := addTo state.remoteRemoved key }

def removedRemotely (key : String) : State :=
  if state.conflicts.contains key then state
  else if baseToLocal.updated.contains key then
    { state with conflicts := addTo state.conflicts key }
  else { state with localRemoved := addTo state.localRemoved key }

def updatedLocally (key : String) : State :=
  if state.conflicts.contains key then state
  else if baseToRemote.updated.contains key then
    if localToRemote.updated.contains key then
      { state with conflicts := addTo state.conflicts key }
    else state
  else { state with remoteUpdated := copyKey localSnippets state.remoteUpdated key }

def updatedRemotely (key : String) : State :=
  if state.conflicts.contains key then state
  else if baseToLocal.updated.contains key then
    if localToRemote.updated.contains key then
      { state with conflicts := addTo state.conflicts key }
    else state
  else if (localSnippets.get key).isSome then
    { state with localUpdated := copyKey remote state.localUpdated key }
  else state

def addedLocally (key : String) : State :=
  if state.conflicts.contains key then state
  else if baseToRemote.added.contains key then
    if localToRemote.updated.contains key then
      { state with conflicts := addTo state.conflicts key }
    else state
  else { state with remoteAdded := copyKey localSnippets state.remoteAdded key }

def addedRemotely (key : String) : State :=
  if state.conflicts.contains key then state
  else if baseToLocal.added.contains key then
    if localToRemote.updated.contains key then
      { state with conflicts := addTo state.conflicts key }
    else state
  else { state with localAdded := copyKey remote state.localAdded key }

def mergeLoops : State :=
  let state := baseToLocal.removed.foldl (removedLocally remote baseToRemote) state
  let state := baseToRemote.removed.foldl (removedRemotely baseToLocal) state
  let state := baseToLocal.updated.foldl (updatedLocally localSnippets localToRemote baseToRemote)
    state
  let state := baseToRemote.updated.foldl
    (updatedRemotely localSnippets remote localToRemote baseToLocal) state
  let state := baseToLocal.added.foldl (addedLocally localSnippets localToRemote baseToRemote) state
  baseToRemote.added.foldl (addedRemotely remote localToRemote baseToLocal) state

end

def State.start : State := ⟨.empty, .empty, [], .empty, .empty, [], []⟩

def merge (localSnippets : IStringDictionary String)
    (remote base : Option (IStringDictionary String)) : MergeResult :=
  match remote with
  | none => ⟨.empty, { LocalChanges.empty with added := localSnippets }, []⟩
  | some remote =>
    let localToRemote := compare (some localSnippets) (some remote)
    if localToRemote.isEmpty then ⟨.empty, .empty, []⟩
    else
      let state := mergeLoops localSnippets remote localToRemote
        (compare base (some localSnippets)) (compare base (some remote)) .start
      { localChanges := ⟨state.localAdded, state.localRemoved, state.localUpdated⟩
        remoteChanges := ⟨state.remoteAdded, state.remoteRemoved, state.remoteUpdated⟩
        conflicts := state.conflicts }

end CodeOss.UserDataSync.Snippets

/-! What the snippets merge leaves at each key of the two sides, and which keys it
reports as conflicts. -/

namespace CodeOss.UserDataSync.Snippets

open KeyedFold

/-- What the locals of `merge` say about one key. -/
structure KeyState where
  localChange : KeyChange String
  remoteChange : KeyChange String
  conflict : Bool

def State.onKey (state : State) (key : String) : KeyState where
  localChange :=
    ⟨state.localAdded.get key, state.localRemoved.contains key, state.localUpdated.get key⟩
  remoteChange :=
    ⟨state.remoteAdded.get key, state.remoteRemoved.contains key, state.remoteUpdated.get key⟩
  conflict := state.conflicts.contains key

theorem mem_addTo (set : List String) (key k : String) : k ∈ addTo set key ↔ k = key ∨ k ∈ set := by
  rw [addTo]
  split
  · next hmem =>
      rw [List.contains_iff_mem] at hmem
      exact ⟨.inr, fun h => h.elim (fun he => he ▸ hmem) (fun h => h)⟩
  · simp [or_comm]

theorem get_copyKey (source dictionary : IStringDictionary String) (key k : String) :
    (copyKey source dictionary key).get k =
      if k = key then (source.get k).or (dictionary.get k) else dictionary.get k := by
  rw [copyKey]
  by_cases hk : k = key
  · subst hk
    cases hsource : source.get k <;> simp
  · cases source.get key <;> simp [JsMap.get_set, hk]

section touches

variable (localSnippets remote : IStringDictionary String)
  (localToRemote baseToLocal baseToRemote : Comparison)

theorem touches_removedLocally :
    Touches State.onKey (removedLocally remote baseToRemote) (fun key before =>
      if baseToRemote.updated.contains key then
        { before with
          localChange.added := (remote.get key).or before.localChange.added }
      else { before with remoteChange.removed := true }) := by
  intro state key k
  rw [removedLocally]
  by_cases hk : k = key
  · subst hk
    simp only [if_true]
    split_ifs <;> simp [State.onKey, mem_addTo, get_copyKey]
  · split_ifs <;> simp [State.onKey, mem_addTo, get_copyKey, hk]

theorem touches_removedRemotely :
    Touches State.onKey (removedRemotely baseToLocal) (fun key before =>
      if before.conflict then before
      else if baseToLocal.updated.contains key then { before with conflict := true }
      else { before with localChange.removed := true }) := by
  intro state key k
  rw [removedRemotely]
  by_cases hk : k = key
  · subst hk
    have hconflict : (state.onKey k).conflict = state.conflicts.contains k := rfl
    simp only [if_true, hconflict]
    split_ifs <;> simp [State.onKey, mem_addTo]
  · split_ifs <;> simp [State.onKey, mem_addTo, hk]

/-- The shape of the four other loops: a key changed on both sides is a conflict where the
contents differ, and otherwise the change is copied. -/
theorem touches_copyOver {body : State → String → State} (copy : State → String → State)
    {effect : String → KeyState → KeyState} (other : String → Bool)
    (hcopy : Touches State.onKey copy effect)
    (hbody : ∀ state key, body state key =
      if state.conflicts.contains key then state
      else if other key then
        if localToRemote.updated.contains key then
          { state with conflicts := addTo state.conflicts key }
        else state
      else copy state key) :
    Touches State.onKey body (fun key before =>
      if before.conflict then before
      else if other key then
        if localToRemote.updated.contains key then { before with conflict := true } else before
      else effect key before) := by
  intro state key k
  rw [hbody]
  by_cases hk : k = key
  · subst hk
    have hconflict : (state.onKey k).conflict = state.conflicts.contains k := rfl
    simp only [if_true, hconflict]
    split_ifs
    · rfl
    · simp [State.onKey, mem_addTo]
    · rfl
    · simpa using hcopy state k k
  · simp only [hk, if_false]
    split_ifs
    · rfl
    · simp [State.onKey, mem_addTo, hk]
    · rfl
    · simpa [hk] using hcopy state key k

theorem touches_updatedLocally :
    Touches State.onKey (updatedLocally localSnippets localToRemote baseToRemote)
      (fun key before =>
        if before.conflict then before
        else if baseToRemote.updated.contains key then
          if localToRemote.updated.contains key then { before with conflict := true } else before
        else
          { before with
            remoteChange.updated := (localSnippets.get key).or before.remoteChange.updated }) := by
  refine touches_copyOver _ (fun state key =>
    { state with remoteUpdated := copyKey localSnippets state.remoteUpdated key }) _ ?_
    fun _ _ => rfl
  intro state key k
  by_cases hk : k = key <;> simp [State.onKey, get_copyKey, hk]

theorem touches_updatedRemotely :
    Touches State.onKey (updatedRemotely localSnippets remote localToRemote baseToLocal)
      (fun key before =>
        if before.conflict then before
        else if baseToLocal.updated.contains key then
          if localToRemote.updated.contains key then { before with conflict := true } else before
        else if (localSnippets.get key).isSome then
          { before with localChange.updated := (remote.get key).or before.localChange.updated }
        else before) := by
  refine touches_copyOver _ (fun state key =>
    if (localSnippets.get key).isSome then
      { state with localUpdated := copyKey remote state.localUpdated key }
    else state) _ ?_ fun _ _ => rfl
  intro state key k
  by_cases hk : k = key
  · subst hk
    cases hlocal : localSnippets.get k <;> simp [State.onKey, get_copyKey, hlocal]
  · cases hlocal : localSnippets.get key <;> simp [State.onKey, get_copyKey, hk, hlocal]

theorem touches_addedLocally :
    Touches State.onKey (addedLocally localSnippets localToRemote baseToRemote)
      (fun key before =>
        if before.conflict then before
        else if baseToRemote.added.contains key then
          if localToRemote.updated.contains key then { before with conflict := true } else before
        else
          { before with
            remoteChange.added := (localSnippets.get key).or before.remoteChange.added }) := by
  refine touches_copyOver _ (fun state key =>
    { state with remoteAdded := copyKey localSnippets state.remoteAdded key }) _ ?_
    fun _ _ => rfl
  intro state key k
  by_cases hk : k = key <;> simp [State.onKey, get_copyKey, hk]

theorem touches_addedRemotely :
    Touches State.onKey (addedRemotely remote localToRemote baseToLocal)
      (fun key before =>
        if before.conflict then before
        else if baseToLocal.added.contains key then
          if localToRemote.updated.contains key then { before with conflict := true } else before
        else
          { before with localChange.added := (remote.get key).or before.localChange.added }) := by
  refine touches_copyOver _ (fun state key =>
    { state with localAdded := copyKey remote state.localAdded key }) _ ?_ fun _ _ => rfl
  intro state key k
  by_cases hk : k = key <;> simp [State.onKey, get_copyKey, hk]

end touches

variable (localContent remoteContent baseContent : Option String)

/-- Both sides changed a snippet the client still has, to contents that differ. -/
def conflicting : Prop :=
  localContent.isSome ∧ baseContent ≠ localContent ∧ baseContent ≠ remoteContent ∧
    localContent ≠ remoteContent

/-- The three-way rule outside conflicts: the local content where the remote side did not
change, the remote content otherwise. -/
def carried : Option String :=
  if baseContent = remoteContent then localContent else remoteContent

theorem compare_describes (fromMap toMap : Option (IStringDictionary String)) :
    (compare fromMap toMap).Describes (fun fromSnippet toSnippet => decide
    (fromSnippet = toSnippet)) (fromMap.getD .empty) (toMap.getD .empty) :=
  compareWith_describes _ _ _

/-- What the loops leave at a key, by its three contents. -/
structure Settled (localContent remoteContent baseContent : Option String) (after : KeyState) :
    Prop where
  conflict : after.conflict = true ↔ conflicting localContent remoteContent baseContent
  localConflict : conflicting localContent remoteContent baseContent →
    after.localChange.apply localContent = localContent
  remoteConflict : conflicting localContent remoteContent baseContent →
    after.remoteChange.apply remoteContent = remoteContent
  localCarries : ¬ conflicting localContent remoteContent baseContent →
    after.localChange.apply localContent = carried localContent remoteContent baseContent
  remoteCarries : ¬ conflicting localContent remoteContent baseContent →
    after.remoteChange.apply remoteContent = carried localContent remoteContent baseContent
  quiet : localContent = remoteContent → baseContent = remoteContent →
    after.localChange = .nothing ∧ after.remoteChange = .nothing

namespace KeyState

def quiet : KeyState := ⟨.nothing, .nothing, false⟩

/-- The three contents of a key decide what the loops do with it. -/
def outcome : Option String → Option String → Option String → KeyState
  | none, none, none => quiet
  | none, none, some _ =>
    { quiet with localChange.removed := true, remoteChange.removed := true }
  | none, some r, none => { quiet with localChange.added := some r }
  | none, some r, some b =>
    if b = r then { quiet with remoteChange.removed := true }
    else { quiet with localChange.added := some r }
  | some l, none, none => { quiet with remoteChange.added := some l }
  | some l, none, some b =>
    if b = l then { quiet with localChange.removed := true } else { quiet with conflict := true }
  | some l, some r, none => if l = r then quiet else { quiet with conflict := true }
  | some l, some r, some b =>
    if b = l then
      if b = r then quiet else { quiet with localChange.updated := some r }
    else if b = r then { quiet with remoteChange.updated := some l }
    else if l = r then quiet else { quiet with conflict := true }

theorem outcome_settled (localContent remoteContent baseContent : Option String) : Settled
    localContent remoteContent baseContent (outcome localContent remoteContent baseContent) := by
  cases localContent with
  | none =>
    cases remoteContent with
    | none =>
      cases baseContent <;> constructor <;>
        simp [outcome, quiet, conflicting, carried, KeyChange.apply, KeyChange.nothing]
    | some r =>
      cases baseContent with
      | none =>
        constructor <;>
          simp [outcome, quiet, conflicting, carried, KeyChange.apply, KeyChange.nothing]
      | some b =>
        by_cases hr : b = r <;> constructor <;>
          simp [outcome, quiet, conflicting, carried, KeyChange.apply, KeyChange.nothing, hr]
  | some l =>
    cases remoteContent with
    | none =>
      cases baseContent with
      | none =>
        constructor <;>
          simp [outcome, quiet, conflicting, carried, KeyChange.apply, KeyChange.nothing]
      | some b =>
        by_cases hl : b = l <;> constructor <;>
          simp [outcome, quiet, conflicting, carried, KeyChange.apply, KeyChange.nothing, hl]
    | some r =>
      cases baseContent with
      | none =>
        by_cases hlr : l = r <;> constructor <;>
          simp [outcome, quiet, conflicting, carried, KeyChange.apply, KeyChange.nothing, hlr]
      | some b =>
        by_cases hl : b = l
        · subst hl
          by_cases hr : b = r <;> constructor <;>
            simp [outcome, quiet, conflicting, carried, KeyChange.apply, KeyChange.nothing, hr]
        · by_cases hr : b = r
          · subst hr
            have hl' : ¬ l = b := fun h => hl h.symm
            constructor <;>
              simp [outcome, quiet, conflicting, carried, KeyChange.apply, KeyChange.nothing,
                hl, hl']
          · by_cases hlr : l = r <;> constructor <;>
              simp_all [outcome, quiet, conflicting, carried, KeyChange.apply, KeyChange.nothing]

end KeyState

variable (localSnippets remote : IStringDictionary String)

theorem mergeLoops_onKey (base : Option (IStringDictionary String)) (key : String) :
    (mergeLoops localSnippets remote (compare (some localSnippets) (some remote))
      (compare base (some localSnippets)) (compare base (some remote)) .start).onKey key =
    .outcome (localSnippets.get key) (remote.get key) ((base.getD .empty).get key) := by
  have hdifferent := (compare_describes (some localSnippets) (some remote)).mem_updated_iff_ne key
  have hlocal := compare_describes base (some localSnippets)
  have hremote := compare_describes base (some remote)
  have hlocalAdded := hlocal.mem_added key
  have hlocalRemoved := hlocal.mem_removed key
  have hlocalUpdated := hlocal.mem_updated_iff_ne key
  have hremoteAdded := hremote.mem_added key
  have hremoteRemoved := hremote.mem_removed key
  have hremoteUpdated := hremote.mem_updated_iff_ne key
  simp only [mergeLoops]
  -- one equation for each loop, read at this key
  generalize hlr : compare (some localSnippets) (some remote) = localToRemote at hdifferent ⊢
  generalize hbl : compare base (some localSnippets) = baseToLocal at *
  generalize hbr : compare base (some remote) = baseToRemote at *
  have h1 := view_foldl (touches_removedLocally remote baseToRemote) hlocal.removed .start key
  generalize List.foldl _ State.start _ = state1 at h1 ⊢
  have h2 := view_foldl (touches_removedRemotely baseToLocal) hremote.removed state1 key
  generalize List.foldl _ state1 _ = state2 at h2 ⊢
  have h3 := view_foldl (touches_updatedLocally localSnippets localToRemote baseToRemote)
    hlocal.updated state2 key
  generalize List.foldl _ state2 _ = state3 at h3 ⊢
  have h4 := view_foldl (touches_updatedRemotely localSnippets remote localToRemote baseToLocal)
    hremote.updated state3 key
  generalize List.foldl _ state3 _ = state4 at h4 ⊢
  have h5 := view_foldl (touches_addedLocally localSnippets localToRemote baseToRemote)
    hlocal.added state4 key
  generalize List.foldl _ state4 _ = state5 at h5 ⊢
  have h6 := view_foldl (touches_addedRemotely remote localToRemote baseToLocal)
    hremote.added state5 key
  generalize List.foldl _ state5 _ = state6 at h6 ⊢
  have hstart : State.start.onKey key = ⟨.nothing, .nothing, false⟩ := rfl
  simp only [List.contains_iff_mem, hstart, hdifferent, hlocalAdded, hlocalRemoved, hlocalUpdated,
    hremoteAdded, hremoteRemoved, hremoteUpdated, Option.getD_some] at h1 h2 h3 h4 h5 h6
  clear hdifferent hlocalAdded hlocalRemoved hlocalUpdated hremoteAdded hremoteRemoved
    hremoteUpdated hlocal hremote hlr hbl hbr hstart
  cases hl : localSnippets.get key <;> cases hr : remote.get key <;>
    cases hb : (base.getD .empty).get key <;> simp [hl, hr, hb] at h1 h2 h3 h4 h5 h6
  all_goals
    simp only [KeyState.outcome, KeyState.quiet]
    (try split_ifs) <;> simp_all [KeyChange.nothing]

namespace MergeResult

variable (result : MergeResult)

def newLocal (localSnippets : IStringDictionary String) : IStringDictionary String :=
  result.localChanges.applyTo localSnippets

def newRemote (remote : IStringDictionary String) : IStringDictionary String :=
  result.remoteChanges.applyTo remote

def onKey (key : String) : KeyState :=
  ⟨result.localChanges.onKey key, result.remoteChanges.onKey key, result.conflicts.contains key⟩

end MergeResult

theorem merge_settled (base : Option (IStringDictionary String)) (key : String) :
    Settled (localSnippets.get key) (remote.get key) ((base.getD .empty).get key)
      ((merge localSnippets (some remote) base).onKey key) := by
  simp only [merge]
  split
  · next hempty =>
      have hsame := (compare_describes (some localSnippets) (some remote)).get_eq_of_isEmpty hempty
        key
      simp only [Option.getD_some] at hsame
      rw [hsame]
      constructor <;> simp [MergeResult.onKey, conflicting, carried, LocalChanges.empty_onKey,
        KeyChange.apply, KeyChange.nothing]
  · have hkey := mergeLoops_onKey localSnippets remote base key
    have hresult : ∀ state : State, MergeResult.onKey
        ⟨⟨state.localAdded, state.localRemoved, state.localUpdated⟩,
          ⟨state.remoteAdded, state.remoteRemoved, state.remoteUpdated⟩, state.conflicts⟩ key =
        state.onKey key := fun _ => rfl
    rw [hresult, hkey]
    exact KeyState.outcome_settled _ _ _

/-- What a merge achieves: the conflicts are reported, and every other key carries the
three-way rule on both sides. -/
structure Converges (localSnippets remote : IStringDictionary String)
    (base : Option (IStringDictionary String)) (result : MergeResult) : Prop where
  conflicts : ∀ key, key ∈ result.conflicts ↔
    conflicting (localSnippets.get key) (remote.get key) ((base.getD .empty).get key)
  localCarries : ∀ key ∉ result.conflicts, (result.newLocal localSnippets).get key =
    carried (localSnippets.get key) (remote.get key) ((base.getD .empty).get key)
  remoteCarries : ∀ key ∉ result.conflicts, (result.newRemote remote).get key =
    carried (localSnippets.get key) (remote.get key) ((base.getD .empty).get key)

theorem merge_converges (base : Option (IStringDictionary String)) :
    Converges localSnippets remote base (merge localSnippets (some remote) base) := by
  have hsettled := merge_settled localSnippets remote base
  generalize merge localSnippets (some remote) base = result at hsettled
  have hconflicts : ∀ key, key ∈ result.conflicts ↔
      conflicting (localSnippets.get key) (remote.get key) ((base.getD .empty).get key) :=
    fun key => by rw [← (hsettled key).conflict, MergeResult.onKey, List.contains_iff_mem]
  refine ⟨hconflicts, fun key hkey => ?_, fun key hkey => ?_⟩
  · rw [hconflicts] at hkey
    rw [MergeResult.newLocal, LocalChanges.get_applyTo]
    exact (hsettled key).localCarries hkey
  · rw [hconflicts] at hkey
    rw [MergeResult.newRemote, LocalChanges.get_applyTo]
    exact (hsettled key).remoteCarries hkey

theorem merge_again {localSnippets remote : IStringDictionary String}
    {base : Option (IStringDictionary String)} {result : MergeResult}
    (h : Converges localSnippets remote base result) (key : String)
    (hkey : key ∉ result.conflicts) :
    let newRemote := result.newRemote remote
    let again := merge (result.newLocal localSnippets) (some newRemote) (some newRemote)
    again.localChanges.onKey key = .nothing ∧ again.remoteChanges.onKey key = .nothing ∧
      key ∉ again.conflicts := by
  intro newRemote again
  have hsettled := merge_settled (result.newLocal localSnippets) newRemote (some newRemote) key
  have hsame : (result.newLocal localSnippets).get key = newRemote.get key := by
    rw [h.localCarries key hkey, h.remoteCarries key hkey]
  have hquiet := hsettled.quiet hsame rfl
  refine ⟨hquiet.1, hquiet.2, fun hconflict => ?_⟩
  have hconflicting := hsettled.conflict.1 (List.contains_iff_mem.2 hconflict)
  exact hconflicting.2.1 hsame.symm

end CodeOss.UserDataSync.Snippets

/-! The two dictionary merges bring both sides together in one round. -/

namespace CodeOss.UserDataSync

/-- Both sides carry the three-way rule, conflicts and excepted keys aside, and merging
again from there proposes nothing new for the keys that were brought together. -/
theorem merges_converge :
    (∀ localStorage remoteStorage baseStorage storageKeys,
      let result := GlobalState.merge localStorage (some remoteStorage) baseStorage storageKeys
      let newLocal := result.newLocal localStorage
      let newRemote := result.newRemote remoteStorage
      let again := GlobalState.merge newLocal (some newRemote) (some newRemote) storageKeys
      GlobalState.Converges localStorage remoteStorage baseStorage storageKeys result ∧
      (∀ key, again.localChanges.onKey key = .nothing) ∧
      (∀ key ∈ again.remoteKeys, key ∈ storageKeys.machine ∨ ∃ value value', newLocal.get key = some
        value ∧ newRemote.get key = some value' ∧ value.value = value'.value) ∧
      (again.remoteKeys = [] → again.remoteChanges.all = none)) ∧
    (∀ localSnippets remote base, let result := Snippets.merge localSnippets (some remote) base
      let newLocal := result.newLocal localSnippets
      let newRemote := result.newRemote remote
      let again := Snippets.merge newLocal (some newRemote) (some newRemote)
      Snippets.Converges localSnippets remote base result ∧
      ∀ key ∉ result.conflicts,
        again.localChanges.onKey key = .nothing ∧ again.remoteChanges.onKey key = .nothing ∧
          key ∉ again.conflicts) :=
  ⟨fun _ _ _ _ => ⟨GlobalState.merge_converges,
      GlobalState.merge_again GlobalState.merge_converges⟩,
    fun localSnippets remote base => ⟨Snippets.merge_converges localSnippets remote base,
      fun key hkey => Snippets.merge_again (Snippets.merge_converges localSnippets remote base)
        key hkey⟩⟩

/-- Agreement and the one-sided rule, for what `read` sees of an entry. -/
def GlobalState.AgreesOneSided {β : Type} (read : IStorageValue → β)
    (localStorage remoteStorage base : IStringDictionary IStorageValue) (key : String) : Prop :=
  let result := merge localStorage (some remoteStorage) (some base) ⟨[], []⟩
  let newLocal := ((result.newLocal localStorage).get key).map read
  let newRemote := ((result.newRemote remoteStorage).get key).map read
  newLocal = newRemote ∧
    ((localStorage.get key).map read = (base.get key).map read →
      newLocal = (remoteStorage.get key).map read) ∧
    ((remoteStorage.get key).map read = (base.get key).map read →
      newLocal = (localStorage.get key).map read)

def GlobalState.single (version : Nat) (value : String) : IStringDictionary IStorageValue :=
  JsMap.empty.set "k" ⟨version, value, none⟩

/-- Versions count as a change and are not brought over: read whole, the entries stay
different when only the remote version moved; read by their text, a remote change is
lost when only the local version moved. -/
theorem merges_fail_on_versions :
    ¬ GlobalState.AgreesOneSided id (GlobalState.single 1 "a") (GlobalState.single 2 "a")
      (GlobalState.single 1 "a") "k" ∧
    ¬ GlobalState.AgreesOneSided IStorageValue.value (GlobalState.single 2 "a")
      (GlobalState.single 1 "b") (GlobalState.single 1 "a") "k" := by
  constructor
  · rintro ⟨hagree, -⟩
    exact absurd hagree (by decide)
  · rintro ⟨-, hremote, -⟩
    exact absurd (hremote rfl) (by decide)

end CodeOss.UserDataSync
