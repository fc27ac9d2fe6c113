import CodeOss.UserDataSync.GlobalStateMerge

/-! The merge of the profiles of a client with the synced ones.
What a merge proposes for an id depends on what the three sides hold under it alone. -/

namespace CodeOss.UserDataSync.Profiles

open List

/-- `UseDefaultProfileFlags`: a flag for each resource that has one. -/
structure UseDefaultProfileFlags where
  settings : Option Bool
  keybindings : Option Bool
  snippets : Option Bool
  prompts : Option Bool
  tasks : Option Bool
  extensions : Option Bool
  globalState : Option Bool
  mcp : Option Bool
  languageModels : Option Bool
  deriving DecidableEq, Repr

/-- The fields of a profile that `compare` reads. -/
structure UserDataProfileInfo where
  id : String
  name : String
  icon : Option String
  useDefaultFlags : Option UseDefaultProfileFlags
  deriving DecidableEq, Repr

structure SyncUserDataProfile extends UserDataProfileInfo where
  collection : String
  deriving DecidableEq, Repr

/-- The profiles of the client, without where their files are. -/
abbrev UserDataProfile := UserDataProfileInfo

variable (profiles : List UserDataProfileInfo)

def keep (ignored : List String) : List UserDataProfileInfo :=
  profiles.filter fun profile => !ignored.contains profile.id

def find (id : String) : Option UserDataProfileInfo :=
  profiles.find? fun profile => profile.id = id

def differs (toProfile profile : UserDataProfileInfo) : Bool :=
  toProfile.name ≠ profile.name || toProfile.icon ≠ profile.icon ||
    toProfile.useDefaultFlags ≠ profile.useDefaultFlags

/-- A missing `fromProfiles` has no profiles. -/
def compare (fromProfiles : Option (List UserDataProfileInfo))
    (toProfiles : List UserDataProfileInfo) (ignoredProfiles : List String) : Comparison :=
  let fromProfiles := keep (fromProfiles.getD []) ignoredProfiles
  let toProfiles := keep toProfiles ignoredProfiles
  let fromKeys := fromProfiles.map (·.id)
  let toKeys := toProfiles.map (·.id)
  let added := toKeys.filter fun key => !fromKeys.contains key
  let removed := fromKeys.filter fun key => !toKeys.contains key
  let updated := (fromProfiles.filter fun profile =>
    !removed.contains profile.id &&
      (find toProfiles profile.id).elim true fun toProfile => differs toProfile profile).map (·.id)
  { added, removed, updated }

structure LocalResult where
  added : List SyncUserDataProfile
  removed : List UserDataProfile
  updated : List SyncUserDataProfile
  deriving DecidableEq, Repr

structure RemoteResult where
  added : List UserDataProfile
  removed : List SyncUserDataProfile
  updated : List UserDataProfile
  deriving DecidableEq, Repr

structure MergeResult where
  localResult : LocalResult
  remoteResult : Option RemoteResult
  deriving DecidableEq, Repr

def LocalResult.empty : LocalResult := ⟨[], [], []⟩

def RemoteResult.empty : RemoteResult := ⟨[], [], []⟩

/-- The result that is reported: nothing when nothing is to be done. -/
def RemoteResult.orNull (remote : RemoteResult) : Option RemoteResult :=
  if remote.added.isEmpty && remote.removed.isEmpty && remote.updated.isEmpty then none
  else some remote

def infos (profiles : List SyncUserDataProfile) : List UserDataProfileInfo :=
  profiles.map (·.toUserDataProfileInfo)

section

variable (localProfiles : List UserDataProfile) (remote : List SyncUserDataProfile)
  (localToRemote baseToLocal baseToRemote : Comparison)

/-- The profiles that are pushed for the ids of a loop. -/
def remoteProfiles (ids : List String) : List SyncUserDataProfile :=
  ids.filterMap fun id => remote.find? fun profile => profile.id = id

def foundLocally (ids : List String) : List UserDataProfile := ids.filterMap (find localProfiles)

/-- What the loops push for the client: a profile that both sides added is updated where the two
differ, behind it stand the remotely updated ones. -/
def localChanges : LocalResult where
  added := remoteProfiles remote
    (baseToRemote.added.filter fun id => !baseToLocal.added.contains id)
  removed := foundLocally localProfiles baseToRemote.removed
  updated := remoteProfiles remote
    ((baseToRemote.added.filter fun id => baseToLocal.added.contains id &&
      localToRemote.updated.contains id) ++ baseToRemote.updated)

/-- What they push for the other side: a locally updated profile is left alone where it was removed
or updated remotely. -/
def remoteChanges : RemoteResult where
  added := foundLocally localProfiles
    (baseToLocal.added.filter fun id => !baseToRemote.added.contains id)
  removed := remoteProfiles remote baseToLocal.removed
  updated := foundLocally localProfiles (baseToLocal.updated.filter fun id =>
    !baseToRemote.removed.contains id && !baseToRemote.updated.contains id)

end

variable (localProfiles : List UserDataProfile)

def merge
    (remote lastSync : Option (List SyncUserDataProfile)) (ignored : List String) : MergeResult :=
  match remote with
  | none => ⟨.empty, { RemoteResult.empty with added := keep localProfiles ignored }.orNull⟩
  | some remote =>
    let localToRemote := compare (some localProfiles) (infos remote) ignored
    if localToRemote.isEmpty then ⟨.empty, none⟩
    else
      let baseToLocal := compare (lastSync.map infos) localProfiles ignored
      let baseToRemote := compare (lastSync.map infos) (infos remote) ignored
      ⟨localChanges localProfiles remote localToRemote baseToLocal baseToRemote,
        (remoteChanges localProfiles remote baseToLocal baseToRemote).orNull⟩

def idsOf : List String := profiles.map (·.id)

def applied (profiles added removed updated : List UserDataProfileInfo) :
    List UserDataProfileInfo :=
  ((profiles.filter fun profile => !(idsOf removed).contains profile.id).map fun profile =>
    (find updated profile.id).getD profile) ++ added

def LocalResult.ids (changes : LocalResult) : List String :=
  idsOf (infos changes.added) ++ idsOf changes.removed ++ idsOf (infos changes.updated)

def LocalResult.applyTo (changes : LocalResult) (profiles : List UserDataProfile) :
    List UserDataProfileInfo :=
  applied profiles (infos changes.added) changes.removed (infos changes.updated)

def RemoteResult.applyTo (changes : RemoteResult) (profiles : List SyncUserDataProfile) :
    List UserDataProfileInfo :=
  applied (infos profiles) changes.added (infos changes.removed) changes.updated

/-- The changes of each side can be made there, no profile is changed on the client and removed from
the other side, and the two sides end up with the same profiles under the ids not ignored. -/
structure Converges (localProfiles : List UserDataProfile) (remote : List SyncUserDataProfile)
    (ignored : List String) (localResult : LocalResult) (remoteResult : RemoteResult) : Prop where
  oneSide : ∀ id ∈ localResult.ids, id ∉ idsOf (infos remoteResult.removed)
  localAdded : ∀ id ∈ idsOf (infos localResult.added), id ∉ idsOf localProfiles
  localRemoved : ∀ id ∈ idsOf localResult.removed, id ∈ idsOf localProfiles
  localUpdated : ∀ id ∈ idsOf (infos localResult.updated), id ∈ idsOf localProfiles
  remoteRemoved : ∀ id ∈ idsOf (infos remoteResult.removed), id ∈ idsOf (infos remote)
  remoteUpdated : ∀ id ∈ idsOf remoteResult.updated, id ∈ idsOf (infos remote)
  same : ∀ id ∉ ignored, find (localResult.applyTo localProfiles) id =
    find (remoteResult.applyTo remote) id

def MergeConverges
    (remote lastSync : Option (List SyncUserDataProfile)) (ignored : List String) : Prop :=
  let result := merge localProfiles remote lastSync ignored
  Converges localProfiles (remote.getD []) ignored result.localResult
    (result.remoteResult.getD .empty)

/-- No profile that the client removed was changed remotely since the last sync. -/
def NoRemovedUpdate
    (remote lastSync : Option (List SyncUserDataProfile)) (ignored : List String) : Prop :=
  ∀ profile ∈ infos (remote.getD []), profile.id ∉ ignored → profile.id ∉ idsOf localProfiles →
    ∀ base ∈ infos (lastSync.getD []), base.id = profile.id → base = profile

section

variable {profiles added removed updated : List UserDataProfileInfo} {ignored ids : List String}
  {id : String}

variable {profile : UserDataProfileInfo}

theorem id_of_find (h : find profiles id = some profile) : profile.id = id := by
  simpa using find?_some h

theorem mem_idsOf : id ∈ idsOf profiles ↔ (find profiles id).isSome := by
  simp only [idsOf, find, mem_map, find?_isSome, decide_eq_true_eq]

theorem find_eq_some (hdistinct : (idsOf profiles).Nodup) (h : profile ∈ profiles) :
    find profiles profile.id = some profile := by
  induction profiles with
  | nil => exact absurd h not_mem_nil
  | cons first rest ih =>
    rw [idsOf, map_cons, nodup_cons] at hdistinct
    rw [find, find?_cons]
    rcases mem_cons.1 h with rfl | hrest
    · simp
    · have hne : first.id ≠ profile.id :=
        fun he => hdistinct.1 (he ▸ mem_map_of_mem hrest)
      rw [decide_eq_false hne]
      exact ih hdistinct.2 hrest

theorem find_append (rest : List UserDataProfileInfo) :
    find (profiles ++ rest) id = (find profiles id).or (find rest id) := find?_append

theorem find_filter (p : String → Bool) :
    find (profiles.filter fun profile => p profile.id) id =
      if p id then find profiles id else none := by
  rw [find, find?_filter, find]
  split
  · next hp =>
      congr 1
      funext profile
      by_cases he : profile.id = id <;> simp [he, hp]
  · next hp =>
      rw [find?_eq_none]
      intro profile _
      by_cases he : profile.id = id <;> simp [he, hp]

theorem find_keep : find (keep profiles ignored) id =
    if ignored.contains id then none else find profiles id := by
  rw [keep, find_filter fun id => !ignored.contains id]
  cases ignored.contains id <;> rfl

theorem find_map {f : UserDataProfileInfo → UserDataProfileInfo}
    (hf : ∀ profile, (f profile).id = profile.id) :
    find (profiles.map f) id = (find profiles id).map f := by
  rw [find, find?_map, find]
  simp [hf]

theorem find_foundLocally : find (foundLocally profiles ids) id =
    if ids.contains id then find profiles id else none := by
  induction ids with
  | nil => rfl
  | cons first rest ih =>
    rw [foundLocally, filterMap_cons, contains_cons]
    cases hfirst : find profiles first with
    | none =>
      rw [← foundLocally, ih]
      by_cases he : id = first <;> simp [he, hfirst]
    | some profile =>
      rw [find, find?_cons, id_of_find hfirst]
      by_cases he : first = id
      · simp [← he, hfirst]
      · rw [decide_eq_false he, ← find, ← foundLocally, ih]
        simp [Ne.symm he]

theorem infos_remoteProfiles (remote : List SyncUserDataProfile) :
    infos (remoteProfiles remote ids) = foundLocally (infos remote) ids := by
  rw [infos, remoteProfiles, foundLocally, map_filterMap]
  congr 1
  funext id
  rw [find, infos, find?_map]
  rfl

theorem find_applied :
    find (applied profiles added removed updated) id =
      (if (idsOf removed).contains id then none
        else (find profiles id).map fun profile => (find updated id).getD profile).or
        (find added id) := by
  have hid : ∀ profile : UserDataProfileInfo,
      ((find updated profile.id).getD profile).id = profile.id := by
    intro profile
    cases h : find updated profile.id with
    | none => rfl
    | some other => exact id_of_find h
  rw [applied, find_append, find_map hid, find_filter fun id => !(idsOf removed).contains id]
  cases hremoved : (idsOf removed).contains id
  · cases hfind : find profiles id with
    | none => rfl
    | some profile => simp [id_of_find hfind]
  · rfl

theorem contains_idsOf : (idsOf profiles).contains id = (find profiles id).isSome := by
  rw [Bool.eq_iff_iff, contains_iff_mem]
  exact mem_idsOf

theorem nodup_keep (h : (idsOf profiles).Nodup) : (idsOf (keep profiles ignored)).Nodup :=
  h.sublist (filter_sublist.map _)

theorem differs_iff {toProfile : UserDataProfileInfo} (hid : toProfile.id = profile.id) :
    differs toProfile profile = true ↔ profile ≠ toProfile := by
  obtain ⟨id, name, icon, flags⟩ := profile
  obtain ⟨id', name', icon', flags'⟩ := toProfile
  simp only at hid
  subst hid
  simp only [differs, ne_eq, Bool.or_eq_true, decide_eq_true_eq, UserDataProfileInfo.mk.injEq,
    true_and]
  tauto

/-- What `compare` says of an id, by the profiles of the two sides under it. -/
structure Compared (comparison : Comparison) (id : String)
    (fromProfile toProfile : Option UserDataProfileInfo) : Prop where
  added : id ∈ comparison.added ↔ fromProfile = none ∧ toProfile ≠ none
  removed : id ∈ comparison.removed ↔ fromProfile ≠ none ∧ toProfile = none
  updated : id ∈ comparison.updated ↔
    fromProfile ≠ none ∧ toProfile ≠ none ∧ fromProfile ≠ toProfile

theorem mem_ids : id ∈ profiles.map (·.id) ↔ find profiles id ≠ none := by
  rw [← Option.isSome_iff_ne_none]
  exact mem_idsOf

theorem compare_compared (fromProfiles : Option (List UserDataProfileInfo))
    (hdistinct : (idsOf (fromProfiles.getD [])).Nodup) :
    Compared (compare fromProfiles profiles ignored) id
      (find (keep (fromProfiles.getD []) ignored) id) (find (keep profiles ignored) id) := by
  have hnodup : (idsOf (keep (fromProfiles.getD []) ignored)).Nodup := nodup_keep hdistinct
  rw [compare]
  generalize keep (fromProfiles.getD []) ignored = fromSide at hnodup ⊢
  generalize keep profiles ignored = toSide
  have hremoved : ∀ key, key ∈ (fromSide.map (·.id)).filter
      (fun key => !(toSide.map (·.id)).contains key) ↔
        find fromSide key ≠ none ∧ find toSide key = none := by
    intro key
    rw [mem_filter, mem_ids, ← idsOf, contains_idsOf]
    simp
  refine ⟨?_, hremoved id, ?_⟩
  · rw [mem_filter, mem_ids, ← idsOf, contains_idsOf]
    simp [and_comm]
  · rw [mem_map]
    constructor
    · rintro ⟨profile, hmem, rfl⟩
      obtain ⟨hprofile, hkept⟩ := mem_filter.1 hmem
      have hfrom := find_eq_some hnodup hprofile
      rw [Bool.and_eq_true, Bool.not_eq_true', ← Bool.not_eq_true, contains_iff_mem,
        hremoved, hfrom] at hkept
      rw [hfrom]
      cases hto : find toSide profile.id with
      | none => exact absurd ⟨Option.some_ne_none _, hto⟩ hkept.1
      | some toProfile =>
        rw [hto, Option.elim_some, differs_iff (id_of_find hto)] at hkept
        exact ⟨Option.some_ne_none _, Option.some_ne_none _, mt Option.some.inj hkept.2⟩
    · rintro ⟨hfrom, hto, hne⟩
      obtain ⟨profile, hprofile⟩ := Option.ne_none_iff_exists'.1 hfrom
      obtain ⟨toProfile, htoProfile⟩ := Option.ne_none_iff_exists'.1 hto
      have hid := id_of_find hprofile
      subst hid
      refine ⟨profile, mem_filter.2 ⟨mem_of_find?_eq_some hprofile, ?_⟩, rfl⟩
      rw [Bool.and_eq_true, Bool.not_eq_true', ← Bool.not_eq_true, contains_iff_mem, hremoved,
        htoProfile, Option.elim_some, differs_iff (id_of_find htoProfile)]
      rw [hprofile, htoProfile] at hne
      exact ⟨fun h => absurd h.2 (Option.some_ne_none _), fun he => hne (congrArg some he)⟩

end

/-- What a side holds under an id that is not ignored. -/
def held (ignored : List String) (id : String) : Option UserDataProfileInfo :=
  find (keep profiles ignored) id

section

variable {localProfiles : List UserDataProfile} {remote base : List SyncUserDataProfile}
  {ignored : List String} {localToRemote baseToLocal baseToRemote : Comparison} {id : String}

theorem held_eq (profiles : List UserDataProfileInfo) (h : id ∉ ignored) :
    held profiles ignored id = find profiles id := by
  rw [held, find_keep, if_neg (by rwa [contains_iff_mem])]

theorem held_ignored (profiles : List UserDataProfileInfo) (h : id ∈ ignored) :
    held profiles ignored id = none := by
  rw [held, find_keep, if_pos (contains_iff_mem.2 h)]

variable {profiles : List UserDataProfileInfo}

theorem not_ignored (h : held profiles ignored id ≠ none) :
    id ∉ ignored := fun hmem => h (held_ignored profiles hmem)

theorem find_of_held (h : held profiles ignored id ≠ none) :
    find profiles id = held profiles ignored id :=
  (held_eq profiles (not_ignored h)).symm

theorem find_found {ids : List String} {p : Prop} [Decidable p] (hids : id ∈ ids ↔ p)
    (hp : p → id ∉ ignored) :
    find (foundLocally profiles ids) id = if p then held profiles ignored id else none := by
  rw [find_foundLocally]
  by_cases h : p
  · rw [if_pos h, if_pos (contains_iff_mem.2 (hids.2 h)), held_eq profiles (hp h)]
  · rw [if_neg h, if_neg (fun hmem => h (hids.1 (contains_iff_mem.1 hmem)))]

/-- The three comparisons of a merge, by what the three sides hold. -/
structure ThreeWay (localProfiles : List UserDataProfile) (remote base : List SyncUserDataProfile)
    (ignored : List String) (localToRemote baseToLocal baseToRemote : Comparison) : Prop where
  localToRemote : ∀ id, Compared localToRemote id (held localProfiles ignored id)
    (held (infos remote) ignored id)
  baseToLocal : ∀ id, Compared baseToLocal id (held (infos base) ignored id)
    (held localProfiles ignored id)
  baseToRemote : ∀ id, Compared baseToRemote id (held (infos base) ignored id)
    (held (infos remote) ignored id)

section

variable (h : ThreeWay localProfiles remote base ignored localToRemote baseToLocal baseToRemote)
include h

theorem ThreeWay.find_localAdded :
    find (infos (localChanges localProfiles remote localToRemote baseToLocal baseToRemote).added)
      id = if held (infos base) ignored id = none ∧ held localProfiles ignored id = none
        then held (infos remote) ignored id else none := by
  rw [localChanges, infos_remoteProfiles]
  by_cases hremote : held (infos remote) ignored id = none
  · rw [hremote, ite_self, find_foundLocally, if_neg]
    rw [contains_iff_mem, mem_filter, (h.baseToRemote id).added]
    exact fun hmem => hmem.1.2 hremote
  · refine find_found ?_ fun _ => not_ignored hremote
    rw [mem_filter, (h.baseToRemote id).added, Bool.not_eq_true', ← Bool.not_eq_true,
      contains_iff_mem, (h.baseToLocal id).added]
    tauto

theorem ThreeWay.find_localRemoved :
    find (localChanges localProfiles remote localToRemote baseToLocal baseToRemote).removed
      id = if held (infos base) ignored id ≠ none ∧ held (infos remote) ignored id = none
        then held localProfiles ignored id else none :=
  find_found (h.baseToRemote id).removed fun hp => not_ignored hp.1

theorem ThreeWay.find_localUpdated :
    find (infos (localChanges localProfiles remote localToRemote baseToLocal baseToRemote).updated)
      id = if held (infos base) ignored id = none ∧ held localProfiles ignored id ≠ none ∧
          held localProfiles ignored id ≠ held (infos remote) ignored id ∨
          held (infos base) ignored id ≠ none ∧
          held (infos base) ignored id ≠ held (infos remote) ignored id
        then held (infos remote) ignored id else none := by
  rw [localChanges, infos_remoteProfiles]
  by_cases hremote : held (infos remote) ignored id = none
  · rw [hremote, ite_self, find_foundLocally, if_neg]
    rw [contains_iff_mem, List.mem_append, mem_filter, (h.baseToRemote id).added,
      (h.baseToRemote id).updated]
    tauto
  · refine find_found ?_ fun _ => not_ignored hremote
    rw [List.mem_append, mem_filter, (h.baseToRemote id).added, Bool.and_eq_true,
      contains_iff_mem, contains_iff_mem, (h.baseToLocal id).added,
      (h.localToRemote id).updated, (h.baseToRemote id).updated]
    tauto

theorem ThreeWay.find_remoteAdded :
    find (remoteChanges localProfiles remote baseToLocal baseToRemote).added
      id = if held (infos base) ignored id = none ∧ held (infos remote) ignored id = none
        then held localProfiles ignored id else none := by
  rw [remoteChanges]
  by_cases hlocal : held localProfiles ignored id = none
  · rw [hlocal, ite_self, find_foundLocally, if_neg]
    rw [contains_iff_mem, mem_filter, (h.baseToLocal id).added]
    exact fun hmem => hmem.1.2 hlocal
  · refine find_found ?_ fun _ => not_ignored hlocal
    rw [mem_filter, (h.baseToLocal id).added, Bool.not_eq_true', ← Bool.not_eq_true,
      contains_iff_mem, (h.baseToRemote id).added]
    tauto

theorem ThreeWay.find_remoteRemoved :
    find (infos (remoteChanges localProfiles remote baseToLocal baseToRemote).removed)
      id = if held (infos base) ignored id ≠ none ∧ held localProfiles ignored id = none
        then held (infos remote) ignored id else none := by
  rw [remoteChanges, infos_remoteProfiles]
  exact find_found (h.baseToLocal id).removed fun hp => not_ignored hp.1

theorem ThreeWay.find_remoteUpdated :
    find (remoteChanges localProfiles remote baseToLocal baseToRemote).updated
      id = if held (infos base) ignored id ≠ none ∧
          held (infos base) ignored id = held (infos remote) ignored id ∧
          held (infos base) ignored id ≠ held localProfiles ignored id
        then held localProfiles ignored id else none := by
  rw [remoteChanges]
  by_cases hlocal : held localProfiles ignored id = none
  · rw [hlocal, ite_self, find_foundLocally, if_neg]
    rw [contains_iff_mem, mem_filter, (h.baseToLocal id).updated]
    exact fun hmem => hmem.1.2.1 hlocal
  · refine find_found ?_ fun _ => not_ignored hlocal
    rw [mem_filter, (h.baseToLocal id).updated, Bool.and_eq_true, Bool.not_eq_true',
      ← Bool.not_eq_true, contains_iff_mem, (h.baseToRemote id).removed, Bool.not_eq_true',
      ← Bool.not_eq_true, contains_iff_mem, (h.baseToRemote id).updated]
    have hne : held (infos base) ignored id = held (infos remote) ignored id →
        held (infos base) ignored id ≠ none → held (infos remote) ignored id ≠ none :=
      fun he hbase => he ▸ hbase
    tauto

theorem ThreeWay.converges_iff : Converges localProfiles remote ignored
    (localChanges localProfiles remote localToRemote baseToLocal baseToRemote) (remoteChanges
    localProfiles remote baseToLocal baseToRemote) ↔ ∀ id, held (infos base) ignored id ≠ none →
    held localProfiles ignored id = none → held (infos remote) ignored id ≠ none →
    held (infos base) ignored id = held (infos remote) ignored id := by
  have hlocal : ∀ id, held localProfiles ignored id ≠ none →
      find localProfiles id = held localProfiles ignored id := fun _ => find_of_held
  have hremote : ∀ id, held (infos remote) ignored id ≠ none →
      find (infos remote) id = held (infos remote) ignored id := fun _ => find_of_held
  constructor
  · intro hconverges id hbase hlocal hremote
    by_contra hne
    refine hconverges.oneSide id ?_ (mem_idsOf.2 ?_)
    · refine mem_append_right _ (mem_idsOf.2 ?_)
      rw [h.find_localUpdated, if_pos (.inr ⟨hbase, hne⟩)]
      exact Option.isSome_iff_ne_none.2 hremote
    · rw [h.find_remoteRemoved, if_pos ⟨hbase, hlocal⟩]
      exact Option.isSome_iff_ne_none.2 hremote
  · intro hcond
    constructor
    · intro id hmem
      specialize hcond id
      rw [LocalResult.ids, List.mem_append, List.mem_append, mem_idsOf, mem_idsOf, mem_idsOf,
        h.find_localAdded, h.find_localRemoved, h.find_localUpdated] at hmem
      rw [mem_idsOf, h.find_remoteRemoved]
      revert hmem hcond
      cases held (infos base) ignored id <;> cases held localProfiles ignored id <;>
        cases held (infos remote) ignored id <;> simp
    · intro id hmem
      rw [mem_idsOf, h.find_localAdded] at hmem
      rw [mem_idsOf]
      by_cases hremote : held (infos remote) ignored id = none
      · simp [hremote] at hmem
      · rw [← held_eq localProfiles (not_ignored hremote)]
        split at hmem
        · next hnone => simp [hnone.2]
        · exact absurd hmem Bool.false_ne_true
    · intro id hmem
      rw [mem_idsOf, h.find_localRemoved] at hmem
      rw [mem_idsOf]
      split at hmem
      · rwa [hlocal id (Option.isSome_iff_ne_none.1 hmem)]
      · exact absurd hmem Bool.false_ne_true
    · intro id hmem
      specialize hcond id
      rw [mem_idsOf, h.find_localUpdated] at hmem
      rw [mem_idsOf]
      have hheld : held localProfiles ignored id ≠ none := by
        intro hnone
        rw [hnone] at hmem hcond
        revert hmem hcond
        cases held (infos base) ignored id <;> cases held (infos remote) ignored id <;> simp
      rw [hlocal id hheld]
      exact Option.isSome_iff_ne_none.2 hheld
    · intro id hmem
      rw [mem_idsOf, h.find_remoteRemoved] at hmem
      rw [mem_idsOf]
      split at hmem
      · rwa [hremote id (Option.isSome_iff_ne_none.1 hmem)]
      · exact absurd hmem Bool.false_ne_true
    · intro id hmem
      rw [mem_idsOf, h.find_remoteUpdated] at hmem
      rw [mem_idsOf]
      split at hmem
      · next hp =>
          have hheld : held (infos remote) ignored id ≠ none := hp.2.1 ▸ hp.1
          rw [hremote id hheld]
          exact Option.isSome_iff_ne_none.2 hheld
      · exact absurd hmem Bool.false_ne_true
    · intro id hid
      specialize hcond id
      rw [LocalResult.applyTo, RemoteResult.applyTo, find_applied, find_applied, contains_idsOf,
        contains_idsOf, h.find_localAdded, h.find_localRemoved, h.find_localUpdated,
        h.find_remoteAdded, h.find_remoteRemoved, h.find_remoteUpdated, ← held_eq _ hid,
        ← held_eq _ hid]
      revert hcond
      cases held (infos base) ignored id with
      | none =>
        cases held localProfiles ignored id <;> cases held (infos remote) ignored id <;> simp
        next localProfile remoteProfile =>
          by_cases hsame : localProfile = remoteProfile <;> simp [hsame]
      | some base =>
        cases held localProfiles ignored id <;> cases held (infos remote) ignored id <;> simp
        next localProfile remoteProfile =>
          -- all three hold it: remote wins where it changed
          by_cases hremote : base = remoteProfile
          · subst hremote
            by_cases hlocal : base = localProfile
            · subst hlocal
              simp
            · simp [hlocal]
          · simp [hremote]

end

theorem orNull_getD (result : RemoteResult) : result.orNull.getD .empty = result := by
  obtain ⟨added, removed, updated⟩ := result
  rw [RemoteResult.orNull]
  split
  · next h =>
      simp only [Bool.and_eq_true, List.isEmpty_iff] at h
      simp [RemoteResult.empty, h.1.1, h.1.2, h.2]
  · rfl

end

section

variable {localProfiles : List UserDataProfile} {ignored : List String}

theorem keep_converges :
    Converges localProfiles [] ignored .empty
      { RemoteResult.empty with added := keep localProfiles ignored } where
  oneSide _ hmem := absurd hmem not_mem_nil
  localAdded _ hmem := absurd hmem not_mem_nil
  localRemoved _ hmem := absurd hmem not_mem_nil
  localUpdated _ hmem := absurd hmem not_mem_nil
  remoteRemoved _ hmem := absurd hmem not_mem_nil
  remoteUpdated _ hmem := absurd hmem not_mem_nil
  same id hid := by
    have hkept : find (keep localProfiles ignored) id = find localProfiles id :=
      held_eq localProfiles hid
    rw [LocalResult.applyTo, RemoteResult.applyTo, find_applied, find_applied]
    simpa [LocalResult.empty, RemoteResult.empty, infos, idsOf, find] using hkept.symm

variable {remote : List SyncUserDataProfile}

theorem same_converges (h : ∀ id, held localProfiles ignored id = held (infos remote) ignored id) :
    Converges localProfiles remote ignored .empty .empty where
  oneSide _ hmem := absurd hmem not_mem_nil
  localAdded _ hmem := absurd hmem not_mem_nil
  localRemoved _ hmem := absurd hmem not_mem_nil
  localUpdated _ hmem := absurd hmem not_mem_nil
  remoteRemoved _ hmem := absurd hmem not_mem_nil
  remoteUpdated _ hmem := absurd hmem not_mem_nil
  same id hid := by
    have hsame := h id
    rw [held_eq _ hid, held_eq _ hid] at hsame
    rw [LocalResult.applyTo, RemoteResult.applyTo, find_applied, find_applied, ← hsame]
    rfl

theorem held_eq_of_isEmpty {localToRemote : Comparison}
    (h : ∀ id, Compared localToRemote id (held localProfiles ignored id)
    (held (infos remote) ignored id))
    (hempty : localToRemote.isEmpty = true) (id : String) :
    held localProfiles ignored id = held (infos remote) ignored id := by
  simp only [Comparison.isEmpty, Bool.and_eq_true, List.isEmpty_iff] at hempty
  have hadded := mt (h id).added.2 (by simp [hempty])
  have hremoved := mt (h id).removed.2 (by simp [hempty])
  have hupdated := mt (h id).updated.2 (by simp [hempty])
  by_contra hne
  by_cases hlocal : held localProfiles ignored id = none
  · exact hadded ⟨hlocal, fun hnone => hne (hlocal.trans hnone.symm)⟩
  · by_cases hremote : held (infos remote) ignored id = none
    · exact hremoved ⟨hlocal, hremote⟩
    · exact hupdated ⟨hlocal, hremote, hne⟩

theorem noRemovedUpdate_iff {lastSync : Option (List SyncUserDataProfile)}
    (hremote : (idsOf (infos remote)).Nodup) (hbase : (idsOf (infos (lastSync.getD []))).Nodup) :
    NoRemovedUpdate localProfiles (some remote) lastSync ignored ↔
      ∀ id, held (infos (lastSync.getD [])) ignored id ≠ none →
        held localProfiles ignored id = none → held (infos remote) ignored id ≠ none →
          held (infos (lastSync.getD [])) ignored id = held (infos remote) ignored id := by
  constructor
  · intro h id hbase hlocal hremote
    have hid := not_ignored hremote
    rw [held_eq _ hid] at hbase hlocal hremote ⊢
    rw [held_eq _ hid]
    obtain ⟨base, hfound⟩ := Option.ne_none_iff_exists'.1 hbase
    obtain ⟨profile, hprofile⟩ := Option.ne_none_iff_exists'.1 hremote
    have hsame := id_of_find hprofile
    rw [hfound, hprofile]
    refine congrArg some (h profile (mem_of_find?_eq_some hprofile) (hsame ▸ hid) ?_ base
      (mem_of_find?_eq_some hfound) ((id_of_find hfound).trans hsame.symm))
    rw [hsame, mem_idsOf, hlocal]
    exact Bool.false_ne_true
  · intro h profile hprofile hid hlocal base hmem hsame
    have hfound := find_eq_some hremote hprofile
    have hfoundBase := find_eq_some hbase hmem
    rw [hsame] at hfoundBase
    have hheld := h profile.id
    rw [held_eq _ hid, held_eq _ hid, held_eq _ hid, hfound, hfoundBase] at hheld
    refine Option.some.inj (hheld (Option.some_ne_none _) ?_ (Option.some_ne_none _))
    rwa [mem_idsOf, Option.not_isSome_iff_eq_none] at hlocal

end

/-- A merge of lists with distinct ids converges if and only if no profile the client removed was
changed remotely since the last sync. -/
theorem mergeConverges_iff (localProfiles : List UserDataProfile)
    (remote lastSync : Option (List SyncUserDataProfile)) (ignored : List String)
    (hlocal : (idsOf localProfiles).Nodup) (hremote : (idsOf (infos (remote.getD []))).Nodup)
    (hlast : (idsOf (infos (lastSync.getD []))).Nodup) :
    MergeConverges localProfiles remote lastSync ignored ↔
      NoRemovedUpdate localProfiles remote lastSync ignored := by
  have hbase : (lastSync.map infos).getD [] = infos (lastSync.getD []) := by
    cases lastSync <;> rfl
  have hlast' : (idsOf ((lastSync.map infos).getD [])).Nodup := hbase ▸ hlast
  cases remote with
  | none =>
    rw [MergeConverges, merge]
    dsimp only
    rw [orNull_getD]
    exact iff_of_true keep_converges fun _ hmem => absurd hmem List.not_mem_nil
  | some remote =>
    have hguard : ∀ id, Compared (compare (some localProfiles) (infos remote) ignored) id
        (held localProfiles ignored id) (held (infos remote) ignored id) :=
      fun id => compare_compared (some localProfiles) hlocal
    rw [Option.getD_some] at hremote
    rw [noRemovedUpdate_iff hremote hlast, MergeConverges, merge]
    dsimp only
    split
    · next hempty =>
        have hsame := held_eq_of_isEmpty hguard hempty
        refine iff_of_true (same_converges hsame) fun id _ hnone hsome => ?_
        exact absurd ((hsame id).symm.trans hnone) hsome
    · dsimp only
      rw [orNull_getD]
      have hcompared : ∀ (profiles : List UserDataProfileInfo) id,
          Compared (compare (lastSync.map infos) profiles ignored) id
            (held (infos (lastSync.getD [])) ignored id) (held profiles ignored id) := by
        intro profiles id
        rw [held, ← hbase]
        exact compare_compared _ hlast'
      have hsides : ThreeWay localProfiles remote (lastSync.getD []) ignored _ _ _ :=
        ⟨hguard, hcompared localProfiles, hcompared (infos remote)⟩
      exact hsides.converges_iff

/-- A profile on all three sides, renamed remotely, and one more that is ignored. -/
theorem mergeConverges_renamed :
    MergeConverges [⟨"a", "Work", none, none⟩] (some [⟨⟨"a", "Job", none, none⟩, "1"⟩])
      (some [⟨⟨"a", "Work", none, none⟩, "1"⟩, ⟨⟨"b", "Home", none, none⟩, "2"⟩]) ["b"] := by
  refine (mergeConverges_iff _ _ _ _ (by decide) (by decide) (by decide)).2 ?_
  simp [NoRemovedUpdate, infos, idsOf]

/-- The client removed the profile that was renamed remotely: it is to be updated here and removed
there. -/
theorem not_mergeConverges_removed :
    ¬MergeConverges [] (some [⟨⟨"a", "Job", none, none⟩, "1"⟩])
      (some [⟨⟨"a", "Work", none, none⟩, "1"⟩]) [] := by
  intro h
  exact h.oneSide "a" (by decide) (by decide)

end CodeOss.UserDataSync.Profiles
