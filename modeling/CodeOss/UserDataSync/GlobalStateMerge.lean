import CodeOss.UserDataSync.Compare

/-! The merge of the global state (UI state entries) of a client with the synced one. -/

namespace CodeOss.UserDataSync

inductive StorageScope
  | APPLICATION
  | PROFILE
  | WORKSPACE
  deriving DecidableEq

structure IStorageValue where
  version : Nat
  value : String
  scope : Option StorageScope
  deriving DecidableEq

def SYNC_SERVICE_URL_TYPE : String := "sync.store.url.type"

structure LocalChanges (α : Type) where
  added : IStringDictionary α
  removed : List String
  updated : IStringDictionary α

namespace LocalChanges

def empty {α : Type} : LocalChanges α := ⟨.empty, [], .empty⟩

def applyTo {α : Type} (changes : LocalChanges α) (target : IStringDictionary α) :
    IStringDictionary α :=
  deleteAll (assign (assign target changes.added) changes.updated) changes.removed

end LocalChanges

namespace GlobalState

structure RemoteChanges where
  added : List String
  removed : List String
  updated : List String
  all : Option (IStringDictionary IStorageValue)

structure MergeResult where
  localChanges : LocalChanges IStorageValue
  remoteChanges : RemoteChanges

structure StorageKeys where
  machine : List String
  unregistered : List String

/-- `compare`, by structural equality. -/
def compare (fromMap toMap : IStringDictionary IStorageValue) : Comparison :=
  compareWith (fun value1 value2 => decide (value1 = value2)) fromMap.keys toMap.keys fromMap.get
    toMap.get

/-- A base that is not there counts every key as added. -/
def compareBase (baseStorage : Option (IStringDictionary IStorageValue))
    (storage : IStringDictionary IStorageValue) : Comparison :=
  match baseStorage with
  | some base => compare base storage
  | none => .allAdded storage

/-- `remote[key] = localStorage[key]`, for a key of the local storage. -/
def copyKey (localStorage remote : IStringDictionary IStorageValue) (key : String) :
    IStringDictionary IStorageValue :=
  match localStorage.get key with
  | some value => remote.set key value
  | none => remote

variable (localStorage remoteStorage : IStringDictionary IStorageValue)

/-- The three loops over the local changes. -/
def mergeIntoRemote
    (isFirstTimeSync : Bool) (baseToLocal baseToRemote : Comparison) (storageKeys : StorageKeys) :
    IStringDictionary IStorageValue :=
  let withAdded := baseToLocal.added.foldl (fun remote key =>
    if key ≠ SYNC_SERVICE_URL_TYPE && isFirstTimeSync && baseToRemote.added.contains key then remote
    else copyKey localStorage remote key) remoteStorage
  let withUpdated := baseToLocal.updated.foldl (copyKey localStorage) withAdded
  baseToLocal.removed.foldl (fun remote key =>
    if storageKeys.unregistered.contains key then remote else remote.delete key) withUpdated

/-- `localValue && localValue.value === remoteValue.value`. -/
def sameText (localValue : Option IStorageValue) (remoteValue : IStorageValue) : Bool :=
  match localValue with
  | some value => decide (value.value = remoteValue.value)
  | none => false

def addRemote (isFirstTimeSync : Bool) (baseToLocal : Comparison) (storageKeys : StorageKeys)
    (changes : LocalChanges IStorageValue) (key : String) : LocalChanges IStorageValue :=
  match remoteStorage.get key with
  | none => changes
  | some remoteValue =>
    if storageKeys.machine.contains key then changes
    -- added on both sides since the last sync
    else if !isFirstTimeSync && baseToLocal.added.contains key then changes
    else if sameText (localStorage.get key) remoteValue then changes
    else if key = SYNC_SERVICE_URL_TYPE && isFirstTimeSync && baseToLocal.added.contains key then
      changes
    else if (localStorage.get key).isSome then
      { changes with updated := changes.updated.set key remoteValue }
    else { changes with added := changes.added.set key remoteValue }

def updateRemote (baseToLocal : Comparison) (storageKeys : StorageKeys)
    (changes : LocalChanges IStorageValue) (key : String) : LocalChanges IStorageValue :=
  match remoteStorage.get key with
  | none => changes
  | some remoteValue =>
    if storageKeys.machine.contains key then changes
    else if baseToLocal.updated.contains key || baseToLocal.removed.contains key then changes
    else if sameText (localStorage.get key) remoteValue then changes
    else { changes with updated := changes.updated.set key remoteValue }

def removeRemote (baseToLocal : Comparison) (storageKeys : StorageKeys)
    (changes : LocalChanges IStorageValue) (key : String) : LocalChanges IStorageValue :=
  if storageKeys.machine.contains key then changes
  else if baseToLocal.updated.contains key || baseToLocal.removed.contains key then changes
  else { changes with removed := changes.removed ++ [key] }

/-- The three loops over the remote changes. -/
def mergeIntoLocal
    (isFirstTimeSync : Bool) (baseToLocal baseToRemote : Comparison) (storageKeys : StorageKeys) :
    LocalChanges IStorageValue :=
  let withAdded := baseToRemote.added.foldl
    (addRemote localStorage remoteStorage isFirstTimeSync baseToLocal storageKeys) .empty
  let withUpdated := baseToRemote.updated.foldl
    (updateRemote localStorage remoteStorage baseToLocal storageKeys) withAdded
  baseToRemote.removed.foldl (removeRemote baseToLocal storageKeys) withUpdated

def merge (localStorage : IStringDictionary IStorageValue)
    (remoteStorage baseStorage : Option (IStringDictionary IStorageValue))
    (storageKeys : StorageKeys) : MergeResult :=
  match remoteStorage with
  | none =>
    { localChanges := .empty
      remoteChanges := { added := localStorage.keys, removed := [], updated := []
                         all := if 0 < localStorage.keys.length then some localStorage else none } }
  | some remoteStorage =>
    if (compare localStorage remoteStorage).isEmpty then
      { localChanges := .empty
        remoteChanges := { added := [], removed := [], updated := [], all := none } }
    else
      let baseToRemote := compareBase baseStorage remoteStorage
      let baseToLocal := compareBase baseStorage localStorage
      let isFirstTimeSync := baseStorage.isNone
      let remote := mergeIntoRemote localStorage remoteStorage isFirstTimeSync baseToLocal
        baseToRemote storageKeys
      let result := compare remoteStorage remote
      { localChanges := mergeIntoLocal localStorage remoteStorage isFirstTimeSync baseToLocal
          baseToRemote storageKeys
        remoteChanges :=
          { added := result.added
            removed := result.removed
            updated := result.updated
            all := if result.isEmpty then none else some remote } }

end GlobalState

end CodeOss.UserDataSync

/-! What the global state merge leaves at each key of the two sides, and that merging
again from there changes nothing more locally. -/

namespace CodeOss.UserDataSync

/-- What a set of local changes says about one key. -/
structure KeyChange (α : Type) where
  added : Option α
  removed : Bool
  updated : Option α

namespace KeyChange

variable {α : Type}

def nothing : KeyChange α := ⟨none, false, none⟩

def apply (change : KeyChange α) (before : Option α) : Option α :=
  if change.removed then none else change.updated.or (change.added.or before)

end KeyChange

namespace LocalChanges

variable {α : Type}

def onKey (changes : LocalChanges α) (key : String) : KeyChange α :=
  ⟨changes.added.get key, changes.removed.contains key, changes.updated.get key⟩

theorem empty_onKey (key : String) : (empty : LocalChanges α).onKey key = .nothing := rfl

theorem get_applyTo (changes : LocalChanges α) (target : IStringDictionary α) (key : String) :
    (changes.applyTo target).get key = (changes.onKey key).apply (target.get key) := by
  simp only [applyTo, get_deleteAll, get_assign, KeyChange.apply, onKey, List.contains_iff_mem]

end LocalChanges

namespace GlobalState

open KeyedFold

variable {localStorage remoteStorage : IStringDictionary IStorageValue}
  {baseStorage : Option (IStringDictionary IStorageValue)} {storageKeys : StorageKeys}

theorem compare_describes (fromMap toMap : IStringDictionary IStorageValue) : (compare fromMap
    toMap).Describes (fun value1 value2 => decide (value1 = value2)) fromMap toMap :=
  compareWith_describes _ fromMap toMap

def baseOf (baseStorage : Option (IStringDictionary IStorageValue)) :
    IStringDictionary IStorageValue :=
  baseStorage.getD .empty

theorem compareBase_describes (baseStorage : Option (IStringDictionary IStorageValue))
    (storage : IStringDictionary IStorageValue) : (compareBase baseStorage storage).Describes
    (fun value1 value2 => decide (value1 = value2)) (baseOf baseStorage) storage := by
  cases baseStorage with
  | none => exact Comparison.describes_allAdded _ storage
  | some base => exact compare_describes base storage

theorem touches_copyKey (localStorage : IStringDictionary IStorageValue) :
    Touches (fun (remote : IStringDictionary IStorageValue) key => remote.get key)
      (copyKey localStorage) (fun key before => (localStorage.get key).or before) := by
  intro remote key k
  simp only [copyKey]
  cases hlocal : localStorage.get key with
  | none => by_cases hk : k = key <;> simp [hk, hlocal]
  | some value => by_cases hk : k = key <;> simp [hk, hlocal, JsMap.get_set]

theorem touches_delete : Touches (fun (remote : IStringDictionary IStorageValue) key => remote.get
    key) JsMap.delete (fun _ _ => none) := by
  intro remote key k
  exact JsMap.get_delete remote key k

variable (isFirstTimeSync : Bool)

/-- What the remote side holds for a key after the merge. -/
def mergedRemote (storageKeys : StorageKeys) (key : String)
    (localValue remoteValue baseValue : Option IStorageValue) : Option IStorageValue :=
  if isFirstTimeSync then
    if localValue.isSome && (key = SYNC_SERVICE_URL_TYPE || remoteValue.isNone) then localValue
    else remoteValue
  else if baseValue = localValue then remoteValue
  else if localValue.isNone && storageKeys.unregistered.contains key then remoteValue
  else localValue

theorem get_mergeIntoRemote (key : String) : (mergeIntoRemote localStorage remoteStorage
    baseStorage.isNone (compareBase baseStorage localStorage) (compareBase baseStorage
    remoteStorage) storageKeys).get key = mergedRemote baseStorage.isNone storageKeys key
    (localStorage.get key) (remoteStorage.get key) ((baseOf baseStorage).get key) := by
  have hlocal := compareBase_describes baseStorage localStorage
  have hremote := compareBase_describes baseStorage remoteStorage
  have hadded := view_foldl ((touches_copyKey localStorage).id fun key =>
    key ≠ SYNC_SERVICE_URL_TYPE && baseStorage.isNone &&
      (compareBase baseStorage remoteStorage).added.contains key) hlocal.added remoteStorage key
  simp only [mergeIntoRemote]
  rw [view_foldl (touches_delete.id _) hlocal.removed,
    view_foldl (touches_copyKey localStorage) hlocal.updated, hadded]
  have hlocalUpdated := hlocal.mem_updated key
  have hremoteAdded := hremote.mem_added key
  simp only [hlocal.mem_added, hlocal.mem_removed, mergedRemote, List.contains_iff_mem]
  cases baseStorage with
  | none =>
    cases hl : localStorage.get key <;> cases hr : remoteStorage.get key <;>
      simp [baseOf, hl, hr, hlocalUpdated, hremoteAdded]
  | some base =>
    cases hl : localStorage.get key <;> cases hr : remoteStorage.get key <;>
      cases hb : base.get key <;> simp [baseOf, hl, hr, hb, hlocalUpdated, hremoteAdded]

theorem touches_addRemote (baseToLocal : Comparison) :
    Touches LocalChanges.onKey
      (addRemote localStorage remoteStorage isFirstTimeSync baseToLocal storageKeys)
      (fun key before =>
        match remoteStorage.get key with
        | none => before
        | some remoteValue =>
          if storageKeys.machine.contains key then before
          else if !isFirstTimeSync && baseToLocal.added.contains key then before
          else if sameText (localStorage.get key) remoteValue then before
          else if key = SYNC_SERVICE_URL_TYPE && isFirstTimeSync && baseToLocal.added.contains key
          then before
          else if (localStorage.get key).isSome then { before with updated := some remoteValue }
          else { before with added := some remoteValue }) := by
  intro changes key k
  simp only [addRemote]
  cases hremote : remoteStorage.get key with
  | none => by_cases hk : k = key <;> simp [hk, hremote]
  | some remoteValue =>
    by_cases hk : k = key
    · subst hk
      simp only [hremote, if_true]
      split_ifs <;> simp [LocalChanges.onKey]
    · simp only [hk, if_false]
      split_ifs <;> simp [LocalChanges.onKey, JsMap.get_set, hk]

theorem touches_updateRemote (baseToLocal : Comparison) :
    Touches LocalChanges.onKey (updateRemote localStorage remoteStorage baseToLocal storageKeys)
      (fun key before =>
        match remoteStorage.get key with
        | none => before
        | some remoteValue =>
          if storageKeys.machine.contains key then before
          else if baseToLocal.updated.contains key || baseToLocal.removed.contains key then before
          else if sameText (localStorage.get key) remoteValue then before
          else { before with updated := some remoteValue }) := by
  intro changes key k
  simp only [updateRemote]
  cases hremote : remoteStorage.get key with
  | none => by_cases hk : k = key <;> simp [hk, hremote]
  | some remoteValue =>
    by_cases hk : k = key
    · subst hk
      simp only [hremote, if_true]
      split_ifs <;> simp [LocalChanges.onKey]
    · simp only [hk, if_false]
      split_ifs <;> simp [LocalChanges.onKey, JsMap.get_set, hk]

theorem touches_removeRemote (baseToLocal : Comparison) : Touches LocalChanges.onKey (removeRemote
    baseToLocal storageKeys) (fun key before => if storageKeys.machine.contains key then before else
    if baseToLocal.updated.contains key || baseToLocal.removed.contains key then before else {
    before with removed := true }) := by
  intro changes key k
  simp only [removeRemote]
  by_cases hk : k = key
  · subst hk
    simp only [if_true]
    split_ifs <;> simp [LocalChanges.onKey]
  · split_ifs <;> simp [LocalChanges.onKey, hk]


/-- What the merge plans for a key of the local side. -/
def plannedLocal (storageKeys : StorageKeys) (key : String)
    (localValue remoteValue baseValue : Option IStorageValue) : KeyChange IStorageValue :=
  if storageKeys.machine.contains key then .nothing
  else if !isFirstTimeSync && decide (baseValue = remoteValue) then .nothing
  else if !isFirstTimeSync && decide (baseValue ≠ localValue) then .nothing
  else
    match localValue, remoteValue with
    | none, none => .nothing
    | none, some value => { KeyChange.nothing with added := some value }
    | some value, some value' =>
      if value.value = value'.value then .nothing
      else if isFirstTimeSync && key = SYNC_SERVICE_URL_TYPE then .nothing
      else { KeyChange.nothing with updated := some value' }
    | some _, none =>
      if isFirstTimeSync then .nothing else { KeyChange.nothing with removed := true }

theorem mergeIntoLocal_onKey (key : String) : (mergeIntoLocal localStorage remoteStorage
    baseStorage.isNone (compareBase baseStorage localStorage) (compareBase baseStorage
    remoteStorage) storageKeys).onKey key = plannedLocal baseStorage.isNone storageKeys key
    (localStorage.get key) (remoteStorage.get key) ((baseOf baseStorage).get key) := by
  have hlocal := compareBase_describes baseStorage localStorage
  have hremote := compareBase_describes baseStorage remoteStorage
  have hlocalAdded := hlocal.mem_added key
  have hlocalUpdated := hlocal.mem_updated key
  have hlocalRemoved := hlocal.mem_removed key
  have hremoteUpdated := hremote.mem_updated key
  simp only [mergeIntoLocal]
  rw [view_foldl (touches_removeRemote _) hremote.removed, view_foldl (touches_updateRemote _)
    hremote.updated, view_foldl (touches_addRemote _ _) hremote.added]
  simp only [hremote.mem_added, hremote.mem_removed, List.contains_iff_mem, plannedLocal,
    LocalChanges.empty_onKey]
  by_cases hmachine : key ∈ storageKeys.machine
  · simp only [hmachine, if_true, ite_self]
    cases remoteStorage.get key <;> simp
  cases baseStorage with
  | none =>
    cases hl : localStorage.get key <;> cases hr : remoteStorage.get key <;>
      simp [baseOf, hl, hr, hlocalAdded, hremoteUpdated, hmachine, sameText]
  | some base =>
    cases hl : localStorage.get key <;> cases hr : remoteStorage.get key <;>
      cases hb : base.get key <;> simp [baseOf, hl, hr, hb, hlocalUpdated, hlocalAdded,
        hlocalRemoved, hremoteUpdated, hmachine, sameText]

namespace MergeResult

variable (result : MergeResult)

/-- The local and the remote side once a result is written. -/
def newLocal (localStorage : IStringDictionary IStorageValue) : IStringDictionary IStorageValue :=
  result.localChanges.applyTo localStorage

def newRemote (remoteStorage : IStringDictionary IStorageValue) : IStringDictionary IStorageValue :=
  result.remoteChanges.all.getD remoteStorage

/-- The keys a result adds, updates or removes remotely. -/
def remoteKeys : List String :=
  result.remoteChanges.added ++ result.remoteChanges.updated ++ result.remoteChanges.removed

end MergeResult

theorem getD_all (remoteStorage remote : IStringDictionary IStorageValue) (key : String) :
    ((if (compare remoteStorage remote).isEmpty then none else some remote).getD
      remoteStorage).get key = remote.get key := by
  split
  · next hempty => exact (compare_describes remoteStorage remote).get_eq_of_isEmpty hempty key
  · rfl

theorem mergedRemote_same (key : String) (value baseValue : Option IStorageValue) :
    mergedRemote isFirstTimeSync storageKeys key value value baseValue = value := by
  simp [mergedRemote]

theorem plannedLocal_same (key : String) (value baseValue : Option IStorageValue) :
    plannedLocal isFirstTimeSync storageKeys key value value baseValue = .nothing := by
  cases value with
  | none => simp [plannedLocal]
  | some value => by_cases hbase : baseValue = some value <;> simp [plannedLocal, hbase]

theorem merge_newRemote (key : String) : ((merge localStorage (some remoteStorage) baseStorage
    storageKeys).newRemote remoteStorage).get key = mergedRemote baseStorage.isNone storageKeys key
    (localStorage.get key) (remoteStorage.get key) ((baseOf baseStorage).get key) := by
  simp only [merge, MergeResult.newRemote]
  split
  · next hempty =>
      rw [(compare_describes localStorage remoteStorage).get_eq_of_isEmpty hempty key,
        mergedRemote_same, Option.getD_none]
  · rw [getD_all, get_mergeIntoRemote]

theorem merge_onKey (key : String) : (merge localStorage (some remoteStorage) baseStorage
    storageKeys).localChanges.onKey key = plannedLocal baseStorage.isNone storageKeys key
    (localStorage.get key) (remoteStorage.get key) ((baseOf baseStorage).get key) := by
  simp only [merge]
  split
  · next hempty =>
      rw [(compare_describes localStorage remoteStorage).get_eq_of_isEmpty hempty key,
        plannedLocal_same, LocalChanges.empty_onKey]
  · exact mergeIntoLocal_onKey key

theorem mem_remoteKeys {key : String}
    (h : key ∈ (merge localStorage (some remoteStorage) baseStorage storageKeys).remoteKeys) :
    ((merge localStorage (some remoteStorage) baseStorage storageKeys).newRemote remoteStorage).get
    key ≠ remoteStorage.get key := by
  simp only [merge, MergeResult.newRemote, MergeResult.remoteKeys] at h ⊢
  split at h
  · simp at h
  · next hdiffer =>
      simp only [hdiffer] at h ⊢
      have hdescribes := compare_describes remoteStorage (mergeIntoRemote localStorage remoteStorage
        baseStorage.isNone (compareBase baseStorage localStorage)
        (compareBase baseStorage remoteStorage) storageKeys)
      simp only [Bool.false_eq_true, if_false, getD_all]
      intro heq
      simp only [List.mem_append, hdescribes.mem_added, hdescribes.mem_updated,
        hdescribes.mem_removed, heq] at h
      rcases h with (⟨hnone, hsome⟩ | ⟨value1, value2, h1, h2, hne⟩) | ⟨hsome, hnone⟩
      · rw [hnone] at hsome
        cases hsome
      · rw [h1] at h2
        obtain rfl := Option.some.inj h2
        simp at hne
      · rw [hnone] at hsome
        cases hsome

theorem all_eq_none
    (h : (merge localStorage (some remoteStorage) baseStorage storageKeys).remoteKeys = []) :
    (merge localStorage (some remoteStorage) baseStorage storageKeys).remoteChanges.all = none := by
  simp only [merge, MergeResult.remoteKeys] at h ⊢
  split at h
  · next hempty => simp [hempty]
  · next hdiffer =>
      simp only [List.append_eq_nil_iff] at h
      have hempty : (compare remoteStorage (mergeIntoRemote localStorage remoteStorage
          baseStorage.isNone (compareBase baseStorage localStorage)
          (compareBase baseStorage remoteStorage) storageKeys)).isEmpty = true := by
        simp [Comparison.isEmpty, h]
      simp only [hdiffer, Bool.false_eq_true, if_false, hempty, if_true]

/-- The three-way rule: a local change goes first, and without a base the remote entry
does, but for the key of the sync service. -/
def carried (key : String)
    (localValue remoteValue baseValue : Option IStorageValue) : Option IStorageValue :=
  if isFirstTimeSync then
    if localValue.isSome && (key = SYNC_SERVICE_URL_TYPE || remoteValue.isNone) then localValue
    else remoteValue
  else if baseValue = localValue then remoteValue
  else localValue

/-- The local side takes over what is carried, except that an entry whose text is
unchanged stays as it is. -/
theorem plannedLocal_apply {key : String}
    (hmachine : key ∉ storageKeys.machine)
    (localValue remoteValue baseValue : Option IStorageValue) :
    let merged := (plannedLocal isFirstTimeSync storageKeys key localValue remoteValue
      baseValue).apply localValue
    let rule := carried isFirstTimeSync key localValue remoteValue baseValue
    merged = rule ∨ (merged = localValue ∧ ∃ value value', localValue = some value ∧
      rule = some value' ∧ value.value = value'.value) := by
  cases isFirstTimeSync with
  | true =>
    cases localValue with
    | none =>
      cases remoteValue <;>
        simp [plannedLocal, carried, hmachine, KeyChange.apply, KeyChange.nothing]
    | some value =>
      cases remoteValue with
      | none => simp [plannedLocal, carried, hmachine, KeyChange.apply, KeyChange.nothing]
      | some value' =>
        by_cases hkey : key = SYNC_SERVICE_URL_TYPE
        · by_cases htext : value.value = value'.value <;>
            simp [plannedLocal, carried, htext, hkey, KeyChange.apply, KeyChange.nothing]
        · by_cases htext : value.value = value'.value <;>
            simp [plannedLocal, carried, hmachine, htext, hkey, KeyChange.apply, KeyChange.nothing]
  | false =>
    by_cases hlocal : baseValue = localValue
    · subst hlocal
      by_cases hremote : baseValue = remoteValue
      · subst hremote
        simp [plannedLocal, carried, hmachine, KeyChange.apply, KeyChange.nothing]
      · cases hb : baseValue <;> cases hr : remoteValue <;>
          simp_all [plannedLocal, carried, KeyChange.apply, KeyChange.nothing]
        split_ifs <;> simp_all
    · refine .inl ?_
      by_cases hremote : baseValue = remoteValue <;>
        simp [plannedLocal, carried, hlocal, KeyChange.apply, KeyChange.nothing]

/-- What a merge achieves: the remote side carries the three-way rule, and the local side
agrees with it but for the version of an entry whose text is the same, and for a
key this client has removed and may not remove remotely. -/
structure Converges (localStorage remoteStorage : IStringDictionary IStorageValue)
    (baseStorage : Option (IStringDictionary IStorageValue)) (storageKeys : StorageKeys)
    (result : MergeResult) : Prop where
  remoteCarries : ∀ key, key ∉ storageKeys.machine → key ∉ storageKeys.unregistered →
    (result.newRemote remoteStorage).get key = carried baseStorage.isNone key
      (localStorage.get key) (remoteStorage.get key) ((baseOf baseStorage).get key)
  agree : ∀ key, key ∉ storageKeys.machine →
    (result.newLocal localStorage).get key = (result.newRemote remoteStorage).get key ∨
      (∃ value value', (result.newLocal localStorage).get key = some value ∧
        localStorage.get key = some value ∧
        (result.newRemote remoteStorage).get key = some value' ∧ value.value = value'.value) ∨
      (key ∈ storageKeys.unregistered ∧ (result.newLocal localStorage).get key = none ∧
        localStorage.get key = none)
  machine : ∀ key ∈ storageKeys.machine, result.localChanges.onKey key = .nothing
  unregistered : ∀ key ∈ storageKeys.unregistered,
    (remoteStorage.get key).isSome → ((result.newRemote remoteStorage).get key).isSome

theorem mergedRemote_eq_carried {key : String} {localValue : Option IStorageValue}
    (hkept : ¬ (localValue = none ∧ key ∈ storageKeys.unregistered))
    (remoteValue baseValue : Option IStorageValue) :
    mergedRemote isFirstTimeSync storageKeys key localValue remoteValue baseValue =
    carried isFirstTimeSync key localValue remoteValue baseValue := by
  by_cases hnone : localValue = none
  · have hkey : key ∉ storageKeys.unregistered := fun hkey => hkept ⟨hnone, hkey⟩
    simp [mergedRemote, carried, hkey]
  · obtain ⟨value, rfl⟩ := Option.ne_none_iff_exists'.1 hnone
    simp [mergedRemote, carried]

theorem plannedLocal_machine {key : String} (hmachine : key ∈ storageKeys.machine)
    (localValue remoteValue baseValue : Option IStorageValue) :
    plannedLocal isFirstTimeSync storageKeys key localValue remoteValue baseValue = .nothing := by
  simp [plannedLocal, hmachine]

theorem merge_converges : Converges localStorage remoteStorage baseStorage storageKeys
    (merge localStorage (some remoteStorage) baseStorage storageKeys) := by
  generalize hresult : merge localStorage (some remoteStorage) baseStorage storageKeys = result
  have hlocal : ∀ key, (result.newLocal localStorage).get key =
      (plannedLocal baseStorage.isNone storageKeys key (localStorage.get key)
        (remoteStorage.get key) ((baseOf baseStorage).get key)).apply (localStorage.get key) :=
    fun key => by rw [← hresult, MergeResult.newLocal, LocalChanges.get_applyTo, merge_onKey]
  have hremote : ∀ key, key ∉ storageKeys.unregistered → (result.newRemote remoteStorage).get key =
      carried baseStorage.isNone key (localStorage.get key) (remoteStorage.get key)
        ((baseOf baseStorage).get key) := fun key hkey => by
    rw [← hresult, merge_newRemote, mergedRemote_eq_carried _ fun hkept => hkey hkept.2]
  refine ⟨fun key _ hkey => hremote key hkey, ?_, ?_, ?_⟩
  · intro key hmachine
    have happly := plannedLocal_apply baseStorage.isNone hmachine (localStorage.get key)
      (remoteStorage.get key) ((baseOf baseStorage).get key)
    rw [hlocal]
    by_cases hkept : localStorage.get key = none ∧ key ∈ storageKeys.unregistered
    · rw [hkept.1] at happly ⊢
      rcases happly with heq | ⟨-, value, -, hvalue, -⟩
      · rw [heq, ← hresult, merge_newRemote, hkept.1]
        cases baseStorage with
        | none => exact .inl (by simp [carried, mergedRemote])
        | some base =>
          by_cases hbase : (baseOf (some base)).get key = none
          · exact .inl (by simp [carried, mergedRemote, hbase])
          · exact .inr (.inr ⟨hkept.2, by simp [carried, hbase], rfl⟩)
      · cases hvalue
    · have hrule : (result.newRemote remoteStorage).get key = carried baseStorage.isNone key
          (localStorage.get key) (remoteStorage.get key) ((baseOf baseStorage).get key) := by
        rw [← hresult, merge_newRemote, mergedRemote_eq_carried _ hkept]
      rw [hrule]
      rcases happly with heq | ⟨hkeep, value, value', hvalue, hvalue', htext⟩
      · exact .inl heq
      · exact .inr (.inl ⟨value, value', hkeep.trans hvalue, hvalue, hvalue', htext⟩)
  · intro key hmachine
    rw [← hresult, merge_onKey, plannedLocal_machine _ hmachine]
  · intro key hkey hsome
    rw [← hresult, merge_newRemote]
    cases baseStorage with
    | none =>
      cases hl : localStorage.get key <;> simp_all [mergedRemote]
      split_ifs <;> simp_all
    | some base =>
      cases hl : localStorage.get key <;> simp_all [mergedRemote]
      split_ifs <;> simp_all

/-- Merging once more, with the new remote side as the base: nothing happens locally, and
remotely only to machine keys and to entries that differ in more than their text. -/
theorem merge_again {result : MergeResult}
    (h : Converges localStorage remoteStorage baseStorage storageKeys result) :
    let newLocal := result.newLocal localStorage
    let newRemote := result.newRemote remoteStorage
    let again := merge newLocal (some newRemote) (some newRemote) storageKeys
    (∀ key, again.localChanges.onKey key = .nothing) ∧
    (∀ key ∈ again.remoteKeys, key ∈ storageKeys.machine ∨ ∃ value value', newLocal.get key = some
      value ∧ newRemote.get key = some value' ∧ value.value = value'.value) ∧
    (again.remoteKeys = [] → again.remoteChanges.all = none) := by
  intro newLocal newRemote again
  refine ⟨fun key => ?_, fun key hkey => ?_, all_eq_none⟩
  · rw [merge_onKey]
    simp [plannedLocal, baseOf]
  · have hchanged := mem_remoteKeys hkey
    rw [merge_newRemote] at hchanged
    by_cases hmachine : key ∈ storageKeys.machine
    · exact .inl hmachine
    · rcases h.agree key hmachine with heq | ⟨value, value', hvalue, -, hvalue', htext⟩ | hkept
      · have hsame : newLocal.get key = newRemote.get key := heq
        simp [mergedRemote, baseOf, hsame] at hchanged
      · exact .inr ⟨value, value', hvalue, hvalue', htext⟩
      · have hnone : newLocal.get key = none := hkept.2.1
        simp [mergedRemote, baseOf, hnone, hkept.1] at hchanged

end GlobalState

end CodeOss.UserDataSync
