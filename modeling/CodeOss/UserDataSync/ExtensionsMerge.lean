import CodeOss.UserDataSync.Compare

/-! The merge of the extensions of a client with the synced ones. -/

namespace CodeOss.UserDataSync

variable {V : Type}

structure IExtensionIdentifier where
  id : String
  uuid : Option String
  deriving DecidableEq

/-- Local and synced extensions in one record: only a local one always says whether it
is pinned and a pre-release. -/
structure ISyncExtension (V : Type) where
  identifier : IExtensionIdentifier
  version : String
  pinned : Option Bool
  preRelease : Option Bool
  disabled : Option Bool
  installed : Option Bool
  isApplicationScoped : Option Bool
  state : Option (IStringDictionary V)

namespace Extensions

/-- What the merge calls that is not written with it. -/
structure Platform where
  toLowerCase : String → String
  gt : String → String → Bool

def truthy (value : Option Bool) : Bool := value = some true

/-- The uuid, where the code asks whether there is one: an empty string is none. -/
def nonEmpty (uuid : Option String) : Option String := uuid.filter (· ≠ "")

def massageIncomingExtension (extension : ISyncExtension V) : ISyncExtension V :=
  { extension with
    disabled := some (truthy extension.disabled)
    installed := some (truthy extension.installed) }

/-- `key.startsWith('uuid:') ? key.substring('uuid:'.length) : undefined` -/
def uuidOfKey (key : String) : Option String :=
  if key.toList.take 5 = "uuid:".toList then some (String.ofList (key.toList.drop 5)) else none

def massageOutgoingExtension (extension : ISyncExtension V) (key : String) : ISyncExtension V :=
  { extension with
    identifier := { id := extension.identifier.id, uuid := uuidOfKey key }
    -- always set, to tell these entries from those of older clients
    preRelease := some (truthy extension.preRelease)
    pinned := some (truthy extension.pinned)
    disabled := if truthy extension.disabled then extension.disabled else none
    installed := if truthy extension.installed then extension.installed else none
    isApplicationScoped :=
      if truthy extension.isApplicationScoped then extension.isApplicationScoped else none }

section Keys

variable (platform : Platform)

variable (uuids : JsMap String String)

def addUUID (identifier : IExtensionIdentifier) : JsMap String String :=
  match nonEmpty identifier.uuid with
  | some uuid => uuids.set (platform.toLowerCase identifier.id) uuid
  | none => uuids

def uuidsOf (identifiers : List IExtensionIdentifier) : JsMap String String :=
  identifiers.foldl (addUUID platform) .empty

/-- ``uuid ? `uuid:${uuid}` : `id:${id.toLowerCase()}` `` -/
def keyOf (uuid : Option String) (id : String) : String :=
  match nonEmpty uuid with
  | some uuid => "uuid:" ++ uuid
  | none => "id:" ++ platform.toLowerCase id

def getKey (identifier : IExtensionIdentifier) : String :=
  keyOf platform
    ((nonEmpty identifier.uuid).or (uuids.get (platform.toLowerCase identifier.id))) identifier.id

def ignoredKey (id : String) : String :=
  keyOf platform (uuids.get (platform.toLowerCase id)) id

/-- The key of a builtin identifier, whose uuid is replaced only where it is undefined. -/
def builtinKey (identifier : IExtensionIdentifier) : String :=
  keyOf platform (identifier.uuid.or (uuids.get (platform.toLowerCase identifier.id)))
    identifier.id

def toMap (extensions : List (ISyncExtension V)) : JsMap String (ISyncExtension V) :=
  extensions.foldl (fun map extension =>
    map.set (getKey platform uuids extension.identifier) extension) .empty

end Keys

variable [DecidableEq V]

def compareExtensionState (fromState toState : IStringDictionary V) : Comparison :=
  compareWith (fun value1 value2 => decide (value1 = value2)) fromState.keys toState.keys
    fromState.get toState.get

def isSameExtensionState (a b : Option (IStringDictionary V)) : Bool :=
  (compareExtensionState (a.getD .empty) (b.getD .empty)).isEmpty

def areSame (fromExtension toExtension : ISyncExtension V)
    (checkVersionProperty checkInstalledProperty : Bool) : Bool :=
  if fromExtension.disabled ≠ toExtension.disabled then false
  else if truthy fromExtension.isApplicationScoped ≠ truthy toExtension.isApplicationScoped then
    false
  else if checkInstalledProperty && fromExtension.installed ≠ toExtension.installed then false
  else if truthy fromExtension.installed && truthy toExtension.installed &&
      (fromExtension.preRelease ≠ toExtension.preRelease ||
        fromExtension.pinned ≠ toExtension.pinned ||
        (truthy toExtension.pinned && fromExtension.version ≠ toExtension.version)) then false
  else if !isSameExtensionState fromExtension.state toExtension.state then false
  else if checkVersionProperty && fromExtension.version ≠ toExtension.version then false
  else true

/-- `compare`, where a map that is not there has no keys. -/
def compare (fromMap : Option (JsMap String (ISyncExtension V)))
    (toMap : JsMap String (ISyncExtension V)) (ignoredExtensions : List String)
    (checkVersionProperty : Bool) : Comparison :=
  compareWith (fun fromExtension toExtension =>
      areSame fromExtension toExtension checkVersionProperty true)
    ((fromMap.getD .empty).keys.filter fun key => !ignoredExtensions.contains key)
    (toMap.keys.filter fun key => !ignoredExtensions.contains key)
    (fromMap.getD .empty).get toMap.get

/-- `mergedState[key] = remoteState[key]` for a key of the remote state. -/
def copyState (remoteState mergedState : IStringDictionary V) (key : String) :
    IStringDictionary V :=
  match remoteState.get key with
  | some value => mergedState.set key value
  | none => mergedState

/-- The states of two extensions of the same version. -/
def mergeStates (localState remoteState : IStringDictionary V)
    (baseState : Option (IStringDictionary V)) : IStringDictionary V :=
  let baseToRemote := match baseState with
    | some base => compareExtensionState base remoteState
    | none => .allAdded remoteState
  let baseToLocal := match baseState with
    | some base => compareExtensionState base localState
    | none => .allAdded localState
  let withRemote := (baseToRemote.added ++ baseToRemote.updated).foldl (copyState remoteState)
    localState
  baseToRemote.removed.foldl (fun mergedState key =>
    if baseToLocal.updated.contains key then mergedState else mergedState.delete key) withRemote

def mergeExtensionState (platform : Platform) (localExtension remoteExtension : ISyncExtension V)
    (lastSyncExtension : Option (ISyncExtension V)) : Option (IStringDictionary V) :=
  -- a remote extension without a version
  if remoteExtension.version = "" then localExtension.state
  else if localExtension.state.isSome &&
      platform.gt localExtension.version remoteExtension.version then localExtension.state
  else if remoteExtension.state.isSome &&
      platform.gt remoteExtension.version localExtension.version then remoteExtension.state
  else
    match localExtension.state, remoteExtension.state with
    | none, remoteState => remoteState
    | localState, none => localState
    | some localState, some remoteState =>
      some (mergeStates localState remoteState (lastSyncExtension.bind ISyncExtension.state))

structure Sides (V : Type) where
  localExtensions : JsMap String (ISyncExtension V)
  remoteExtensions : JsMap String (ISyncExtension V)
  lastSyncExtensions : Option (JsMap String (ISyncExtension V))
  skippedExtensions : JsMap String (ISyncExtension V)
  ignoredExtensions : List String
  lastSyncBuiltinExtensions : Option (List String)

namespace Sides

def lastSync (sides : Sides V) (key : String) : Option (ISyncExtension V) :=
  sides.lastSyncExtensions.bind fun map => map.get key

/-- `lastSyncBuiltinExtensionsSet && !lastSyncBuiltinExtensionsSet.has(key) && base.installed` -/
def wasInstalledDuringLastSync (sides : Sides V) (key : String)
    (baseExtension : ISyncExtension V) : Bool :=
  match sides.lastSyncBuiltinExtensions with
  | some builtin => !builtin.contains key && truthy baseExtension.installed
  | none => false

end Sides

/-- The pinning of a merged extension, and the version that goes with it. -/
def mergePinned (localExtension remoteExtension preferred : ISyncExtension V) :
    Option Bool × Option String :=
  let source := if truthy localExtension.installed then preferred else remoteExtension
  match source.pinned with
  | some pinned => (some pinned, if pinned then some source.version else none)
  -- from an older client
  | none => (localExtension.pinned,
      if truthy localExtension.pinned then some localExtension.version else none)

def mergeExtension (platform : Platform) (sides : Sides V) (key : String)
    (localExtension remoteExtension preferred : ISyncExtension V) : ISyncExtension V :=
  let (pinned, version) := mergePinned localExtension remoteExtension preferred
  let source := if truthy localExtension.installed then preferred else remoteExtension
  { preferred with
    installed := some (truthy localExtension.installed || truthy remoteExtension.installed)
    pinned
    preRelease := source.preRelease.or localExtension.preRelease
    version := version.getD
      (if remoteExtension.version ≠ "" && (!truthy localExtension.installed ||
          platform.gt remoteExtension.version localExtension.version) then remoteExtension.version
        else localExtension.version)
    state := mergeExtensionState platform localExtension remoteExtension (sides.lastSync key) }

structure LocalChanges (V : Type) where
  added : List (ISyncExtension V)
  removed : List IExtensionIdentifier
  updated : List (ISyncExtension V)

def LocalChanges.none : LocalChanges V := ⟨[], [], []⟩

/-- What the loops write: the local changes and the new remote map. -/
structure Merging (V : Type) extends LocalChanges V where
  newRemoteExtensions : JsMap String (ISyncExtension V)

section Loops

variable (platform : Platform) (sides : Sides V)

namespace Merging

variable (state : Merging V)

def addLocally (extension : ISyncExtension V) (key : String) : Merging V :=
  { state with added := state.added ++ [massageOutgoingExtension extension key] }

def removeLocally (identifier : IExtensionIdentifier) : Merging V :=
  { state with removed := state.removed ++ [identifier] }

def updateLocally (extension : ISyncExtension V) (key : String) : Merging V :=
  { state with updated := state.updated ++ [massageOutgoingExtension extension key] }

def setRemote (key : String) (extension : ISyncExtension V) : Merging V :=
  { state with newRemoteExtensions := state.newRemoteExtensions.set key extension }

def deleteRemote (key : String) : Merging V :=
  { state with newRemoteExtensions := state.newRemoteExtensions.delete key }

end Merging

/-- In the base and not in the remote. -/
def remotelyRemoved (state : Merging V) (key : String) : Merging V :=
  match sides.localExtensions.get key, sides.lastSync key with
  | some localExtension, some baseExtension =>
    if truthy localExtension.installed && sides.wasInstalledDuringLastSync key baseExtension then
      state.removeLocally localExtension.identifier
    else state.setRemote key localExtension
  | _, _ => state

/-- In the remote and not in the base. -/
def remotelyAdded (localToRemote : Comparison) (state : Merging V) (key : String) : Merging V :=
  match sides.remoteExtensions.get key, sides.localExtensions.get key with
  | some remoteExtension, some localExtension =>
    if localToRemote.updated.contains key then
      let mergedExtension := mergeExtension platform sides key localExtension remoteExtension
        remoteExtension
      -- a different installed property alone is no local update
      let updated := if areSame localExtension remoteExtension false false then state
        else state.updateLocally mergedExtension key
      updated.setRemote key mergedExtension
    else state
  | some remoteExtension, none =>
    if truthy remoteExtension.installed then state.addLocally remoteExtension key else state
  | none, _ => state

/-- In the remote and in the base, with a difference. -/
def remotelyUpdated (state : Merging V) (key : String) : Merging V :=
  match sides.remoteExtensions.get key, sides.lastSync key, sides.localExtensions.get key with
  | some remoteExtension, some baseExtension, some localExtension =>
    if sides.wasInstalledDuringLastSync key baseExtension && truthy localExtension.installed &&
        !truthy remoteExtension.installed then
      state.removeLocally localExtension.identifier
    else
      let mergedExtension := mergeExtension platform sides key localExtension remoteExtension
        remoteExtension
      (state.updateLocally mergedExtension key).setRemote key mergedExtension
  | some remoteExtension, some _, none =>
    if truthy remoteExtension.installed then state.addLocally remoteExtension key else state
  | _, _, _ => state

variable (baseToRemote : Comparison)

/-- In the local extensions and not in the base. -/
def locallyAdded (state : Merging V) (key : String) : Merging V :=
  if baseToRemote.added.contains key then state
  else match sides.localExtensions.get key with
    | some localExtension => state.setRemote key localExtension
    | none => state

/-- In the local extensions and in the base, with a difference. -/
def locallyUpdated (state : Merging V) (key : String) : Merging V :=
  if baseToRemote.removed.contains key then state
  else if baseToRemote.updated.contains key then state
  else match sides.localExtensions.get key, sides.remoteExtensions.get key with
    | some localExtension, some remoteExtension =>
      state.setRemote key
        (mergeExtension platform sides key localExtension remoteExtension localExtension)
    | _, _ => state

/-- In the base and not in the local extensions. -/
def locallyRemoved (state : Merging V) (key : String) : Merging V :=
  if baseToRemote.updated.contains key then state
  else if baseToRemote.removed.contains key then state
  else if sides.skippedExtensions.has key then state
  else match sides.remoteExtensions.get key, sides.lastSync key with
    | some remoteExtension, some baseExtension =>
      if !truthy remoteExtension.installed then state
      else if sides.wasInstalledDuringLastSync key baseExtension then state.deleteRemote key
      else state
    | _, _ => state

def mergeSides : Merging V :=
  let start : Merging V := { LocalChanges.none with newRemoteExtensions := sides.remoteExtensions }
  let ignored := sides.ignoredExtensions
  let localToRemote := compare (some sides.localExtensions) sides.remoteExtensions ignored false
  if localToRemote.isEmpty then start
  else
    let baseToLocal := compare sides.lastSyncExtensions sides.localExtensions ignored false
    let baseToRemote := compare sides.lastSyncExtensions sides.remoteExtensions ignored true
    let afterRemoved := baseToRemote.removed.foldl (remotelyRemoved sides) start
    let afterAdded := baseToRemote.added.foldl (remotelyAdded platform sides localToRemote)
      afterRemoved
    let afterUpdated := baseToRemote.updated.foldl (remotelyUpdated platform sides) afterAdded
    let withAdded := baseToLocal.added.foldl (locallyAdded sides baseToRemote) afterUpdated
    let withUpdated := baseToLocal.updated.foldl (locallyUpdated platform sides baseToRemote)
      withAdded
    baseToLocal.removed.foldl (locallyRemoved sides baseToRemote) withUpdated

end Loops

structure RemoteChanges (V : Type) where
  added : List (ISyncExtension V)
  removed : List (ISyncExtension V)
  updated : List (ISyncExtension V)
  all : List (ISyncExtension V)

structure MergeResult (V : Type) where
  localChanges : LocalChanges V
  remoteChanges : Option (RemoteChanges V)

def resultOf (sides : Sides V) (merging : Merging V) : MergeResult V :=
  let newRemote := merging.newRemoteExtensions
  let changes := compare (some sides.remoteExtensions) newRemote [] true
  { localChanges := merging.toLocalChanges
    remoteChanges :=
      if changes.isEmpty then none
      else some
        { added := changes.added.filterMap newRemote.get
          updated := changes.updated.filterMap newRemote.get
          removed := changes.removed.filterMap sides.remoteExtensions.get
          all := newRemote.entries.map fun entry => massageOutgoingExtension entry.2 entry.1 } }

/-- The arguments of `merge` but for the remote extensions. -/
structure Inputs (V : Type) where
  localExtensions : List (ISyncExtension V)
  lastSyncExtensions : Option (List (ISyncExtension V))
  skippedExtensions : List (ISyncExtension V)
  ignoredExtensions : List String
  lastSyncBuiltinExtensions : Option (List IExtensionIdentifier)

namespace Inputs

/-- The identifiers in the order their uuids are collected. -/
def identifiers (inputs : Inputs V) (remoteExtensions : List (ISyncExtension V)) :
    List IExtensionIdentifier :=
  inputs.localExtensions.map (·.identifier) ++ remoteExtensions.map (·.identifier) ++
    (inputs.lastSyncExtensions.getD []).map (·.identifier) ++
    inputs.skippedExtensions.map (·.identifier) ++ inputs.lastSyncBuiltinExtensions.getD []

def uuids (platform : Platform) (inputs : Inputs V) (remoteExtensions : List (ISyncExtension V)) :
    JsMap String String :=
  uuidsOf platform (inputs.identifiers remoteExtensions)

def sides (platform : Platform) (inputs : Inputs V) (remoteExtensions : List (ISyncExtension V)) :
    Sides V :=
  let uuids := inputs.uuids platform remoteExtensions
  { localExtensions := toMap platform uuids (inputs.localExtensions.map massageIncomingExtension)
    remoteExtensions := toMap platform uuids (remoteExtensions.map massageIncomingExtension)
    lastSyncExtensions := inputs.lastSyncExtensions.map fun extensions =>
      toMap platform uuids (extensions.map massageIncomingExtension)
    skippedExtensions := toMap platform uuids inputs.skippedExtensions
    ignoredExtensions := inputs.ignoredExtensions.map (ignoredKey platform uuids)
    lastSyncBuiltinExtensions := inputs.lastSyncBuiltinExtensions.map fun identifiers =>
      identifiers.map (builtinKey platform uuids) }

end Inputs

def merge (platform : Platform) (inputs : Inputs V)
    (remoteExtensions : Option (List (ISyncExtension V))) : MergeResult V :=
  match remoteExtensions with
  | none =>
    let remote := inputs.localExtensions.filter fun extension =>
      inputs.ignoredExtensions.all fun id =>
        platform.toLowerCase id ≠ platform.toLowerCase extension.identifier.id
    { localChanges := .none
      remoteChanges := if 0 < remote.length then some ⟨remote, [], [], remote⟩ else none }
  | some remoteExtensions =>
    let sides := inputs.sides platform remoteExtensions
    resultOf sides (mergeSides platform sides)

end Extensions

end CodeOss.UserDataSync
