import CodeOss.Library.Memo
import CodeOss.Settings.ConfigurationModel

/-! `Configuration`: nine layers of settings, the models that are consolidated from them and
kept, and what is read through them. What throws has no result. -/

namespace CodeOss.Settings

open IConfigurationModel

/-- A model as an object: with the models it made for override identifiers, the raw model it
made, and what that one made. -/
structure CachedModel where
  model : ConfigurationModel
  overrideConfigurations : Memo JsString Overridden
  rawConfiguration : Memo Unit IConfigurationModel
  rawOverrideConfigurations : Memo JsString Overridden

structure InspectValue where
  value : Value
  override : Value
  overrides : List (List JsString × Value)
  merged : Option Value

namespace CachedModel

def new (model : ConfigurationModel) : CachedModel := ⟨model, .empty, .empty, .empty⟩

variable (c : CachedModel)

def override (identifier : JsString) : Option IConfigurationModel × CachedModel :=
  let r := c.overrideConfigurations.read identifier
    (createOverrideConfigurationModel c.model.toIConfigurationModel identifier)
  (r.1.map fun e => e.get c.model.toIConfigurationModel,
    { c with overrideConfigurations := r.2 })

/-- The raw model: the model itself, or one that is made once. -/
def getRawConfiguration : IConfigurationModel × CachedModel :=
  match c.model.raw with
  | none => (c.model.toIConfigurationModel, c)
  | some parts =>
    let r := c.rawConfiguration.fetch () (ConfigurationModel.mergeRaws parts)
    (r.1, { c with rawConfiguration := r.2 })

def overrideRaw (raw : IConfigurationModel) (identifier : JsString) :
    Option IConfigurationModel × CachedModel :=
  match c.model.raw with
  | none => c.override identifier
  | some _ =>
    let r := c.rawOverrideConfigurations.read identifier
      (createOverrideConfigurationModel raw identifier)
    (r.1.map fun e => e.get raw, { c with rawOverrideConfigurations := r.2 })

/-- The getters of `ConfigurationModel.inspect`, read at once. -/
def inspect (key : JsString) (overrideIdentifier : Option JsString) : InspectValue × CachedModel :=
  let (raw, c) := c.getRawConfiguration
  let value := raw.getValue key
  let overrides := (raw.overrides.map fun o =>
    (o.identifiers, IConfigurationModel.getValue ⟨o.contents, o.keys, []⟩ key)).filter
      fun o => o.2 ≠ .undefined
  match overrideIdentifier.filter fun identifier => identifier ≠ [] with
  | none => (⟨value, .undefined, overrides, some value⟩, c)
  | some identifier =>
    let (overridden, c) := c.overrideRaw raw identifier
    (⟨value, raw.getOverrideValue key identifier, overrides,
      overridden.map fun m => m.getValue key⟩, c)

end CachedModel

/-- `_userConfiguration` is `some none` where it is the local user configuration itself. -/
structure Configuration (Resource : Type) where
  defaultConfiguration : CachedModel
  policyConfiguration : CachedModel
  applicationConfiguration : CachedModel
  localUserConfiguration : CachedModel
  remoteUserConfiguration : CachedModel
  workspaceConfiguration : CachedModel
  folderConfigurations : Resource → Option CachedModel
  memoryConfiguration : CachedModel
  memoryConfigurationByResource : Resource → Option CachedModel
  userConfiguration : Option (Option CachedModel)
  workspaceConsolidatedConfiguration : Option CachedModel
  foldersConsolidatedConfigurations : Resource → Option CachedModel

structure IConfigurationOverrides (Resource : Type) where
  overrideIdentifier : Option JsString
  resource : Option Resource

/-- The folder of a resource in a workspace, by its uri. -/
abbrev Workspace (Resource : Type) := Resource → Option Resource

namespace Configuration

variable {Resource : Type} [DecidableEq Resource]

variable (s : Configuration Resource)

def getUserConfiguration : CachedModel × Configuration Resource :=
  match s.userConfiguration with
  | some none => (s.localUserConfiguration, s)
  | some (some user) => (user, s)
  | none =>
    if s.remoteUserConfiguration.model.isEmpty then
      (s.localUserConfiguration, { s with userConfiguration := some none })
    else
      let merged := s.localUserConfiguration.model.merge [s.remoteUserConfiguration.model]
      let user := CachedModel.new { merged with raw := none }
      (user, { s with userConfiguration := some (some user) })

def getWorkspaceConsolidatedConfiguration : CachedModel × Configuration Resource :=
  match s.workspaceConsolidatedConfiguration with
  | some consolidated => (consolidated, s)
  | none =>
    let (user, s) := s.getUserConfiguration
    let consolidated := CachedModel.new (s.defaultConfiguration.model.merge
      [s.applicationConfiguration.model, user.model, s.workspaceConfiguration.model,
        s.memoryConfiguration.model])
    (consolidated, { s with workspaceConsolidatedConfiguration := some consolidated })

/-- Which consolidated model was found: one of those that are kept, or one made for once. -/
inductive Consolidated (Resource : Type) where
  | workspace
  | folder (uri : Resource)
  | merged (m : CachedModel)

def getFolderConsolidatedConfiguration (folder : Resource) :
    CachedModel × Consolidated Resource × Configuration Resource :=
  match s.foldersConsolidatedConfigurations folder with
  | some consolidated => (consolidated, .folder folder, s)
  | none =>
    let (workspaceConsolidated, s) := s.getWorkspaceConsolidatedConfiguration
    match s.folderConfigurations folder with
    | none => (workspaceConsolidated, .workspace, s)
    | some folderConfiguration =>
      let consolidated := CachedModel.new
        (workspaceConsolidated.model.merge [folderConfiguration.model])
      (consolidated, .folder folder,
        { s with
          foldersConsolidatedConfigurations :=
            Function.update s.foldersConsolidatedConfigurations folder (some consolidated) })

/-- The in-memory settings of a resource are merged over the model that was found. -/
def mergeMemory (found : CachedModel × Consolidated Resource × Configuration Resource)
    (resource : Resource) : CachedModel × Consolidated Resource × Configuration Resource :=
  match found.2.2.memoryConfigurationByResource resource with
  | none => found
  | some memory =>
    let merged := CachedModel.new (found.1.model.merge [memory.model])
    (merged, .merged merged, found.2.2)

def getConsolidatedConfigurationModelForResource
    (resource : Option Resource) (workspace : Option (Workspace Resource)) :
    CachedModel × Consolidated Resource × Configuration Resource :=
  let (consolidated, s) := s.getWorkspaceConsolidatedConfiguration
  match workspace, resource with
  | some getFolder, some resource =>
    match getFolder resource with
    | some root => mergeMemory (s.getFolderConsolidatedConfiguration root) resource
    | none => mergeMemory (consolidated, .workspace, s) resource
  | _, _ => (consolidated, .workspace, s)

/-- A consolidated model that is kept has changed what it keeps. -/
def keep (kind : Consolidated Resource) (c : CachedModel) : Configuration Resource :=
  match kind with
  | .workspace => { s with workspaceConsolidatedConfiguration := some c }
  | .folder uri =>
    { s with
      foldersConsolidatedConfigurations :=
        Function.update s.foldersConsolidatedConfigurations uri (some c) }
  | .merged _ => s

/-- The settings of the policy, put into a copy of the model if there is one for the section. -/
def applyPolicy (policy : IConfigurationModel) (sectionKey : JsString)
    (m : IConfigurationModel) : Option IConfigurationModel :=
  if !policy.isEmpty && policy.getValue sectionKey ≠ .undefined then
    policy.keys.foldl (fun m key => m.bind fun m =>
      let r := m.setValue (fun _ => false) key (policy.getValue key)
      if r.2 then none else some r.1) (some m)
  else some m

def getConsolidatedConfigurationModel (sectionKey : JsString)
    (overrides : IConfigurationOverrides Resource) (workspace : Option (Workspace Resource)) :
    Option IConfigurationModel × Configuration Resource :=
  let (consolidated, kind, s) :=
    s.getConsolidatedConfigurationModelForResource overrides.resource workspace
  match overrides.overrideIdentifier.filter fun identifier => identifier ≠ [] with
  | none =>
    (applyPolicy s.policyConfiguration.model.toIConfigurationModel sectionKey
      consolidated.model.toIConfigurationModel, s)
  | some identifier =>
    let (overridden, consolidated) := consolidated.override identifier
    (overridden.bind (applyPolicy s.policyConfiguration.model.toIConfigurationModel sectionKey),
      s.keep kind consolidated)

def getValue (sectionKey : JsString)
    (overrides : IConfigurationOverrides Resource) (workspace : Option (Workspace Resource)) :
    Option Value × Configuration Resource :=
  let (consolidated, s) := s.getConsolidatedConfigurationModel sectionKey overrides workspace
  (consolidated.map fun m => m.getValue sectionKey, s)

/-- What `inspect` tells of all layers. -/
structure ConfigurationInspectValue where
  value : Value
  overrideIdentifiers : List JsString
  default : InspectValue
  policy : Option InspectValue
  application : Option InspectValue
  user : InspectValue
  userLocal : InspectValue
  userRemote : InspectValue
  workspace : Option InspectValue
  workspaceFolder : Option InspectValue
  memory : InspectValue

def overrideIdentifiersOf (m : IConfigurationModel) (key : JsString) : List JsString :=
  distinct ((m.overrides.flatMap IOverrides.identifiers).filter fun identifier =>
    m.getOverrideValue key identifier ≠ .undefined)

def inspectAt (models : Resource → Option CachedModel) (resource : Resource) (key : JsString)
    (overrideIdentifier : Option JsString) :
    Option (InspectValue × (Resource → Option CachedModel)) :=
  (models resource).map fun c =>
    let r := c.inspect key overrideIdentifier
    (r.1, Function.update models resource (some r.2))

section Layers

variable (key : JsString) (overrideIdentifier : Option JsString)

variable (s : Configuration Resource)

def inspectUser : InspectValue × Configuration Resource :=
  let (user, s) := s.getUserConfiguration
  let r := user.inspect key overrideIdentifier
  match s.userConfiguration with
  | some (some _) => (r.1, { s with userConfiguration := some (some r.2) })
  | _ => (r.1, { s with localUserConfiguration := r.2 })

def inspectFolder (resource : Option Resource) (workspace : Option (Workspace Resource)) :
    Option InspectValue × Configuration Resource :=
  match workspace, resource with
  | some getFolder, some resource =>
    match getFolder resource with
    | none => (none, s)
    | some root =>
      match inspectAt s.folderConfigurations root key overrideIdentifier with
      | none => (none, s)
      | some r => (some r.1, { s with folderConfigurations := r.2 })
  | _, _ => (none, s)

def inspectMemory (resource : Option Resource) : InspectValue × Configuration Resource :=
  match resource.bind fun resource =>
      inspectAt s.memoryConfigurationByResource resource key overrideIdentifier with
  | some r => (r.1, { s with memoryConfigurationByResource := r.2 })
  | none =>
    let r := s.memoryConfiguration.inspect key overrideIdentifier
    (r.1, { s with memoryConfiguration := r.2 })

end Layers

def inspect (key : JsString)
    (overrides : IConfigurationOverrides Resource) (workspace : Option (Workspace Resource)) :
    Option ConfigurationInspectValue × Configuration Resource :=
  let (consolidated, s) := s.getConsolidatedConfigurationModel key overrides workspace
  match consolidated with
  | none => (none, s)
  | some m =>
    let identifier := overrides.overrideIdentifier
    let (user, s) := s.inspectUser key identifier
    let default := s.defaultConfiguration.inspect key identifier
    let policy := s.policyConfiguration.inspect key none
    let application := s.applicationConfiguration.inspect key none
    let userLocal := s.localUserConfiguration.inspect key identifier
    let userRemote := s.remoteUserConfiguration.inspect key identifier
    let workspaceValue := s.workspaceConfiguration.inspect key identifier
    let s' :=
      { s with
        defaultConfiguration := default.2
        policyConfiguration :=
          if s.policyConfiguration.model.isEmpty then s.policyConfiguration else policy.2
        applicationConfiguration :=
          if s.applicationConfiguration.model.isEmpty then s.applicationConfiguration
          else application.2
        localUserConfiguration := userLocal.2
        remoteUserConfiguration := userRemote.2
        workspaceConfiguration :=
          if workspace.isSome then workspaceValue.2 else s.workspaceConfiguration }
    let (workspaceFolder, s') := s'.inspectFolder key identifier overrides.resource workspace
    let (memory, s') := s'.inspectMemory key identifier overrides.resource
    (some
      { value := m.getValue key
        overrideIdentifiers := overrideIdentifiersOf m key
        default := default.1
        policy := if s.policyConfiguration.model.isEmpty then none else some policy.1
        application :=
          if s.applicationConfiguration.model.isEmpty then none else some application.1
        user
        userLocal := userLocal.1
        userRemote := userRemote.1
        workspace := if workspace.isSome then some workspaceValue.1 else none
        workspaceFolder
        memory }, s')

/-- `setValue` or `removeValue` of an in-memory model, whose raw contents stay. -/
def updateModel (frozen : List JsString → Bool) (key : JsString) (value : Option Value)
    (c : CachedModel) : CachedModel × Bool :=
  let r :=
    match value with
    | none => c.model.removeValue frozen key
    | some value => c.model.setValue frozen key value
  ({ c with model := { c.model with toIConfigurationModel := r.1 } }, r.2)

/-- Without a resource the consolidated model of the workspace is dropped, unless the update
has thrown. -/
def updateValue (frozen : List JsString → Bool) (key : JsString)
    (value : Option Value) (resource : Option Resource) : Configuration Resource :=
  match resource with
  | some resource =>
    let c := (s.memoryConfigurationByResource resource).getD (.new createEmptyModel)
    { s with
      memoryConfigurationByResource := Function.update s.memoryConfigurationByResource
        resource (some (updateModel frozen key value c).1) }
  | none =>
    let r := updateModel frozen key value s.memoryConfiguration
    if r.2 then { s with memoryConfiguration := r.1 }
    else { s with memoryConfiguration := r.1, workspaceConsolidatedConfiguration := none }

variable (m : CachedModel)

def updateDefaultConfiguration : Configuration Resource :=
  { s with
    defaultConfiguration := m
    workspaceConsolidatedConfiguration := none
    foldersConsolidatedConfigurations := fun _ => none }

def updatePolicyConfiguration : Configuration Resource :=
  { s with policyConfiguration := m }

def updateApplicationConfiguration : Configuration Resource :=
  { s with
    applicationConfiguration := m
    workspaceConsolidatedConfiguration := none
    foldersConsolidatedConfigurations := fun _ => none }

def updateLocalUserConfiguration : Configuration Resource :=
  { s with
    localUserConfiguration := m
    userConfiguration := none
    workspaceConsolidatedConfiguration := none
    foldersConsolidatedConfigurations := fun _ => none }

def updateRemoteUserConfiguration : Configuration Resource :=
  { s with
    remoteUserConfiguration := m
    userConfiguration := none
    workspaceConsolidatedConfiguration := none
    foldersConsolidatedConfigurations := fun _ => none }

def updateWorkspaceConfiguration : Configuration Resource :=
  { s with
    workspaceConfiguration := m
    workspaceConsolidatedConfiguration := none
    foldersConsolidatedConfigurations := fun _ => none }

def updateFolderConfiguration (resource : Resource) (m : CachedModel) : Configuration Resource :=
  { s with
    folderConfigurations := Function.update s.folderConfigurations resource (some m)
    foldersConsolidatedConfigurations :=
      Function.update s.foldersConsolidatedConfigurations resource none }

def deleteFolderConfiguration (resource : Resource) : Configuration Resource :=
  { s with
    folderConfigurations := Function.update s.folderConfigurations resource none
    foldersConsolidatedConfigurations :=
      Function.update s.foldersConsolidatedConfigurations resource none }

end Configuration

end CodeOss.Settings
