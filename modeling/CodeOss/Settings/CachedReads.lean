import CodeOss.Settings.Configuration

/-! Reading through what a configuration keeps gives what its models give: of one model, and of
the models that are consolidated. -/

namespace CodeOss.Settings

open IConfigurationModel Option Function

namespace ConfigurationModel

def overridden (m : IConfigurationModel) (identifier : JsString) : Option IConfigurationModel :=
  (createOverrideConfigurationModel m identifier).map fun e => e.get m

def inspect (m : ConfigurationModel) (key : JsString) (overrideIdentifier : Option JsString) :
    InspectValue :=
  let raw := m.rawConfiguration
  let overrides := (raw.overrides.map fun o =>
    (o.identifiers, IConfigurationModel.getValue ⟨o.contents, o.keys, []⟩ key)).filter
      fun o => o.2 ≠ .undefined
  match overrideIdentifier.filter fun identifier => identifier ≠ [] with
  | none => ⟨raw.getValue key, .undefined, overrides, some (raw.getValue key)⟩
  | some identifier =>
    ⟨raw.getValue key, raw.getOverrideValue key identifier, overrides,
      (overridden raw identifier).map fun m => m.getValue key⟩

end ConfigurationModel

structure Models (Resource : Type) where
  defaults : ConfigurationModel
  policy : ConfigurationModel
  application : ConfigurationModel
  localUser : ConfigurationModel
  remoteUser : ConfigurationModel
  workspace : ConfigurationModel
  folders : Resource → Option ConfigurationModel
  memory : ConfigurationModel
  memoryByResource : Resource → Option ConfigurationModel

namespace Models

variable {Resource : Type} (m : Models Resource)

def user : ConfigurationModel :=
  if m.remoteUser.isEmpty then m.localUser
  else { m.localUser.merge [m.remoteUser] with raw := none }

def workspaceConsolidated : ConfigurationModel :=
  m.defaults.merge [m.application, m.user, m.workspace, m.memory]

def folderConsolidated (folder : Resource) : ConfigurationModel :=
  match m.folders folder with
  | none => m.workspaceConsolidated
  | some folderConfiguration => m.workspaceConsolidated.merge [folderConfiguration]

def mergeMemory (consolidated : ConfigurationModel) (resource : Resource) : ConfigurationModel :=
  match m.memoryByResource resource with
  | none => consolidated
  | some memory => consolidated.merge [memory]

def consolidatedForResource (resource : Option Resource)
    (workspace : Option (Workspace Resource)) : ConfigurationModel :=
  match workspace, resource with
  | some getFolder, some resource =>
    match getFolder resource with
    | some root => m.mergeMemory (m.folderConsolidated root) resource
    | none => m.mergeMemory m.workspaceConsolidated resource
  | _, _ => m.workspaceConsolidated

def consolidated (sectionKey : JsString) (overrides : IConfigurationOverrides Resource)
    (workspace : Option (Workspace Resource)) : Option IConfigurationModel :=
  let consolidated := m.consolidatedForResource overrides.resource workspace
  match overrides.overrideIdentifier.filter fun identifier => identifier ≠ [] with
  | none =>
    Configuration.applyPolicy m.policy.toIConfigurationModel sectionKey
      consolidated.toIConfigurationModel
  | some identifier =>
    (ConfigurationModel.overridden consolidated.toIConfigurationModel identifier).bind
      (Configuration.applyPolicy m.policy.toIConfigurationModel sectionKey)

end Models

/-- An object for the model, which keeps what the model makes and nothing else. -/
structure Holds (c : CachedModel) (m : ConfigurationModel) : Prop where
  model : c.model = m
  overrides : c.overrideConfigurations.Faithful
    (createOverrideConfigurationModel m.toIConfigurationModel)
  raw : ∀ parts, m.raw = some parts →
    c.rawConfiguration.Faithful fun _ => some (ConfigurationModel.mergeRaws parts)
  rawOverrides : ∀ parts, m.raw = some parts → c.rawOverrideConfigurations.Faithful
    (createOverrideConfigurationModel (ConfigurationModel.mergeRaws parts))

theorem holds_new (m : ConfigurationModel) : Holds (.new m) m :=
  ⟨rfl, Memo.faithful_empty, fun _ _ => Memo.faithful_empty, fun _ _ => Memo.faithful_empty⟩

section Model

variable {c : CachedModel} {m : ConfigurationModel}

variable (h : Holds c m)
include h

theorem Holds.override (identifier : JsString) :
    (c.override identifier).1 = ConfigurationModel.overridden m.toIConfigurationModel identifier ∧
    Holds (c.override identifier).2 m := by
  obtain ⟨rfl, hoverrides, hraw, hrawOverrides⟩ := h
  refine ⟨?_, rfl, hoverrides.read_snd, hraw, hrawOverrides⟩
  rw [CachedModel.override]
  simp only [hoverrides.read_fst]
  rfl

theorem Holds.getRawConfiguration :
    c.getRawConfiguration.1 = m.rawConfiguration ∧ Holds c.getRawConfiguration.2 m := by
  obtain ⟨rfl, hoverrides, hraw, hrawOverrides⟩ := h
  rw [CachedModel.getRawConfiguration, ConfigurationModel.rawConfiguration]
  cases hparts : c.model.raw with
  | none => exact ⟨rfl, rfl, hoverrides, hraw, hrawOverrides⟩
  | some parts =>
    obtain ⟨hfst, hsnd⟩ := (hraw parts hparts).fetch (k := ())
    refine ⟨hfst, rfl, hoverrides, fun parts' hparts' => ?_, hrawOverrides⟩
    obtain rfl := some_inj.mp (hparts.symm.trans hparts')
    exact hsnd

theorem Holds.overrideRaw (identifier : JsString) :
    (c.overrideRaw m.rawConfiguration identifier).1 = ConfigurationModel.overridden
    m.rawConfiguration identifier ∧ Holds (c.overrideRaw m.rawConfiguration identifier).2 m := by
  have hself := h.override identifier
  obtain ⟨rfl, hoverrides, hraw, hrawOverrides⟩ := h
  rw [CachedModel.overrideRaw, ConfigurationModel.rawConfiguration]
  cases hparts : c.model.raw with
  | none => exact hself
  | some parts =>
    have hfaithful := hrawOverrides parts hparts
    simp only
    refine ⟨?_, rfl, hoverrides, hraw, fun parts' hparts' => ?_⟩
    · rw [hfaithful.read_fst]
      rfl
    · obtain rfl := some_inj.mp (hparts.symm.trans hparts')
      exact hfaithful.read_snd

theorem Holds.inspect (key : JsString) (overrideIdentifier : Option JsString) :
    (c.inspect key overrideIdentifier).1 = m.inspect key overrideIdentifier ∧
      Holds (c.inspect key overrideIdentifier).2 m := by
  obtain ⟨hraw, hholds⟩ := h.getRawConfiguration
  rw [CachedModel.inspect, ConfigurationModel.inspect]
  simp only [hraw]
  cases overrideIdentifier.filter fun identifier => identifier ≠ [] with
  | none => exact ⟨rfl, hholds⟩
  | some identifier =>
    obtain ⟨hoverride, hholds'⟩ := hholds.overrideRaw identifier
    simp only [hoverride]
    exact ⟨trivial, hholds'⟩

end Model

variable {Resource : Type}

inductive HoldsUser (m : Models Resource) : Option (Option CachedModel) → Prop
  | none : HoldsUser m none
  | localUser (h : m.user = m.localUser) : HoldsUser m (some none)
  | merged {c : CachedModel} (h : Holds c m.user) : HoldsUser m (some (some c))

/-- A configuration for the models, which keeps nothing but what they consolidate to. -/
structure Represents (s : Configuration Resource) (m : Models Resource) : Prop where
  defaults : Holds s.defaultConfiguration m.defaults
  policy : Holds s.policyConfiguration m.policy
  application : Holds s.applicationConfiguration m.application
  localUser : Holds s.localUserConfiguration m.localUser
  remoteUser : Holds s.remoteUserConfiguration m.remoteUser
  workspace : Holds s.workspaceConfiguration m.workspace
  folders : ∀ folder, Option.Rel Holds (s.folderConfigurations folder) (m.folders folder)
  memory : Holds s.memoryConfiguration m.memory
  memoryByResource : ∀ resource,
    Option.Rel Holds (s.memoryConfigurationByResource resource) (m.memoryByResource resource)
  user : HoldsUser m s.userConfiguration
  workspaceConsolidated : ∀ c, s.workspaceConsolidatedConfiguration = some c →
    Holds c m.workspaceConsolidated
  foldersConsolidated : ∀ folder c, s.foldersConsolidatedConfigurations folder = some c →
    m.folders folder ≠ none ∧ Holds c (m.folderConsolidated folder)

variable {s : Configuration Resource} {m : Models Resource}

theorem Represents.getUserConfiguration (h : Represents s m) :
    Holds s.getUserConfiguration.1 m.user ∧ Represents s.getUserConfiguration.2 m := by
  rw [Configuration.getUserConfiguration]
  cases huser : s.userConfiguration with
  | some u =>
    have hholds := h.user
    rw [huser] at hholds
    cases hholds with
    | localUser hsame => exact ⟨hsame ▸ h.localUser, h⟩
    | merged hc => exact ⟨hc, h⟩
  | none =>
    simp only [h.remoteUser.model, h.localUser.model]
    split
    · next hempty =>
        have hsame : m.user = m.localUser := by rw [Models.user, if_pos hempty]
        exact ⟨hsame ▸ h.localUser, { h with user := .localUser hsame }⟩
    · next hempty =>
        have hmerged : m.user = { m.localUser.merge [m.remoteUser] with raw := none } := by
          rw [Models.user, if_neg hempty]
        have hholds : Holds (.new { m.localUser.merge [m.remoteUser] with raw := none })
            m.user := by
          rw [hmerged]
          exact holds_new _
        exact ⟨hholds, { h with user := .merged hholds }⟩

theorem Represents.getWorkspaceConsolidatedConfiguration (h : Represents s m) :
    Holds s.getWorkspaceConsolidatedConfiguration.1 m.workspaceConsolidated ∧
      Represents s.getWorkspaceConsolidatedConfiguration.2 m := by
  rw [Configuration.getWorkspaceConsolidatedConfiguration]
  cases hkept : s.workspaceConsolidatedConfiguration with
  | some c => exact ⟨h.workspaceConsolidated c hkept, h⟩
  | none =>
    obtain ⟨huser, h⟩ := h.getUserConfiguration
    simp only [h.defaults.model, h.application.model, huser.model, h.workspace.model,
      h.memory.model]
    have hholds := holds_new m.workspaceConsolidated
    refine ⟨hholds, { h with workspaceConsolidated := fun c hc => ?_ }⟩
    obtain rfl := some_inj.mp hc
    exact hholds

variable [DecidableEq Resource]

/-- The kind tells where the consolidated model is kept. -/
def KindHolds (m : Models Resource) (model : ConfigurationModel) :
    Configuration.Consolidated Resource → Prop
  | .workspace => model = m.workspaceConsolidated
  | .folder uri => m.folders uri ≠ none ∧ model = m.folderConsolidated uri
  | .merged _ => True

theorem Represents.getFolderConsolidatedConfiguration (h : Represents s m) (folder : Resource) :
    Holds (s.getFolderConsolidatedConfiguration folder).1 (m.folderConsolidated folder) ∧
    KindHolds m (m.folderConsolidated folder) (s.getFolderConsolidatedConfiguration folder).2.1 ∧
    Represents (s.getFolderConsolidatedConfiguration folder).2.2 m := by
  rw [Configuration.getFolderConsolidatedConfiguration]
  cases hkept : s.foldersConsolidatedConfigurations folder with
  | some c =>
    obtain ⟨hne, hholds⟩ := h.foldersConsolidated folder c hkept
    exact ⟨hholds, ⟨hne, rfl⟩, h⟩
  | none =>
    obtain ⟨hworkspace, h⟩ := h.getWorkspaceConsolidatedConfiguration
    simp only
    have hfolder := h.folders folder
    have hconsolidated : m.folderConsolidated folder =
        match m.folders folder with
        | none => m.workspaceConsolidated
        | some folderConfiguration => m.workspaceConsolidated.merge [folderConfiguration] := rfl
    cases hconf : s.getWorkspaceConsolidatedConfiguration.2.folderConfigurations folder with
    | none =>
      rw [hconf] at hfolder
      cases hmodel : m.folders folder with
      | some => rw [hmodel] at hfolder; cases hfolder
      | none =>
        rw [hmodel] at hconsolidated
        exact ⟨hconsolidated ▸ hworkspace, hconsolidated, h⟩
    | some c =>
      rw [hconf] at hfolder
      cases hmodel : m.folders folder with
      | none => rw [hmodel] at hfolder; cases hfolder
      | some model =>
        rw [hmodel] at hconsolidated hfolder
        cases hfolder with
        | some hholds =>
          have hnew := holds_new (m.folderConsolidated folder)
          simp only [hworkspace.model, hholds.model, ← hconsolidated]
          refine ⟨hnew, ⟨by simp [hmodel], rfl⟩,
            { h with foldersConsolidated := fun f c' hc' => ?_ }⟩
          by_cases hf : f = folder
          · subst hf
            simp only [update_self] at hc'
            obtain rfl := some_inj.mp hc'
            exact ⟨by simp [hmodel], hnew⟩
          · simp only [update_of_ne hf] at hc'
            exact h.foldersConsolidated f c' hc'

variable {model : ConfigurationModel}

omit [DecidableEq Resource] in
theorem Represents.mergeMemory
    {found : CachedModel × Configuration.Consolidated Resource × Configuration Resource}
    (hc : Holds found.1 model)
    (hkind : KindHolds m model found.2.1) (h : Represents found.2.2 m) (resource : Resource) :
    Holds (Configuration.mergeMemory found resource).1 (m.mergeMemory model resource) ∧
    KindHolds m (m.mergeMemory model resource) (Configuration.mergeMemory found resource).2.1 ∧
    Represents (Configuration.mergeMemory found resource).2.2 m := by
  have hmemory := h.memoryByResource resource
  rw [Configuration.mergeMemory, Models.mergeMemory]
  revert hmemory
  cases found.2.2.memoryConfigurationByResource resource with
  | none =>
    cases m.memoryByResource resource with
    | none => exact fun _ => ⟨hc, hkind, h⟩
    | some => exact fun hrel => by cases hrel
  | some memory =>
    cases m.memoryByResource resource with
    | none => exact fun hrel => by cases hrel
    | some memoryModel =>
      intro hrel
      cases hrel with
      | some hholds =>
        simp only [hc.model, hholds.model]
        exact ⟨holds_new _, trivial, h⟩

theorem Represents.getConsolidatedConfigurationModelForResource
    (h : Represents s m) (resource : Option Resource) (workspace : Option (Workspace Resource)) :
    Holds (s.getConsolidatedConfigurationModelForResource resource workspace).1
    (m.consolidatedForResource resource workspace) ∧ KindHolds m (m.consolidatedForResource
    resource workspace) (s.getConsolidatedConfigurationModelForResource resource workspace).2.1 ∧
    Represents (s.getConsolidatedConfigurationModelForResource resource workspace).2.2 m := by
  obtain ⟨hworkspace, hs⟩ := h.getWorkspaceConsolidatedConfiguration
  unfold Configuration.getConsolidatedConfigurationModelForResource Models.consolidatedForResource
  cases workspace with
  | none => exact ⟨hworkspace, rfl, hs⟩
  | some getFolder =>
    cases resource with
    | none => exact ⟨hworkspace, rfl, hs⟩
    | some resource =>
      simp only
      have hkind : KindHolds m m.workspaceConsolidated
          (.workspace : Configuration.Consolidated Resource) := rfl
      cases getFolder resource with
      | none => exact Represents.mergeMemory hworkspace hkind hs resource
      | some root =>
        obtain ⟨hc, hkind, hs⟩ := hs.getFolderConsolidatedConfiguration root
        exact Represents.mergeMemory hc hkind hs resource

theorem Represents.keep (h : Represents s m) {c : CachedModel}
    {kind : Configuration.Consolidated Resource} (hc : Holds c model)
    (hkind : KindHolds m model kind) : Represents (s.keep kind c) m := by
  cases kind with
  | workspace =>
    obtain rfl : model = m.workspaceConsolidated := hkind
    refine { h with workspaceConsolidated := fun c' hc' => ?_ }
    obtain rfl := some_inj.mp hc'
    exact hc
  | folder uri =>
    obtain ⟨hne, rfl⟩ := hkind
    refine { h with foldersConsolidated := fun f c' hc' => ?_ }
    by_cases hf : f = uri
    · subst hf
      rw [Configuration.keep] at hc'
      simp only [update_self] at hc'
      obtain rfl := some_inj.mp hc'
      exact ⟨hne, hc⟩
    · rw [Configuration.keep] at hc'
      simp only [update_of_ne hf] at hc'
      exact h.foldersConsolidated f c' hc'
  | merged => exact h

theorem Represents.getConsolidatedConfigurationModel (h : Represents s m) (sectionKey : JsString)
    (overrides : IConfigurationOverrides Resource) (workspace : Option (Workspace Resource)) :
    (s.getConsolidatedConfigurationModel sectionKey overrides workspace).1 =
        m.consolidated sectionKey overrides workspace ∧
      Represents (s.getConsolidatedConfigurationModel sectionKey overrides workspace).2 m := by
  obtain ⟨hc, hkind, hs⟩ :=
    h.getConsolidatedConfigurationModelForResource overrides.resource workspace
  rw [Configuration.getConsolidatedConfigurationModel, Models.consolidated]
  simp only [hs.policy.model, hc.model]
  cases overrides.overrideIdentifier.filter fun identifier => identifier ≠ [] with
  | none => exact ⟨rfl, hs⟩
  | some identifier =>
    obtain ⟨hoverride, hc'⟩ := hc.override identifier
    simp only [hoverride]
    exact ⟨trivial, hs.keep hc' hkind⟩

def Models.value (m : Models Resource) (sectionKey : JsString)
    (overrides : IConfigurationOverrides Resource) (workspace : Option (Workspace Resource)) :
    Option Value :=
  (m.consolidated sectionKey overrides workspace).map fun c => c.getValue sectionKey

theorem Represents.getValue (h : Represents s m) (sectionKey : JsString)
    (overrides : IConfigurationOverrides Resource) (workspace : Option (Workspace Resource)) :
    (s.getValue sectionKey overrides workspace).1 = m.value sectionKey overrides workspace ∧
      Represents (s.getValue sectionKey overrides workspace).2 m := by
  obtain ⟨heq, hs⟩ := h.getConsolidatedConfigurationModel sectionKey overrides workspace
  rw [Configuration.getValue, Models.value]
  simp only [heq]
  exact ⟨trivial, hs⟩

namespace Models

def inspectFolder (m : Models Resource) (key : JsString) (overrideIdentifier : Option JsString)
    (resource : Option Resource) (workspace : Option (Workspace Resource)) :
    Option InspectValue :=
  match workspace, resource with
  | some getFolder, some resource =>
    (getFolder resource).bind fun root =>
      (m.folders root).map fun model => model.inspect key overrideIdentifier
  | _, _ => none

def inspectMemory (m : Models Resource) (key : JsString) (overrideIdentifier : Option JsString)
    (resource : Option Resource) : InspectValue :=
  match resource.bind m.memoryByResource with
  | some model => model.inspect key overrideIdentifier
  | none => m.memory.inspect key overrideIdentifier

def inspect (m : Models Resource) (key : JsString) (overrides : IConfigurationOverrides Resource)
    (workspace : Option (Workspace Resource)) :
    Option Configuration.ConfigurationInspectValue :=
  (m.consolidated key overrides workspace).map fun c =>
    let identifier := overrides.overrideIdentifier
    { value := c.getValue key
      overrideIdentifiers := Configuration.overrideIdentifiersOf c key
      default := m.defaults.inspect key identifier
      policy := if m.policy.isEmpty then none else some (m.policy.inspect key none)
      application :=
        if m.application.isEmpty then none else some (m.application.inspect key none)
      user := m.user.inspect key identifier
      userLocal := m.localUser.inspect key identifier
      userRemote := m.remoteUser.inspect key identifier
      workspace :=
        if workspace.isSome then some (m.workspace.inspect key identifier) else none
      workspaceFolder := m.inspectFolder key identifier overrides.resource workspace
      memory := m.inspectMemory key identifier overrides.resource }

end Models

theorem inspectAt_spec
    {models : Resource → Option CachedModel} {specs : Resource → Option ConfigurationModel}
    (h : ∀ resource, Option.Rel Holds (models resource) (specs resource))
    (resource : Resource) (key : JsString) (overrideIdentifier : Option JsString) :
    (Configuration.inspectAt models resource key overrideIdentifier = none ∧
    specs resource = none) ∨ ∃ model models', specs resource = some model ∧ Configuration.inspectAt
    models resource key overrideIdentifier = some (model.inspect key overrideIdentifier, models') ∧
    ∀ r, Option.Rel Holds (models' r) (specs r) := by
  have hrel := h resource
  rw [Configuration.inspectAt]
  cases hmodel : models resource with
  | none =>
    rw [hmodel] at hrel
    cases hspec : specs resource with
    | none => exact .inl ⟨rfl, rfl⟩
    | some => rw [hspec] at hrel; cases hrel
  | some c =>
    rw [hmodel] at hrel
    cases hspec : specs resource with
    | none => rw [hspec] at hrel; cases hrel
    | some model =>
      rw [hspec] at hrel
      cases hrel with
      | some hholds =>
        obtain ⟨heq, hholds'⟩ := hholds.inspect key overrideIdentifier
        refine .inr ⟨model, _, rfl, by simp only [map_some, heq]; rfl, fun r => ?_⟩
        by_cases hr : r = resource
        · subst hr
          rw [update_self, hspec]
          exact .some hholds'
        · rw [update_of_ne hr]
          exact h r

section Layers

variable (key : JsString) (overrideIdentifier : Option JsString)

omit [DecidableEq Resource] in
theorem getUserConfiguration_kept (s : Configuration Resource) :
    s.getUserConfiguration.2.userConfiguration ≠ none := by
  rw [Configuration.getUserConfiguration]
  cases huser : s.userConfiguration with
  | some u => cases u <;> simp [huser]
  | none =>
    simp only
    split <;> simp

omit [DecidableEq Resource] in
theorem Represents.inspectUser (h : Represents s m) :
    (s.inspectUser key overrideIdentifier).1 = m.user.inspect key overrideIdentifier ∧
      Represents (s.inspectUser key overrideIdentifier).2 m := by
  obtain ⟨huser, hs⟩ := h.getUserConfiguration
  obtain ⟨heq, hholds⟩ := huser.inspect key overrideIdentifier
  have hkept := hs.user
  rw [Configuration.inspectUser]
  simp only
  cases hu : s.getUserConfiguration.2.userConfiguration with
  | none => exact absurd hu (getUserConfiguration_kept s)
  | some u =>
    rw [hu] at hkept
    cases hkept with
    | localUser hsame =>
      exact ⟨heq, { hs with localUser := hsame ▸ hholds, user := .localUser hsame }⟩
    | merged => exact ⟨heq, { hs with user := .merged hholds }⟩

theorem Represents.inspectFolder (h : Represents s m) (resource : Option Resource)
    (workspace : Option (Workspace Resource)) : (s.inspectFolder key overrideIdentifier
    resource workspace).1 = m.inspectFolder key overrideIdentifier resource workspace ∧
    Represents (s.inspectFolder key overrideIdentifier resource workspace).2 m := by
  unfold Configuration.inspectFolder Models.inspectFolder
  cases workspace with
  | none => exact ⟨rfl, h⟩
  | some getFolder =>
    cases resource with
    | none => exact ⟨rfl, h⟩
    | some resource =>
      simp only
      cases getFolder resource with
      | none => exact ⟨rfl, h⟩
      | some root =>
        rcases inspectAt_spec h.folders root key overrideIdentifier with
          ⟨hnone, hspec⟩ | ⟨model, models', hspec, hsome, hfolders⟩
        · simp only [hnone, bind_some, hspec]
          exact ⟨rfl, h⟩
        · simp only [hsome, bind_some, hspec]
          exact ⟨rfl, { h with folders := hfolders }⟩

theorem Represents.inspectMemory (h : Represents s m) (resource : Option Resource) :
    (s.inspectMemory key overrideIdentifier resource).1 = m.inspectMemory key overrideIdentifier
    resource ∧ Represents (s.inspectMemory key overrideIdentifier resource).2 m := by
  obtain ⟨heq, hholds⟩ := h.memory.inspect key overrideIdentifier
  unfold Configuration.inspectMemory Models.inspectMemory
  cases resource with
  | none => exact ⟨heq, { h with memory := hholds }⟩
  | some resource =>
    rcases inspectAt_spec h.memoryByResource resource key overrideIdentifier with
      ⟨hnone, hspec⟩ | ⟨model, models', hspec, hsome, hmemory⟩
    · simp only [bind_some, hnone, hspec]
      exact ⟨heq, { h with memory := hholds }⟩
    · simp only [bind_some, hsome, hspec]
      exact ⟨trivial, { h with memoryByResource := hmemory }⟩

end Layers

theorem Represents.inspect (h : Represents s m) (key : JsString)
    (overrides : IConfigurationOverrides Resource) (workspace : Option (Workspace Resource)) :
    (s.inspect key overrides workspace).1 = m.inspect key overrides workspace ∧
      Represents (s.inspect key overrides workspace).2 m := by
  obtain ⟨heq, hs⟩ := h.getConsolidatedConfigurationModel key overrides workspace
  rw [Configuration.inspect, Models.inspect]
  simp only [heq]
  cases m.consolidated key overrides workspace with
  | none => exact ⟨rfl, hs⟩
  | some c =>
    obtain ⟨huser, hs⟩ := hs.inspectUser key overrides.overrideIdentifier
    generalize ((s.getConsolidatedConfigurationModel key overrides workspace).2.inspectUser key
      overrides.overrideIdentifier) = r at huser hs
    obtain ⟨user, s⟩ := r
    simp only at huser hs ⊢
    subst huser
    obtain ⟨hdefault, hdefault'⟩ := hs.defaults.inspect key overrides.overrideIdentifier
    obtain ⟨hpolicy, hpolicy'⟩ := hs.policy.inspect key none
    obtain ⟨happlication, happlication'⟩ := hs.application.inspect key none
    obtain ⟨hlocal, hlocal'⟩ := hs.localUser.inspect key overrides.overrideIdentifier
    obtain ⟨hremote, hremote'⟩ := hs.remoteUser.inspect key overrides.overrideIdentifier
    obtain ⟨hworkspace, hworkspace'⟩ := hs.workspace.inspect key overrides.overrideIdentifier
    have hs' : Represents
        { s with
          defaultConfiguration :=
            (s.defaultConfiguration.inspect key overrides.overrideIdentifier).2
          policyConfiguration :=
            if s.policyConfiguration.model.isEmpty then s.policyConfiguration
            else (s.policyConfiguration.inspect key none).2
          applicationConfiguration :=
            if s.applicationConfiguration.model.isEmpty then s.applicationConfiguration
            else (s.applicationConfiguration.inspect key none).2
          localUserConfiguration :=
            (s.localUserConfiguration.inspect key overrides.overrideIdentifier).2
          remoteUserConfiguration :=
            (s.remoteUserConfiguration.inspect key overrides.overrideIdentifier).2
          workspaceConfiguration :=
            if workspace.isSome then
              (s.workspaceConfiguration.inspect key overrides.overrideIdentifier).2
            else s.workspaceConfiguration } m :=
      { hs with
        defaults := hdefault'
        policy := by
          simp only
          split
          · exact hs.policy
          · exact hpolicy'
        application := by
          simp only
          split
          · exact hs.application
          · exact happlication'
        localUser := hlocal'
        remoteUser := hremote'
        workspace := by
          simp only
          split
          · exact hworkspace'
          · exact hs.workspace }
    obtain ⟨hfolder, hs'⟩ := hs'.inspectFolder key overrides.overrideIdentifier
      overrides.resource workspace
    obtain ⟨hmemory, hs'⟩ := hs'.inspectMemory key overrides.overrideIdentifier
      overrides.resource
    refine ⟨?_, hs'⟩
    simp only [map_some, hdefault, hpolicy, happlication, hlocal, hremote, hworkspace,
      hs.policy.model, hs.application.model] at hfolder hmemory ⊢
    rw [hfolder, hmemory]

end CodeOss.Settings
