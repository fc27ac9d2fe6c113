import CodeOss.Settings.CachedReads

/-! In any order of updates and reads, what a configuration keeps does not show: as long as no
in-memory setting changes under a model that is still kept. -/

namespace CodeOss.Settings

open IConfigurationModel List Function

section Overrides

variable {m m' : IConfigurationModel} {identifier : JsString}

def blocksFor (overrides : List IOverrides) (identifier : JsString) : List IOverrides :=
  overrides.filter fun override => identifier ∈ override.identifiers

section

variable (h : blocksFor m.overrides identifier = blocksFor m'.overrides identifier)
include h

theorem getContents_congr : m.getContentsForOverrideIdentifer identifier =
    m'.getContentsForOverrideIdentifer identifier := by
  have hseveral : ∀ overrides : List IOverrides, (overrides.filter fun override =>
        override.identifiers ≠ [identifier] && identifier ∈ override.identifiers) =
      (blocksFor overrides identifier).filter fun override =>
        override.identifiers ≠ [identifier] := fun overrides => by
    rw [blocksFor, filter_filter]
  have hsingle : ∀ overrides : List IOverrides,
      (overrides.filter fun override => override.identifiers = [identifier]) =
      (blocksFor overrides identifier).filter fun override =>
        override.identifiers = [identifier] := fun overrides => by
    rw [blocksFor, filter_filter]
    refine filter_congr fun override _ => ?_
    by_cases heq : override.identifiers = [identifier]
    · simp [heq]
    · simp [heq]
  rw [getContentsForOverrideIdentifer, getContentsForOverrideIdentifer, hseveral m.overrides,
    hseveral m'.overrides, hsingle m.overrides, hsingle m'.overrides, h]

theorem createOverride_this (hthis : createOverrideConfigurationModel m identifier = some .this) :
    createOverrideConfigurationModel m' identifier = some .this := by
  unfold createOverrideConfigurationModel at hthis ⊢
  rw [← getContents_congr h]
  cases hcontents : m.getContentsForOverrideIdentifer identifier with
  | none => rfl
  | some target =>
    rw [hcontents] at hthis
    simp only at hthis ⊢
    by_cases hkeys : target.keys = []
    · rw [if_pos hkeys]
    · rw [if_neg hkeys, Option.map_eq_some_iff] at hthis
      obtain ⟨_, -, hmodel⟩ := hthis
      cases hmodel

end

variable {overrides : List IOverrides}

theorem blocksFor_setOverride {override : IOverrides} (h : identifier ∉ override.identifiers) :
    blocksFor (setOverride overrides override) identifier = blocksFor overrides identifier := by
  induction overrides with
  | nil => simp [setOverride, blocksFor, h]
  | cons o overrides ih =>
    rw [setOverride]
    split
    · next heq =>
        have ho : identifier ∉ o.identifiers := heq ▸ h
        simp [blocksFor, h, ho]
    · rw [blocksFor, filter_cons, blocksFor, filter_cons]
      rw [blocksFor, blocksFor] at ih
      rw [ih]

theorem blocksFor_removeOverride {identifiers : List JsString}
    (h : identifier ∉ identifiers) (hblock : ∃ o ∈ overrides, o.identifiers = identifiers) :
    blocksFor (removeOverride overrides identifiers) identifier =
    blocksFor overrides identifier := by
  rw [removeOverride]
  cases hindex : overrides.findIdx? fun o => o.identifiers = identifiers with
  | none =>
    obtain ⟨o, ho, heq⟩ := hblock
    have hnone := findIdx?_eq_none_iff.mp hindex o ho
    simp [heq] at hnone
  | some index =>
    obtain ⟨hlt, hfound, -⟩ := findIdx?_eq_some_iff_getElem.mp hindex
    rw [decide_eq_true_eq] at hfound
    simp only
    have hsplit : overrides = overrides.take index ++ overrides[index] ::
        overrides.drop (index + 1) := by
      rw [← drop_eq_getElem_cons hlt, take_append_drop]
    have hremoved : identifier ∉ overrides[index].identifiers := hfound ▸ h
    rw [eraseIdx_eq_take_drop_succ, blocksFor, blocksFor, filter_append]
    conv_rhs => rw [hsplit, filter_append, filter_cons_of_neg (by simpa using hremoved)]

end Overrides

/-- An object that was handed over: what it keeps is what its model makes. -/
abbrev ModelObject := { c : CachedModel // Holds c c.model }

/-- What may happen to a configuration. For an update `frozen` tells which of the objects in
the in-memory model were frozen when they were inspected. -/
inductive Operation (Resource : Type) where
  | updateValue (frozen : List JsString → Bool) (key : JsString) (value : Option Value)
      (resource : Option Resource)
  | updateDefaultConfiguration (c : ModelObject)
  | updatePolicyConfiguration (c : ModelObject)
  | updateApplicationConfiguration (c : ModelObject)
  | updateLocalUserConfiguration (c : ModelObject)
  | updateRemoteUserConfiguration (c : ModelObject)
  | updateWorkspaceConfiguration (c : ModelObject)
  | updateFolderConfiguration (resource : Resource) (c : ModelObject)
  | deleteFolderConfiguration (resource : Resource)
  | getValue (sectionKey : JsString) (overrides : IConfigurationOverrides Resource)
      (workspace : Option (Workspace Resource))
  | inspect (key : JsString) (overrides : IConfigurationOverrides Resource)
      (workspace : Option (Workspace Resource))

variable {Resource : Type} [DecidableEq Resource]

variable (s : Configuration Resource)

def Configuration.apply :
    Operation Resource → Configuration Resource
  | .updateValue frozen key value resource => s.updateValue frozen key value resource
  | .updateDefaultConfiguration c => s.updateDefaultConfiguration c.1
  | .updatePolicyConfiguration c => s.updatePolicyConfiguration c.1
  | .updateApplicationConfiguration c => s.updateApplicationConfiguration c.1
  | .updateLocalUserConfiguration c => s.updateLocalUserConfiguration c.1
  | .updateRemoteUserConfiguration c => s.updateRemoteUserConfiguration c.1
  | .updateWorkspaceConfiguration c => s.updateWorkspaceConfiguration c.1
  | .updateFolderConfiguration resource c => s.updateFolderConfiguration resource c.1
  | .deleteFolderConfiguration resource => s.deleteFolderConfiguration resource
  | .getValue sectionKey overrides workspace => (s.getValue sectionKey overrides workspace).2
  | .inspect key overrides workspace => (s.inspect key overrides workspace).2

def Configuration.models : Models Resource where
  defaults := s.defaultConfiguration.model
  policy := s.policyConfiguration.model
  application := s.applicationConfiguration.model
  localUser := s.localUserConfiguration.model
  remoteUser := s.remoteUserConfiguration.model
  workspace := s.workspaceConfiguration.model
  folders folder := (s.folderConfigurations folder).map CachedModel.model
  memory := s.memoryConfiguration.model
  memoryByResource resource := (s.memoryConfigurationByResource resource).map CachedModel.model

namespace Models

/-- A new configuration over the models. -/
def fresh (m : Models Resource) : Configuration Resource where
  defaultConfiguration := .new m.defaults
  policyConfiguration := .new m.policy
  applicationConfiguration := .new m.application
  localUserConfiguration := .new m.localUser
  remoteUserConfiguration := .new m.remoteUser
  workspaceConfiguration := .new m.workspace
  folderConfigurations folder := (m.folders folder).map CachedModel.new
  memoryConfiguration := .new m.memory
  memoryConfigurationByResource resource := (m.memoryByResource resource).map CachedModel.new
  userConfiguration := none
  workspaceConsolidatedConfiguration := none
  foldersConsolidatedConfigurations _ := none

/-- The models, built from nothing but their contents, keys and overrides. -/
def rebuilt (m : Models Resource) : Models Resource where
  defaults := { m.defaults with raw := none }
  policy := { m.policy with raw := none }
  application := { m.application with raw := none }
  localUser := { m.localUser with raw := none }
  remoteUser := { m.remoteUser with raw := none }
  workspace := { m.workspace with raw := none }
  folders folder := (m.folders folder).map fun model => { model with raw := none }
  memory := { m.memory with raw := none }
  memoryByResource resource :=
    (m.memoryByResource resource).map fun model => { model with raw := none }

end Models

/-- An update leaves the overrides that an in-memory model keeps as they are: it changes nothing,
or for each identifier looked at nothing was overridden, and the update is not about it. -/
def KeepsOverrides (c : CachedModel) (frozen : List JsString → Bool) (key : JsString)
    (value : Option Value) : Prop :=
  (Configuration.updateModel frozen key value c).1.model = c.model ∨
    ∀ identifier e, c.overrideConfigurations.entries identifier = some e → e = .this ∧
      ((overrideGroups key).isSome → identifier ∉ overrideIdentifiersFromKey key ∧
        (value = none → ∃ o ∈ c.model.overrides,
          o.identifiers = overrideIdentifiersFromKey key))

/-- Nothing is kept that an update of the in-memory settings would have to drop. -/
def Keeps : Operation Resource → Prop
  | .updateValue frozen key value none =>
    KeepsOverrides s.memoryConfiguration frozen key value ∧
      ((Configuration.updateModel frozen key value s.memoryConfiguration).1.model =
          s.memoryConfiguration.model ∨
        (∀ folder, s.foldersConsolidatedConfigurations folder = none) ∧
          ((Configuration.updateModel frozen key value s.memoryConfiguration).2 = true →
            s.workspaceConsolidatedConfiguration = none))
  | .updateValue frozen key value (some resource) =>
    ∀ c, s.memoryConfigurationByResource resource = some c →
      KeepsOverrides c frozen key value
  | _ => True

/-- The states after operations that meet the condition. -/
inductive Reaches (s₀ : Configuration Resource) : Configuration Resource → Prop
  | refl : Reaches s₀ s₀
  | apply {s : Configuration Resource} {operation : Operation Resource} (h : Reaches s₀ s)
      (keeps : Keeps s operation) : Reaches s₀ (s.apply operation)

section Laws

variable {s s₀ : Configuration Resource} {m : Models Resource}

omit [DecidableEq Resource] in
theorem Represents.models_eq (h : Represents s m) : s.models = m := by
  have hmap : ∀ {o : Option CachedModel} {o' : Option ConfigurationModel},
      Option.Rel Holds o o' → o.map CachedModel.model = o' := by
    intro o o' hrel
    cases hrel with
    | some hholds => rw [Option.map_some, hholds.model]
    | none => rfl
  obtain ⟨hdefaults, hpolicy, happlication, hlocal, hremote, hworkspace, hfolders, hmemory,
    hresource, -, -, -⟩ := h
  obtain ⟨d, p, a, l, r, w, f, mem, res⟩ := m
  simp only [Configuration.models, hdefaults.model, hpolicy.model, happlication.model, hlocal.model,
    hremote.model, hworkspace.model, hmemory.model, Models.mk.injEq, true_and, funext_iff]
  exact ⟨fun folder => hmap (hfolders folder), fun resource => hmap (hresource resource)⟩

omit [DecidableEq Resource] in
theorem represents_fresh (m : Models Resource) : Represents m.fresh m := by
  have hmap : ∀ o : Option ConfigurationModel, Option.Rel Holds (o.map CachedModel.new) o := by
    intro o
    cases o with
    | none => exact .none
    | some model => exact .some (holds_new model)
  refine
    { defaults := holds_new _
      policy := holds_new _
      application := holds_new _
      localUser := holds_new _
      remoteUser := holds_new _
      workspace := holds_new _
      folders := fun _ => hmap _
      memory := holds_new _
      memoryByResource := fun _ => hmap _
      user := .none
      workspaceConsolidated := fun _ h => ?_
      foldersConsolidated := fun _ _ h => ?_ }
  · cases h
  · cases h

omit [DecidableEq Resource] in
theorem HoldsUser.congr {m' : Models Resource} {user : Option (Option CachedModel)}
    (h : HoldsUser m user) (hlocal : m'.localUser = m.localUser) (huser : m'.user = m.user) :
    HoldsUser m' user := by
  cases h with
  | none => exact .none
  | localUser hsame => exact .localUser (by rw [huser, hsame, hlocal])
  | merged hc => exact .merged (huser ▸ hc)

theorem blocksFor_update {model : IConfigurationModel} {frozen : List JsString → Bool}
    {key : JsString} {value : Option Value} {identifier : JsString}
    (h : (overrideGroups key).isSome → identifier ∉ overrideIdentifiersFromKey key ∧
      (value = none → ∃ o ∈ model.overrides,
        o.identifiers = overrideIdentifiersFromKey key)) :
    blocksFor (match value with
      | none => model.removeValue frozen key
      | some value => model.setValue frozen key value).1.overrides identifier =
      blocksFor model.overrides identifier := by
  cases value with
  | none =>
    simp only [removeValue]
    split
    · cases removeFromValueTree frozen model.contents key with
      | none => rfl
      | some contents =>
        simp only
        split
        · next hgroups =>
            obtain ⟨hnot, hblock⟩ := h hgroups
            exact blocksFor_removeOverride hnot (hblock rfl)
        · rfl
    · rfl
  | some value =>
    simp only [setValue]
    cases addToValueTree frozen model.contents key value with
    | none => rfl
    | some contents =>
      simp only
      split
      · next hgroups =>
          cases hoverride : overrideOf contents key with
          | none => rfl
          | some override =>
            have hidentifiers : override.identifiers = overrideIdentifiersFromKey key := by
              unfold overrideOf at hoverride
              split at hoverride <;> cases hoverride
              rfl
            exact blocksFor_setOverride (hidentifiers ▸ (h hgroups).1)
      · rfl

theorem holds_updateModel {c : CachedModel} {model : ConfigurationModel}
    (h : Holds c model) {frozen : List JsString → Bool} {key : JsString} {value : Option Value}
    (hkeeps : KeepsOverrides c frozen key value) : Holds (Configuration.updateModel
    frozen key value c).1 (Configuration.updateModel frozen key value c).1.model := by
  obtain ⟨rfl, hoverrides, hraw, hrawOverrides⟩ := h
  refine ⟨rfl, ?_, hraw, hrawOverrides⟩
  rcases hkeeps with hsame | hthis
  · rw [hsame]
    exact hoverrides
  · refine Memo.Faithful.congr hoverrides fun identifier hentry => ?_
    obtain ⟨e, he⟩ := Option.ne_none_iff_exists'.mp hentry
    obtain ⟨rfl, hnot⟩ := hthis identifier e he
    have hblocks := @blocksFor_update c.model.toIConfigurationModel frozen key value identifier hnot
    rw [hoverrides identifier .this he]
    exact (createOverride_this hblocks.symm (hoverrides identifier .this he)).symm

theorem Represents.updateValue (h : Represents s s.models) {frozen : List JsString → Bool}
    {key : JsString} {value : Option Value} {resource : Option Resource}
    (hkeeps : Keeps s (.updateValue frozen key value resource)) : Represents
    (s.updateValue frozen key value resource) (s.updateValue frozen key value resource).models := by
  cases resource with
  | some resource =>
    have hkeeps' : KeepsOverrides ((s.memoryConfigurationByResource resource).getD
        (.new createEmptyModel)) frozen key value := by
      cases hc : s.memoryConfigurationByResource resource with
      | none => exact .inr fun _ _ hentry => by cases hentry
      | some c => exact hkeeps c hc
    have hholds : Holds ((s.memoryConfigurationByResource resource).getD
        (.new createEmptyModel)) ((s.memoryConfigurationByResource resource).getD
        (.new createEmptyModel)).model := by
      have hrel := h.memoryByResource resource
      simp only [Configuration.models] at hrel
      cases hc : s.memoryConfigurationByResource resource with
      | none => exact holds_new _
      | some c =>
        rw [hc] at hrel
        cases hrel with
        | some hholds => exact hholds
    refine { h with memoryByResource := fun r => ?_, user := h.user.congr rfl rfl }
    by_cases hr : r = resource
    · subst hr
      simp only [Configuration.updateValue, Configuration.models, update_self]
      exact .some (holds_updateModel hholds hkeeps')
    · simp only [Configuration.updateValue, Configuration.models, update_of_ne hr]
      exact h.memoryByResource r
  | none =>
    obtain ⟨hoverrides, hconsolidated⟩ := hkeeps
    have hmemory := holds_updateModel h.memory hoverrides
    rw [Configuration.updateValue]
    -- the models that are kept are those of the new state
    have hkept : (Configuration.updateModel frozen key value s.memoryConfiguration).1.model =
          s.memoryConfiguration.model → ∀ s' : Configuration Resource,
        s'.models = { s.models with
          memory := (Configuration.updateModel frozen key value s.memoryConfiguration).1.model }
        → s'.models = s.models := fun hsame s' heq => by
      rw [heq, hsame]
      rfl
    split
    · next hthrows =>
        rcases hconsolidated with hsame | ⟨hfolders, hworkspace⟩
        · rw [hkept hsame _ rfl]
          rw [hsame] at hmemory
          exact { h with memory := hmemory }
        · refine
            { h with
              memory := hmemory
              user := h.user.congr rfl rfl
              workspaceConsolidated := fun c hc => ?_
              foldersConsolidated := fun folder c hc => ?_ }
          · simp only [hworkspace hthrows] at hc
            cases hc
          · simp only [hfolders folder] at hc
            cases hc
    · rcases hconsolidated with hsame | ⟨hfolders, -⟩
      · rw [hkept hsame _ rfl]
        rw [hsame] at hmemory
        exact { h with memory := hmemory, workspaceConsolidated := fun c hc => by cases hc }
      · refine
          { h with
            memory := hmemory
            user := h.user.congr rfl rfl
            workspaceConsolidated := fun c hc => ?_
            foldersConsolidated := fun folder c hc => ?_ }
        · cases hc
        · simp only [hfolders folder] at hc
          cases hc

theorem Represents.setFolder (h : Represents s s.models) (resource : Resource) {o : Option
    CachedModel} (ho : Option.Rel Holds o (o.map CachedModel.model)) : Represents { s with
    folderConfigurations := Function.update s.folderConfigurations resource o
    foldersConsolidatedConfigurations :=
          Function.update s.foldersConsolidatedConfigurations resource none }
      (Configuration.models
        { s with
          folderConfigurations := Function.update s.folderConfigurations resource o
          foldersConsolidatedConfigurations :=
            Function.update s.foldersConsolidatedConfigurations resource none }) := by
  refine
    { h with
      user := h.user.congr rfl rfl
      folders := fun folder => ?_
      foldersConsolidated := fun folder c hc => ?_ }
  · simp only [Configuration.models]
    by_cases hf : folder = resource
    · subst hf
      rw [update_self]
      exact ho
    · rw [update_of_ne hf]
      exact h.folders folder
  · by_cases hf : folder = resource
    · subst hf
      simp only [update_self] at hc
      cases hc
    · simp only [update_of_ne hf] at hc
      have hkept := h.foldersConsolidated folder c hc
      simp only [Models.folderConsolidated, Configuration.models, update_of_ne hf]
      exact hkept

theorem Represents.apply (h : Represents s s.models) {operation : Operation Resource}
    (hkeeps : Keeps s operation) : Represents (s.apply operation) (s.apply operation).models := by
  have hread : ∀ {s'}, Represents s' s.models → Represents s' s'.models := fun hs' => by
    rw [hs'.models_eq]
    exact hs'
  cases operation with
  | updateValue frozen key value resource => exact h.updateValue hkeeps
  | updateDefaultConfiguration c =>
    exact { h with
      defaults := c.2
      user := h.user.congr rfl rfl
      workspaceConsolidated := fun _ hc => by cases hc
      foldersConsolidated := fun _ _ hc => by cases hc }
  | updatePolicyConfiguration c =>
    exact { h with policy := c.2, user := h.user.congr rfl rfl }
  | updateApplicationConfiguration c =>
    exact { h with
      application := c.2
      user := h.user.congr rfl rfl
      workspaceConsolidated := fun _ hc => by cases hc
      foldersConsolidated := fun _ _ hc => by cases hc }
  | updateLocalUserConfiguration c =>
    exact { h with
      localUser := c.2
      user := .none
      workspaceConsolidated := fun _ hc => by cases hc
      foldersConsolidated := fun _ _ hc => by cases hc }
  | updateRemoteUserConfiguration c =>
    exact { h with
      remoteUser := c.2
      user := .none
      workspaceConsolidated := fun _ hc => by cases hc
      foldersConsolidated := fun _ _ hc => by cases hc }
  | updateWorkspaceConfiguration c =>
    exact { h with
      workspace := c.2
      user := h.user.congr rfl rfl
      workspaceConsolidated := fun _ hc => by cases hc
      foldersConsolidated := fun _ _ hc => by cases hc }
  | updateFolderConfiguration resource c =>
    exact h.setFolder resource (.some c.2)
  | deleteFolderConfiguration resource => exact h.setFolder resource .none
  | getValue sectionKey overrides workspace =>
    exact hread (h.getValue sectionKey overrides workspace).2
  | inspect key overrides workspace => exact hread (h.inspect key overrides workspace).2

omit [DecidableEq Resource] in
theorem merge_congr {a b : ConfigurationModel} {as bs : List ConfigurationModel}
    (h : a.toIConfigurationModel = b.toIConfigurationModel) (hs : as.map
    ConfigurationModel.toIConfigurationModel = bs.map ConfigurationModel.toIConfigurationModel) :
    (a.merge as).toIConfigurationModel = (b.merge bs).toIConfigurationModel := by
  rw [ConfigurationModel.merge, ConfigurationModel.merge, h, hs]

omit [DecidableEq Resource] in
theorem workspaceConsolidated_rebuilt (m : Models Resource) :
    m.rebuilt.workspaceConsolidated.toIConfigurationModel =
      m.workspaceConsolidated.toIConfigurationModel := by
  have huser : m.rebuilt.user.toIConfigurationModel = m.user.toIConfigurationModel := by
    have hempty : m.rebuilt.remoteUser.isEmpty = m.remoteUser.isEmpty := rfl
    rw [Models.user, Models.user, hempty]
    split
    · rfl
    · exact merge_congr rfl rfl
  refine merge_congr rfl ?_
  simp only [map_cons, huser]
  rfl

omit [DecidableEq Resource] in
theorem value_rebuilt (m : Models Resource) (sectionKey : JsString)
    (overrides : IConfigurationOverrides Resource) (workspace : Option (Workspace Resource)) :
    m.rebuilt.value sectionKey overrides workspace = m.value sectionKey overrides workspace := by
  have hworkspace := workspaceConsolidated_rebuilt m
  have hfolder : ∀ folder, (m.rebuilt.folderConsolidated folder).toIConfigurationModel =
      (m.folderConsolidated folder).toIConfigurationModel := by
    intro folder
    have hfolders : m.rebuilt.folders folder =
        (m.folders folder).map fun model => { model with raw := none } := rfl
    rw [Models.folderConsolidated, Models.folderConsolidated, hfolders]
    cases m.folders folder with
    | none => exact hworkspace
    | some model => exact merge_congr hworkspace rfl
  have hmemory : ∀ (a b : ConfigurationModel) resource,
      a.toIConfigurationModel = b.toIConfigurationModel →
      (m.rebuilt.mergeMemory a resource).toIConfigurationModel =
        (m.mergeMemory b resource).toIConfigurationModel := by
    intro a b resource hab
    have hresource : m.rebuilt.memoryByResource resource =
        (m.memoryByResource resource).map fun model => { model with raw := none } := rfl
    rw [Models.mergeMemory, Models.mergeMemory, hresource]
    cases m.memoryByResource resource with
    | none => exact hab
    | some model => exact merge_congr hab rfl
  have hconsolidated : (m.rebuilt.consolidatedForResource overrides.resource
        workspace).toIConfigurationModel =
      (m.consolidatedForResource overrides.resource workspace).toIConfigurationModel := by
    unfold Models.consolidatedForResource
    cases workspace with
    | none => exact hworkspace
    | some getFolder =>
      cases overrides.resource with
      | none => exact hworkspace
      | some resource =>
        simp only
        cases getFolder resource with
        | none => exact hmemory _ _ resource hworkspace
        | some root => exact hmemory _ _ resource (hfolder root)
  rw [Models.value, Models.value, Models.consolidated, Models.consolidated]
  simp only [hconsolidated]
  rfl

end Laws

structure Layers (Resource : Type) where
  defaultConfiguration : ModelObject
  policyConfiguration : ModelObject
  applicationConfiguration : ModelObject
  localUserConfiguration : ModelObject
  remoteUserConfiguration : ModelObject
  workspaceConfiguration : ModelObject
  folderConfigurations : Resource → Option ModelObject
  memoryConfiguration : ModelObject
  memoryConfigurationByResource : Resource → Option ModelObject

def Configuration.new (l : Layers Resource) : Configuration Resource where
  defaultConfiguration := l.defaultConfiguration.1
  policyConfiguration := l.policyConfiguration.1
  applicationConfiguration := l.applicationConfiguration.1
  localUserConfiguration := l.localUserConfiguration.1
  remoteUserConfiguration := l.remoteUserConfiguration.1
  workspaceConfiguration := l.workspaceConfiguration.1
  folderConfigurations folder := (l.folderConfigurations folder).map Subtype.val
  memoryConfiguration := l.memoryConfiguration.1
  memoryConfigurationByResource resource :=
    (l.memoryConfigurationByResource resource).map Subtype.val
  userConfiguration := none
  workspaceConsolidatedConfiguration := none
  foldersConsolidatedConfigurations _ := none

omit [DecidableEq Resource] in
theorem represents_new (l : Layers Resource) :
    Represents (Configuration.new l) (Configuration.new l).models := by
  have hmap : ∀ o : Option ModelObject,
      Option.Rel Holds (o.map Subtype.val) ((o.map Subtype.val).map CachedModel.model) := by
    intro o
    cases o with
    | none => exact .none
    | some c => exact .some c.2
  refine
    { defaults := l.defaultConfiguration.2
      policy := l.policyConfiguration.2
      application := l.applicationConfiguration.2
      localUser := l.localUserConfiguration.2
      remoteUser := l.remoteUserConfiguration.2
      workspace := l.workspaceConfiguration.2
      folders := fun _ => hmap _
      memory := l.memoryConfiguration.2
      memoryByResource := fun _ => hmap _
      user := .none
      workspaceConsolidated := fun _ h => ?_
      foldersConsolidated := fun _ _ h => ?_ }
  · cases h
  · cases h

def emptyObject : ModelObject := ⟨.new createEmptyModel, holds_new _⟩

/-- A workspace of one folder, which has an empty configuration, as have all other layers. -/
def sampleLayers : Layers Unit where
  defaultConfiguration := emptyObject
  policyConfiguration := emptyObject
  applicationConfiguration := emptyObject
  localUserConfiguration := emptyObject
  remoteUserConfiguration := emptyObject
  workspaceConfiguration := emptyObject
  folderConfigurations _ := some emptyObject
  memoryConfiguration := emptyObject
  memoryConfigurationByResource _ := none

end CodeOss.Settings
