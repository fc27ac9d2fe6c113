import CodeOss.UserDataSync.ExtensionsPlan

/-! One key through two merges: when the second one, started from what the first one has
left, has nothing to do for it. -/

namespace CodeOss.UserDataSync.Extensions

variable {V : Type} {platform : Platform}

variable (extension : ISyncExtension V)

def settle (key : String) : ISyncExtension V :=
  massageIncomingExtension (massageOutgoingExtension extension key)

def Massaged : Prop :=
  extension.disabled = some (truthy extension.disabled) ∧
    extension.installed = some (truthy extension.installed)

/-- It says whether it is pinned and a pre-release. -/
def hasFlags : Bool :=
  extension.pinned.isSome && extension.preRelease.isSome

/-- What is on this side: the flags are there, and so is a version. -/
def isLocal : Bool :=
  hasFlags extension && extension.version ≠ ""

theorem truthy_massaged (value : Option Bool) :
    truthy (if truthy value then value else none) = truthy value := by
  by_cases hvalue : truthy value = true
  · rw [if_pos hvalue]
  · rw [if_neg hvalue, eq_false_of_ne_true hvalue]
    rfl

section Settle

variable (extension : ISyncExtension V) (key : String)

@[simp] theorem settle_disabled :
    (settle extension key).disabled = some (truthy extension.disabled) :=
  congrArg some (truthy_massaged _)

@[simp] theorem settle_installed :
    (settle extension key).installed = some (truthy extension.installed) :=
  congrArg some (truthy_massaged _)

@[simp] theorem settle_isApplicationScoped :
    truthy (settle extension key).isApplicationScoped = truthy extension.isApplicationScoped :=
  truthy_massaged _

@[simp] theorem settle_preRelease :
    (settle extension key).preRelease = some (truthy extension.preRelease) := rfl

@[simp] theorem settle_pinned :
    (settle extension key).pinned = some (truthy extension.pinned) := rfl

@[simp] theorem settle_version : (settle extension key).version = extension.version := rfl

@[simp] theorem settle_state : (settle extension key).state = extension.state := rfl

end Settle

@[simp] theorem truthy_some (value : Bool) : truthy (some value) = value := by
  cases value <;> rfl

theorem some_truthy {value : Option Bool} (h : value.isSome = true) :
    some (truthy value) = value := by
  obtain ⟨b, rfl⟩ := Option.isSome_iff_exists.1 h
  rw [truthy_some]

/-- What stands in the remote list for an entry of the new remote map. -/
structure Stored (stored entry : ISyncExtension V) : Prop where
  disabled : stored.disabled = entry.disabled
  isApplicationScoped : truthy stored.isApplicationScoped = truthy entry.isApplicationScoped
  installed : stored.installed = entry.installed
  state : SameState stored.state entry.state
  version : stored.version = entry.version
  flags : truthy entry.installed = true →
    stored.preRelease = some (truthy entry.preRelease) ∧
      stored.pinned = some (truthy entry.pinned)

variable {entry localExtension : ISyncExtension V}

theorem stored_settle (h : Massaged entry) (key : String) : Stored (settle entry key) entry where
  disabled := by rw [settle_disabled, ← h.1]
  isApplicationScoped := settle_isApplicationScoped entry key
  installed := by rw [settle_installed, ← h.2]
  state := .refl _
  version := rfl
  flags _ := ⟨rfl, rfl⟩

variable [DecidableEq V]

theorem stored_of_areSame {stored : ISyncExtension V}
    (hsame : areSame stored entry true true = true)
    (hflags : truthy stored.installed = true → hasFlags stored = true) : Stored stored entry := by
  obtain ⟨hdisabled, hscoped, hinstalled, hboth, hstate, hversion⟩ := areSame_iff.1 hsame
  refine ⟨hdisabled, hscoped, hinstalled rfl, hstate, hversion rfl, fun h => ?_⟩
  have hstored : truthy stored.installed = true := by rw [hinstalled rfl]; exact h
  obtain ⟨hpre, hpinned, -⟩ := hboth hstored h
  have hflags := hflags hstored
  simp only [hasFlags, Bool.and_eq_true] at hflags
  rw [← hpre, ← hpinned, some_truthy hflags.1, some_truthy hflags.2]
  exact ⟨rfl, rfl⟩

theorem areSame_stored {stored : ISyncExtension V} (hstored : Stored stored entry)
    (hlocal : hasFlags localExtension = true)
    (hsame : areSame entry localExtension false true = true) :
    areSame stored localExtension false true = true := by
  obtain ⟨hdisabled, hscoped, hinstalled, hboth, hstate, -⟩ := areSame_iff.1 hsame
  simp only [hasFlags, Bool.and_eq_true] at hlocal
  rw [areSame_iff]
  refine ⟨hstored.disabled.trans hdisabled, hstored.isApplicationScoped.trans hscoped,
    fun _ => hstored.installed.trans (hinstalled rfl), fun h h' => ?_,
    hstored.state.trans hstate, fun h => by cases h⟩
  rw [hstored.installed] at h
  obtain ⟨hpre, hpinned, hversion⟩ := hboth h h'
  rw [(hstored.flags h).1, (hstored.flags h).2, hpre, hpinned, some_truthy hlocal.1,
    some_truthy hlocal.2, hstored.version]
  exact ⟨rfl, rfl, hversion⟩

theorem areSame_settle {stored : ISyncExtension V} (hstored : Stored stored entry)
    (hmassaged : Massaged entry) (key : String) :
    areSame stored (settle entry key) false true = true := by
  have hsettled := stored_settle hmassaged key
  rw [areSame_iff]
  refine ⟨hstored.disabled.trans hsettled.disabled.symm,
    hstored.isApplicationScoped.trans hsettled.isApplicationScoped.symm,
    fun _ => hstored.installed.trans hsettled.installed.symm, fun h _ => ?_,
    hstored.state.trans hsettled.state.symm, fun h => by cases h⟩
  rw [hstored.installed] at h
  exact ⟨(hstored.flags h).1, (hstored.flags h).2, fun _ => hstored.version⟩

section Merged

variable (platform : Platform) (sides : Sides V) (key : String)
  {localExtension remoteExtension : ISyncExtension V} (preferred : ISyncExtension V)

theorem mergeExtension_version (source : ISyncExtension V)
    (hsource : (if truthy localExtension.installed then preferred else remoteExtension) = source) :
    (mergeExtension platform sides key localExtension remoteExtension preferred).version =
      if source.pinned = some true then source.version
      else if source.pinned = none ∧ truthy localExtension.pinned = true then
        localExtension.version
      else if remoteExtension.version ≠ "" && (!truthy localExtension.installed ||
          platform.gt remoteExtension.version localExtension.version) then remoteExtension.version
      else localExtension.version := by
  simp only [mergeExtension, mergePinned, hsource]
  cases hpinned : source.pinned with
  | none => cases truthy localExtension.pinned <;> simp
  | some pinned => cases pinned <;> simp

theorem mergeExtension_preRelease (source : ISyncExtension V)
    (hsource : (if truthy localExtension.installed then preferred else remoteExtension) = source) :
    (mergeExtension platform sides key localExtension remoteExtension preferred).preRelease =
      source.preRelease.or localExtension.preRelease := by
  rw [← hsource]
  rfl

theorem mergeExtension_state_same (h : SameState ((sides.lastSync key).bind ISyncExtension.state)
    remoteExtension.state ∨ SameState localExtension.state remoteExtension.state) :
    SameState (mergeExtension platform sides key localExtension remoteExtension preferred).state
    (preferredState platform localExtension remoteExtension) :=
  mergeExtensionState_same platform h

end Merged

section Again

variable {sides : Sides V} {key : String} {localExtension remoteExtension : ISyncExtension V}

theorem again_installed (hinstalled : truthy localExtension.installed = true)
    (hlocal : isLocal localExtension = true)
    (hbase : sides.lastSync key = some remoteExtension)
    (hdisabled : remoteExtension.disabled = localExtension.disabled)
    (hscoped : truthy remoteExtension.isApplicationScoped =
      truthy localExtension.isApplicationScoped)
    (hremote : remoteExtension.installed = some true)
    (hpre : remoteExtension.preRelease = localExtension.preRelease)
    (hpinned : remoteExtension.pinned = localExtension.pinned)
    (hversion : remoteExtension.version = localExtension.version ∨
      (truthy localExtension.pinned = false ∧ remoteExtension.version ≠ "" ∧
        platform.gt remoteExtension.version localExtension.version = true))
    (hstate : SameState remoteExtension.state
      (preferredState platform localExtension remoteExtension)) :
    areSame remoteExtension (mergeExtension platform sides key localExtension remoteExtension
      localExtension) true true = true := by
  have hsource : (if truthy localExtension.installed then localExtension else remoteExtension) =
      localExtension := by rw [hinstalled]; rfl
  simp only [isLocal, hasFlags, Bool.and_eq_true] at hlocal
  obtain ⟨pinned, hp⟩ := Option.isSome_iff_exists.1 hlocal.1.1
  have hsameVersion : remoteExtension.version = (mergeExtension platform sides key localExtension
      remoteExtension localExtension).version := by
    rw [mergeExtension_version _ _ _ _ localExtension hsource, hp]
    rcases hversion with heq | ⟨hunpinned, hne, hgt⟩
    · cases pinned <;> simp [heq]
    · rw [hp, truthy_some] at hunpinned
      subst hunpinned
      simp [hne, hgt]
  rw [areSame_iff]
  refine ⟨hdisabled, hscoped, fun _ => ?_, fun _ _ => ⟨?_, ?_, fun _ => hsameVersion⟩, ?_,
    fun _ => hsameVersion⟩
  · rw [hremote]
    simp [mergeExtension, hinstalled]
  · rw [mergeExtension_preRelease _ _ _ _ localExtension hsource, hpre]
    simp
  · rw [mergeExtension_pinned, hsource, hpinned]
    simp
  · refine hstate.trans (mergeExtension_state_same _ _ _ _ (.inl ?_)).symm
    rw [hbase]
    exact .refl _

theorem again_not_installed (hinstalled : truthy localExtension.installed = false)
    (hflags : hasFlags remoteExtension = true)
    (hbase : sides.lastSync key = some remoteExtension)
    (hdisabled : remoteExtension.disabled = localExtension.disabled)
    (hscoped : truthy remoteExtension.isApplicationScoped =
      truthy localExtension.isApplicationScoped)
    (hremote : Massaged remoteExtension)
    (hversion : truthy remoteExtension.pinned = false → remoteExtension.version ≠ "")
    (hstate : SameState remoteExtension.state
      (preferredState platform localExtension remoteExtension)) :
    areSame remoteExtension (mergeExtension platform sides key localExtension remoteExtension
      localExtension) true true = true := by
  have hsource : (if truthy localExtension.installed then localExtension else remoteExtension) =
      remoteExtension := by rw [hinstalled]; rfl
  simp only [hasFlags, Bool.and_eq_true] at hflags
  obtain ⟨pinned, hp⟩ := Option.isSome_iff_exists.1 hflags.1
  obtain ⟨pre, hpre⟩ := Option.isSome_iff_exists.1 hflags.2
  have hsameVersion : remoteExtension.version = (mergeExtension platform sides key localExtension
      remoteExtension localExtension).version := by
    rw [mergeExtension_version _ _ _ _ remoteExtension hsource, hp]
    rw [hp, truthy_some] at hversion
    cases pinned <;> simp [hinstalled, hversion]
  rw [areSame_iff]
  refine ⟨hdisabled, hscoped, fun _ => ?_, fun _ _ => ⟨?_, ?_, fun _ => hsameVersion⟩, ?_,
    fun _ => hsameVersion⟩
  · rw [hremote.2]
    simp [mergeExtension, hinstalled]
  · rw [mergeExtension_preRelease _ _ _ _ remoteExtension hsource, hpre]
    simp
  · rw [mergeExtension_pinned, hsource, hp]
    simp
  · refine hstate.trans (mergeExtension_state_same _ _ _ _ (.inl ?_)).symm
    rw [hbase]
    exact .refl _

theorem state_settles {base : Option (ISyncExtension V)} {stored : ISyncExtension V}
    (hasymm : ∀ a b, platform.gt a b = true → platform.gt b a = false)
    (hlocal : localExtension.version ≠ "")
    (hbase : SameState (base.bind ISyncExtension.state) remoteExtension.state ∨
      SameState localExtension.state remoteExtension.state)
    (hstate : stored.state = mergeExtensionState platform localExtension remoteExtension base)
    (hversion : stored.version = remoteExtension.version ∨
      stored.version = localExtension.version)
    (htaken : remoteExtension.version ≠ "" → localExtension.state.isSome = true →
      remoteExtension.state.isSome = true →
      platform.gt remoteExtension.version localExtension.version = true →
      ¬ SameState localExtension.state remoteExtension.state →
      stored.version = remoteExtension.version) :
    SameState stored.state (preferredState platform localExtension stored) := by
  by_cases hsame : SameState stored.state localExtension.state
  · exact hsame.trans (preferredState_same hsame.symm).symm
  · have hpreferred := mergeExtensionState_same platform hbase
    rw [← hstate] at hpreferred
    rw [mergeExtensionState] at hstate
    rw [preferredState] at hpreferred
    by_cases hempty : remoteExtension.version = ""
    · rw [if_pos hempty] at hstate
      exact absurd (hstate ▸ .refl _) hsame
    rw [if_neg hempty] at hstate hpreferred
    have hne : stored.version ≠ "" := by
      rcases hversion with h | h <;> rw [h]
      · exact hempty
      · exact hlocal
    by_cases hnewer : (localExtension.state.isSome && platform.gt localExtension.version
        remoteExtension.version) = true
    · rw [if_pos hnewer] at hstate
      exact absurd (hstate ▸ .refl _) hsame
    rw [if_neg hnewer] at hstate hpreferred
    rw [preferredState, if_neg hne]
    cases hlocalState : localExtension.state with
    | none =>
      rw [if_neg (by simp)]
      split
      · exact .refl _
      · rw [Option.none_or]
        exact .refl _
    | some localState =>
      by_cases hremoteNewer : (remoteExtension.state.isSome &&
          platform.gt remoteExtension.version localExtension.version) = true
      · rw [if_pos hremoteNewer] at hstate
        obtain ⟨hsome, hgt⟩ := (Bool.and_eq_true _ _).mp hremoteNewer
        rw [hstate] at hsame ⊢
        have hstored := htaken hempty (by rw [hlocalState]; rfl) hsome hgt
          fun h => hsame h.symm
        rw [hstored, hasymm _ _ hgt, hgt, hsome]
        simp only [Bool.and_false, Bool.false_eq_true, if_false, Bool.and_self, if_true]
        exact .refl _
      · rw [if_neg hremoteNewer, hlocalState, Option.some_or, ← hlocalState] at hpreferred
        exact absurd hpreferred hsame

end Again

/-- An extension installed here and known as builtin remotely, with flags that only the
remote side is given: the local one is not updated to them. -/
def flagsNotTaken (localExtension remoteExtension : ISyncExtension V) : Bool :=
  truthy localExtension.installed && !truthy remoteExtension.installed &&
    areSame localExtension remoteExtension false false &&
    ((remoteExtension.preRelease.isSome &&
        remoteExtension.preRelease ≠ localExtension.preRelease) ||
      (remoteExtension.pinned.isSome && remoteExtension.pinned ≠ localExtension.pinned) ||
      (truthy remoteExtension.pinned && remoteExtension.version ≠ localExtension.version))

/-- An extension pinned here to an older version, with the state of the newer remote one:
the remote state is stored under the local version, and the local one is not updated. -/
def stateNotTaken (platform : Platform) (localExtension remoteExtension baseExtension :
    ISyncExtension V) : Bool :=
  areSame baseExtension remoteExtension true true && remoteExtension.version ≠ "" &&
    platform.gt remoteExtension.version localExtension.version &&
    localExtension.state.isSome && remoteExtension.state.isSome &&
    !isSameExtensionState localExtension.state remoteExtension.state &&
    truthy localExtension.pinned &&
    (truthy localExtension.installed || remoteExtension.pinned.isNone)

def overlooked (platform : Platform) (localExtension remoteExtension : ISyncExtension V)
    (baseExtension : Option (ISyncExtension V)) : Bool :=
  match baseExtension with
  | none => flagsNotTaken localExtension remoteExtension
  | some baseExtension => stateNotTaken platform localExtension remoteExtension baseExtension

/-- A merge whose base is the remote side has nothing to do for the key. -/
def Quiet (platform : Platform) (sides : Sides V) (key : String) : Prop :=
  match sides.localExtensions.get key, sides.remoteExtensions.get key with
  | none, none => True
  | some _, none => False
  | none, some remoteExtension => sides.skippedExtensions.has key = true ∨
      truthy remoteExtension.installed = false ∨
      sides.wasInstalledDuringLastSync key remoteExtension = false
  | some localExtension, some remoteExtension =>
    areSame remoteExtension localExtension false true = true ∨
    areSame remoteExtension (mergeExtension platform sides key localExtension remoteExtension
      localExtension) true true = true

def KeyPlan.localAfter (plan : KeyPlan V) (key : String) (before : Option (ISyncExtension V)) :
    Option (ISyncExtension V) :=
  (plan.added.map (settle · key)).or
    ((plan.updated.map (settle · key)).or (if plan.removed.isSome then none else before))

def KeyPlan.remoteAfter (plan : KeyPlan V) (before : Option (ISyncExtension V)) :
    Option (ISyncExtension V) :=
  match plan.remote with
  | .keep => before
  | .set extension => some extension
  | .delete => none

def unchangedRemotely (before after : Option (ISyncExtension V)) : Prop :=
  match before, after with
  | none, none => True
  | some before, some after => areSame before after true true = true
  | _, _ => False

/-- `next` has at `key₂` what the merge of `sides` has left at `key`. -/
structure Succeeds (platform : Platform) (sides next : Sides V) (key key₂ : String) : Prop where
  localAfter : next.localExtensions.get key₂ =
    (planned platform sides key).localAfter key (sides.localExtensions.get key)
  remoteAfter :
    next.remoteExtensions.get key₂ =
        ((planned platform sides key).remoteAfter (sides.remoteExtensions.get key)).map
          (settle · key) ∨
      (next.remoteExtensions.get key₂ = sides.remoteExtensions.get key ∧
        unchangedRemotely (sides.remoteExtensions.get key)
          ((planned platform sides key).remoteAfter (sides.remoteExtensions.get key)) ∧
        ∀ e, sides.remoteExtensions.get key = some e → truthy e.installed = true →
          hasFlags e = true)
  lastSync : next.lastSync key₂ = next.remoteExtensions.get key₂
  skipped : sides.skippedExtensions.has key = true → next.skippedExtensions.has key₂ = true
  wasInstalled : ∀ e, next.wasInstalledDuringLastSync key₂ e = true →
    sides.wasInstalledDuringLastSync key e = true

theorem areSame_symm {a b : ISyncExtension V} {checkVersion checkInstalled : Bool}
    (h : areSame a b checkVersion checkInstalled = true) :
    areSame b a checkVersion checkInstalled = true := by
  obtain ⟨hdisabled, hscoped, hinstalled, hboth, hstate, hversion⟩ := areSame_iff.1 h
  rw [areSame_iff]
  refine ⟨hdisabled.symm, hscoped.symm, fun hc => (hinstalled hc).symm, fun hb ha => ?_,
    hstate.symm, fun hc => (hversion hc).symm⟩
  obtain ⟨hpre, hpinned, hboth⟩ := hboth ha hb
  exact ⟨hpre.symm, hpinned.symm, fun hp => (hboth (hpinned ▸ hp)).symm⟩

theorem areSame_of_installed {a b : ISyncExtension V} {checkVersion : Bool}
    (h : areSame a b checkVersion false = true) (hinstalled : a.installed = b.installed) :
    areSame a b checkVersion true = true := by
  obtain ⟨hdisabled, hscoped, -, hrest⟩ := areSame_iff.1 h
  exact areSame_iff.2 ⟨hdisabled, hscoped, fun _ => hinstalled, hrest⟩

theorem areSame_of_base {base remoteExtension : ISyncExtension V}
    (hremote : areSame base remoteExtension true true = true)
    (hlocal : areSame base localExtension false true = true) :
    areSame remoteExtension localExtension false true = true := by
  obtain ⟨hdisabled, hscoped, hinstalled, hboth, hstate, hversion⟩ := areSame_iff.1 hremote
  obtain ⟨hdisabled', hscoped', hinstalled', hboth', hstate', -⟩ := areSame_iff.1 hlocal
  rw [areSame_iff]
  refine ⟨hdisabled.symm.trans hdisabled', hscoped.symm.trans hscoped',
    fun _ => (hinstalled rfl).symm.trans (hinstalled' rfl), fun hr hl => ?_,
    hstate.symm.trans hstate', fun h => by cases h⟩
  have hb : truthy base.installed = true := by rw [hinstalled rfl]; exact hr
  obtain ⟨hpre, hpinned, -⟩ := hboth hb hr
  obtain ⟨hpre', hpinned', hsame'⟩ := hboth' hb hl
  exact ⟨hpre.symm.trans hpre', hpinned.symm.trans hpinned',
    fun h => (hversion rfl).symm.trans (hsame' h)⟩

theorem massaged_mergeExtension {sides : Sides V} {key : String}
    {remoteExtension preferred : ISyncExtension V} (h : Massaged preferred) :
    Massaged (mergeExtension platform sides key localExtension remoteExtension preferred) :=
  ⟨h.1, congrArg some (truthy_some _).symm⟩

section Rounds

variable {sides next : Sides V} {key key₂ : String}

theorem Succeeds.stored (h : Succeeds platform sides next key key₂) {entry : ISyncExtension V}
    (hentry : (planned platform sides key).remoteAfter (sides.remoteExtensions.get key) = some
    entry) (hmassaged : Massaged entry) : ∃ stored, next.remoteExtensions.get key₂ = some stored ∧
    Stored stored entry ∧ (stored = settle entry key ∨ areSame stored entry true true = true ∧
    sides.remoteExtensions.get key = some stored) := by
  rcases h.remoteAfter with hwritten | ⟨hsame, hunchanged, hflags⟩
  · rw [hentry] at hwritten
    exact ⟨settle entry key, hwritten, stored_settle hmassaged key, .inl rfl⟩
  · rw [hentry] at hunchanged
    cases hremote : sides.remoteExtensions.get key with
    | none => exact (hremote ▸ hunchanged : unchangedRemotely none (some entry)).elim
    | some r =>
      have hsameEntry : areSame r entry true true = true := by
        rw [hremote] at hunchanged
        exact hunchanged
      exact ⟨r, hsame.trans hremote, stored_of_areSame hsameEntry (hflags r hremote),
        .inr ⟨hsameEntry, rfl⟩⟩

theorem Succeeds.stored_none (h : Succeeds platform sides next key key₂)
    (hentry : (planned platform sides key).remoteAfter (sides.remoteExtensions.get key) = none) :
    next.remoteExtensions.get key₂ = none := by
  rcases h.remoteAfter with hwritten | ⟨hsame, hunchanged, -⟩
  · rw [hwritten, hentry]
    rfl
  · rw [hentry] at hunchanged
    cases hremote : sides.remoteExtensions.get key with
    | none => rw [hsame, hremote]
    | some r => exact (hremote ▸ hunchanged : unchangedRemotely (some r) none).elim

theorem Succeeds.quiet_of_areSame
    (h : Succeeds platform sides next key key₂) {localExtension entry : ISyncExtension V}
    (hlocal : next.localExtensions.get key₂ = some localExtension)
    (hflags : hasFlags localExtension = true) (hentry : (planned platform sides key).remoteAfter
    (sides.remoteExtensions.get key) = some entry) (hmassaged : Massaged entry)
    (hsame : areSame entry localExtension false true = true) : Quiet platform next key₂ := by
  obtain ⟨stored, hget, hstored, -⟩ := h.stored hentry hmassaged
  rw [Quiet, hlocal, hget]
  exact .inl (areSame_stored hstored hflags hsame)

theorem Succeeds.quiet_of_settled (h : Succeeds platform sides next key key₂)
    {entry : ISyncExtension V} (hlocal : next.localExtensions.get key₂ = some (settle entry key))
    (hentry : (planned platform sides key).remoteAfter (sides.remoteExtensions.get key) =
    some entry) (hmassaged : Massaged entry) : Quiet platform next key₂ := by
  obtain ⟨stored, hget, hstored, -⟩ := h.stored hentry hmassaged
  rw [Quiet, hlocal, hget]
  exact .inl (areSame_settle hstored hmassaged key)

theorem Succeeds.quiet_of_absent (h : Succeeds platform sides next key key₂)
    {entry : ISyncExtension V} (hlocal : next.localExtensions.get key₂ = none)
    (hentry : (planned platform sides key).remoteAfter (sides.remoteExtensions.get key) =
    some entry) (hmassaged : Massaged entry) (hkept : sides.skippedExtensions.has key =
    true ∨ truthy entry.installed = false ∨ sides.wasInstalledDuringLastSync key entry = false) :
    Quiet platform next key₂ := by
  obtain ⟨stored, hget, hstored, -⟩ := h.stored hentry hmassaged
  rw [Quiet, hlocal, hget]
  rcases hkept with hskipped | hinstalled | hwas
  · exact .inl (h.skipped hskipped)
  · exact .inr (.inl (by rw [hstored.installed]; exact hinstalled))
  · refine .inr (.inr (Bool.eq_false_iff.2 fun hwas' => ?_))
    have hwas'' := h.wasInstalled stored hwas'
    rw [Sides.wasInstalledDuringLastSync, hstored.installed] at hwas''
    rw [Sides.wasInstalledDuringLastSync] at hwas
    exact absurd (hwas.symm.trans hwas'') (by decide)

variable {localExtension remoteExtension : ISyncExtension V}

theorem areSame_of_flagsTaken (hlocal : isLocal localExtension = true ∧ Massaged localExtension)
    (hinstalled : truthy localExtension.installed = true)
    (hremote : truthy remoteExtension.installed = false)
    (hsame : areSame localExtension remoteExtension false false = true)
    (htaken : flagsNotTaken localExtension remoteExtension = false) :
    areSame (mergeExtension platform sides key localExtension remoteExtension remoteExtension)
    localExtension false true = true := by
  have hsource : (if truthy localExtension.installed then remoteExtension else remoteExtension) =
      remoteExtension := ite_self _
  obtain ⟨hdisabled, hscoped, -, -, hstate, -⟩ := areSame_iff.1 hsame
  simp only [flagsNotTaken, hinstalled, hremote, hsame, Bool.not_false, Bool.true_and,
    Bool.or_eq_false_iff, Bool.and_eq_false_iff, decide_eq_false_iff_not, ne_eq, not_not,
    Option.isSome_eq_false_iff, Option.isNone_iff_eq_none] at htaken
  obtain ⟨⟨hpre, hpinned⟩, hversion⟩ := htaken
  have hmerged : (mergeExtension platform sides key localExtension remoteExtension
      remoteExtension).pinned = localExtension.pinned := by
    rw [mergeExtension_pinned, hsource]
    rcases hpinned with hnone | heq
    · rw [hnone, Option.none_or]
    · rw [heq]
      cases localExtension.pinned <;> rfl
  rw [areSame_iff]
  refine ⟨hdisabled.symm, hscoped.symm, fun _ => ?_, fun _ _ => ⟨?_, hmerged, fun hp => ?_⟩, ?_,
    fun h => by cases h⟩
  · rw [hlocal.2.2, hinstalled]
    simp [mergeExtension, hinstalled]
  · rw [mergeExtension_preRelease _ _ _ _ remoteExtension hsource]
    rcases hpre with hnone | heq
    · rw [hnone, Option.none_or]
    · rw [heq]
      cases localExtension.preRelease <;> rfl
  · rw [mergeExtension_version _ _ _ _ remoteExtension hsource]
    have hpinnedLocal : localExtension.pinned = some true := by simpa [truthy] using hp
    rcases hpinned with hnone | heq
    · simp [hnone, hp]
    · rw [heq, hpinnedLocal, if_pos rfl]
      rcases hversion with hunpinned | hsameVersion
      · rw [heq, hpinnedLocal] at hunpinned
        exact absurd hunpinned (by decide)
      · exact hsameVersion
  · refine (mergeExtension_state_same _ _ _ _ (.inr hstate)).trans (preferredState_same hstate)

theorem mergeExtension_version_ne {preferred : ISyncExtension V}
    (hlocal : localExtension.version ≠ "") (hinstalled : truthy localExtension.installed = false)
    (hpinned : truthy (mergeExtension platform sides key localExtension remoteExtension
    preferred).pinned = false) :
    (mergeExtension platform sides key localExtension remoteExtension preferred).version ≠ "" := by
  have hsource : (if truthy localExtension.installed then preferred else remoteExtension) =
      remoteExtension := by rw [hinstalled]; rfl
  rw [mergeExtension_pinned, hsource] at hpinned
  rw [mergeExtension_version _ _ _ _ remoteExtension hsource]
  have hnot : remoteExtension.pinned ≠ some true := by
    intro h
    rw [h] at hpinned
    exact absurd hpinned (by simp)
  rw [if_neg hnot]
  split
  · exact hlocal
  · split
    · next h =>
        simp only [Bool.and_eq_true, decide_eq_true_eq] at h
        exact h.1
    · exact hlocal

theorem Succeeds.quiet_of_installedRemotely (h : Succeeds platform sides next key key₂)
    {localExtension remoteExtension : ISyncExtension V}
    (hlocal : next.localExtensions.get key₂ = some localExtension)
    (hisLocal : isLocal localExtension = true) (hmassaged : Massaged remoteExtension)
    (hinstalled : truthy localExtension.installed = false)
    (hremote : truthy remoteExtension.installed = true)
    (hsame : areSame localExtension remoteExtension false false = true)
    (hentry : (planned platform sides key).remoteAfter (sides.remoteExtensions.get key) =
      some (mergeExtension platform sides key localExtension remoteExtension remoteExtension)) :
    Quiet platform next key₂ := by
  obtain ⟨hdisabled, hscoped, -, -, hstate, -⟩ := areSame_iff.1 hsame
  obtain ⟨stored, hget, hstored, -⟩ := h.stored hentry (massaged_mergeExtension hmassaged)
  simp only [isLocal, Bool.and_eq_true, decide_eq_true_eq] at hisLocal
  have hstored' : stored.installed = some true := by
    rw [hstored.installed]
    simp [mergeExtension, hremote]
  have hflags := hstored.flags (by rw [← hstored.installed, hstored']; rfl)
  have hsameState : SameState localExtension.state stored.state :=
    ((mergeExtension_state_same _ _ _ _ (.inr hstate)).trans (preferredState_same hstate)).symm.trans
      hstored.state.symm
  rw [Quiet, hlocal, hget]
  refine .inr (again_not_installed hinstalled ?_ (h.lastSync.trans hget)
    (hstored.disabled.trans hdisabled.symm) (hstored.isApplicationScoped.trans hscoped.symm)
    ⟨?_, by rw [hstored']; rfl⟩ ?_ (hsameState.symm.trans (preferredState_same hsameState).symm))
  · rw [hasFlags, hflags.1, hflags.2]
    rfl
  · rw [hstored.disabled]
    exact hmassaged.1
  · rw [hstored.version, hflags.2, truthy_some]
    exact mergeExtension_version_ne hisLocal.2 hinstalled

theorem mergeExtension_version_or (sides : Sides V) (key : String)
    (localExtension remoteExtension : ISyncExtension V) :
    let merged := mergeExtension platform sides key localExtension remoteExtension localExtension
    merged.version = remoteExtension.version ∨ merged.version = localExtension.version := by
  intro merged
  rw [mergeExtension_version _ _ _ _ _ rfl]
  cases truthy localExtension.installed
  · simp only [Bool.false_eq_true, if_false]
    split_ifs <;> simp
  · simp only [if_true]
    split_ifs <;> simp

/-- Where the remote version is the newer one, it is the merged one unless the local pin
comes first. -/
theorem mergeExtension_version_remote (sides : Sides V) (key : String)
    (hne : remoteExtension.version ≠ "")
    (hgt : platform.gt remoteExtension.version localExtension.version = true)
    (hfree :
    (truthy localExtension.pinned &&
    (truthy localExtension.installed || remoteExtension.pinned.isNone)) = false) :
    (mergeExtension platform sides key localExtension remoteExtension localExtension).version =
      remoteExtension.version := by
  rw [mergeExtension_version _ _ _ _ _ rfl]
  cases hinstalled : truthy localExtension.installed with
  | true =>
    rw [hinstalled, Bool.true_or, Bool.and_true] at hfree
    have hpinned : ¬ localExtension.pinned = some true := by
      intro h
      rw [h] at hfree
      exact absurd hfree (by decide)
    simp [hpinned, hfree, hne, hgt]
  | false =>
    rw [hinstalled, Bool.false_or] at hfree
    by_cases hpinned : remoteExtension.pinned = some true
    · simp [hpinned]
    · have hnone : ¬ (remoteExtension.pinned = none ∧ truthy localExtension.pinned = true) := by
        rintro ⟨hnone, hlocal⟩
        rw [hnone, hlocal] at hfree
        exact absurd hfree (by decide)
      simp only [Bool.false_eq_true, if_false]
      rw [if_neg hpinned, if_neg hnone]
      simp [hne]

theorem areSame_again_settled (hasymm : ∀ a b, platform.gt a b = true → platform.gt b a = false)
    (hisLocal : isLocal localExtension = true) (hmassaged : Massaged localExtension)
    (hlastSync : next.lastSync key₂ = some
    (settle (mergeExtension platform sides key localExtension remoteExtension localExtension) key))
    (hbase : SameState ((sides.lastSync key).bind ISyncExtension.state) remoteExtension.state)
    (htaken : remoteExtension.version ≠ "" → localExtension.state.isSome = true →
    remoteExtension.state.isSome = true → platform.gt remoteExtension.version
    localExtension.version = true → ¬ SameState localExtension.state remoteExtension.state →
    (truthy localExtension.pinned &&
    (truthy localExtension.installed || remoteExtension.pinned.isNone)) = false) :
    let stored := settle (mergeExtension platform sides key localExtension remoteExtension
      localExtension) key
    areSame stored (mergeExtension platform next key₂ localExtension stored localExtension)
      true true = true := by
  intro stored
  have hlocal := hisLocal
  simp only [isLocal, Bool.and_eq_true, hasFlags, decide_eq_true_eq] at hlocal
  have hstate : SameState stored.state (preferredState platform localExtension stored) :=
    state_settles hasymm hlocal.2 (.inl hbase) rfl
      (mergeExtension_version_or sides key localExtension remoteExtension)
      fun hne hsome hsome' hgt hdiffer =>
        mergeExtension_version_remote sides key hne hgt (htaken hne hsome hsome' hgt hdiffer)
  have hstored : Stored stored _ :=
    stored_settle (massaged_mergeExtension hmassaged) key
  cases hinstalled : truthy localExtension.installed with
  | true =>
    have hsource : (if truthy localExtension.installed then localExtension
      else remoteExtension) = localExtension := by rw [hinstalled]; rfl
    refine again_installed hinstalled hisLocal hlastSync hstored.disabled
      hstored.isApplicationScoped ?_ ?_ ?_ ?_ hstate
    · simp [stored, mergeExtension, hinstalled]
    · rw [settle_preRelease, mergeExtension_preRelease _ _ _ _ localExtension hsource,
        Option.or_self, some_truthy hlocal.1.2]
    · rw [settle_pinned, mergeExtension_pinned, hsource, Option.or_self, some_truthy hlocal.1.1]
    · rw [settle_version, mergeExtension_version _ _ _ _ localExtension hsource]
      split
      · exact .inl rfl
      · next hpinned =>
          split
          · exact .inl rfl
          · split
            · next hnewer =>
                simp only [hinstalled, Bool.not_true, Bool.false_or, Bool.and_eq_true,
                  decide_eq_true_eq] at hnewer
                refine .inr ⟨?_, hnewer⟩
                simpa [truthy] using hpinned
            · exact .inl rfl
  | false =>
    refine again_not_installed hinstalled rfl hlastSync hstored.disabled
      hstored.isApplicationScoped ⟨?_, ?_⟩ ?_ hstate
    · rw [settle_disabled, truthy_some]
    · rw [settle_installed, truthy_some]
    · rw [settle_pinned, truthy_some]
      exact mergeExtension_version_ne hlocal.2 hinstalled

theorem Succeeds.quiet_of_locallyUpdated (h : Succeeds platform sides next key key₂)
    (hasymm : ∀ a b, platform.gt a b = true → platform.gt b a = false)
    {localExtension remoteExtension baseExtension : ISyncExtension V}
    (hlocal : next.localExtensions.get key₂ = some localExtension)
    (hisLocal : isLocal localExtension = true) (hmassaged : Massaged localExtension)
    (hbase : sides.lastSync key = some baseExtension)
    (hremote : sides.remoteExtensions.get key = some remoteExtension)
    (hsame : areSame baseExtension remoteExtension true true = true)
    (htaken : stateNotTaken platform localExtension remoteExtension baseExtension = false)
    (hentry : (planned platform sides key).remoteAfter (sides.remoteExtensions.get key) =
      some (mergeExtension platform sides key localExtension remoteExtension localExtension)) :
    Quiet platform next key₂ := by
  obtain ⟨-, -, -, -, hbaseState, -⟩ := areSame_iff.1 hsame
  obtain ⟨stored, hget, hstored, hwhich⟩ := h.stored hentry (massaged_mergeExtension hmassaged)
  have hversionNe : localExtension.version ≠ "" := by
    simp only [isLocal, Bool.and_eq_true, decide_eq_true_eq] at hisLocal
    exact hisLocal.2
  have hlastSync := h.lastSync.trans hget
  have hpreferredBase : SameState ((sides.lastSync key).bind ISyncExtension.state)
      remoteExtension.state := by rw [hbase]; exact hbaseState
  rw [Quiet, hlocal, hget]
  refine .inr ?_
  rcases hwhich with rfl | ⟨hunchanged, hkept⟩
  · refine areSame_again_settled hasymm hisLocal hmassaged hlastSync hpreferredBase ?_
    intro hne hsome hsome' hgt hdiffer
    rw [← isSameExtensionState_iff, Bool.not_eq_true] at hdiffer
    simpa [stateNotTaken, hsame, hne, hsome, hsome', hgt, hdiffer] using htaken
  · rw [hremote] at hkept
    cases hkept
    have hnextBase : SameState ((next.lastSync key₂).bind ISyncExtension.state)
        remoteExtension.state := by rw [hlastSync]; exact .refl _
    have hnextState := @mergeExtension_state_same V _ platform next key₂ localExtension
      remoteExtension localExtension (.inl hnextBase)
    obtain ⟨hdisabled, hscoped, hinstalled, hboth, hsameState, hversion⟩ :=
      areSame_iff.1 hunchanged
    exact areSame_iff.2 ⟨hdisabled, hscoped, hinstalled, hboth, hsameState.trans
      ((mergeExtension_state_same platform sides key localExtension (.inl hpreferredBase)).trans
        hnextState.symm), hversion⟩

theorem Succeeds.quiet (h : Succeeds platform sides next key key₂)
    (hasymm : ∀ a b, platform.gt a b = true → platform.gt b a = false)
    (hlocal : ∀ e, sides.localExtensions.get key = some e → isLocal e = true ∧ Massaged e)
    (hremote : ∀ e, sides.remoteExtensions.get key = some e → Massaged e)
    (htaken : ∀ localExtension remoteExtension, sides.localExtensions.get key = some
    localExtension → sides.remoteExtensions.get key = some remoteExtension → overlooked platform
    localExtension remoteExtension (sides.lastSync key) = false) : Quiet platform next key₂ := by
  have hafter := h.localAfter
  have hstored := @Succeeds.quiet_of_areSame _ _ _ _ _ _ _ h
  have hsettled := @Succeeds.quiet_of_settled _ _ _ _ _ _ _ h
  have habsent := @Succeeds.quiet_of_absent _ _ _ _ _ _ _ h
  have hnone := h.stored_none
  have hbuiltin := @Succeeds.quiet_of_installedRemotely _ _ _ _ _ _ _ h
  have hupdated := @Succeeds.quiet_of_locallyUpdated _ _ _ _ _ _ _ h hasymm
  have hgone : next.localExtensions.get key₂ = none → next.remoteExtensions.get key₂ = none →
      Quiet platform next key₂ := by
    intro hnextLocal hnextRemote
    rw [Quiet, hnextLocal, hnextRemote]
    trivial
  have hflags : ∀ e, sides.localExtensions.get key = some e → hasFlags e = true := by
    intro e he
    have hisLocal := (hlocal e he).1
    simp only [isLocal, Bool.and_eq_true] at hisLocal
    exact hisLocal.1
  rw [planned] at hafter hstored hsettled habsent hnone hbuiltin hupdated
  cases hl : sides.localExtensions.get key with
  | none =>
    cases hr : sides.remoteExtensions.get key with
    | none =>
      rw [hl, hr] at hafter hnone
      exact hgone hafter (hnone rfl)
    | some r =>
      have hmassaged := hremote r hr
      cases hb : sides.lastSync key with
      | none =>
        rw [hl, hr, hb] at hafter hsettled habsent
        by_cases hinstalled : truthy r.installed = true
        · simp only [hinstalled, if_true] at hafter hsettled
          exact hsettled hafter rfl hmassaged
        · simp only [hinstalled] at hafter habsent
          exact habsent hafter rfl hmassaged (.inr (.inl (eq_false_of_ne_true hinstalled)))
      | some b =>
        rw [hl, hr, hb] at hafter hsettled habsent hnone
        by_cases hsame : areSame b r true true = true
        · simp only [hsame, if_true] at hafter habsent hnone
          by_cases hdelete : (!sides.skippedExtensions.has key && truthy r.installed &&
              sides.wasInstalledDuringLastSync key b) = true
          · simp only [hdelete, if_true] at hafter hnone
            exact hgone hafter (hnone rfl)
          · simp only [hdelete] at hafter habsent
            refine habsent hafter rfl hmassaged ?_
            have hinstalled := (areSame_iff.1 hsame).2.2.1 rfl
            rw [Sides.wasInstalledDuringLastSync, hinstalled,
              ← Sides.wasInstalledDuringLastSync] at hdelete
            cases hskipped : sides.skippedExtensions.has key with
            | true => exact .inl rfl
            | false =>
              rw [hskipped, Bool.not_false, Bool.true_and, Bool.and_eq_true,
                Classical.not_and_iff_not_or_not, Bool.not_eq_true, Bool.not_eq_true] at hdelete
              exact .inr hdelete
        · by_cases hinstalled : truthy r.installed = true
          · simp only [hsame, hinstalled, if_true] at hafter hsettled
            exact hsettled hafter rfl hmassaged
          · simp only [hsame, hinstalled] at hafter habsent
            exact habsent hafter rfl hmassaged (.inr (.inl (eq_false_of_ne_true hinstalled)))
  | some l =>
    obtain ⟨hisLocal, hmassagedLocal⟩ := hlocal l hl
    cases hr : sides.remoteExtensions.get key with
    | none =>
      cases hb : sides.lastSync key with
      | none =>
        rw [hl, hr, hb] at hafter hstored
        exact hstored hafter (hflags l hl) rfl hmassagedLocal (areSame_refl l false true)
      | some b =>
        rw [hl, hr, hb] at hafter hstored hnone
        by_cases hremove : (truthy l.installed && sides.wasInstalledDuringLastSync key b) = true
        · simp only [hremove, if_true] at hafter hnone
          exact hgone hafter (hnone rfl)
        · simp only [hremove] at hafter hstored
          exact hstored hafter (hflags l hl) rfl hmassagedLocal (areSame_refl l false true)
    | some r =>
      have hmassaged := hremote r hr
      have hmerged : Massaged (mergeExtension platform sides key l r r) :=
        massaged_mergeExtension hmassaged
      have htaken := htaken l r hl hr
      cases hb : sides.lastSync key with
      | none =>
        rw [hl, hr, hb] at hafter hstored hsettled hbuiltin
        by_cases hsame : areSame l r false true = true
        · simp only [hsame, if_true] at hafter hstored
          exact hstored hafter (hflags l hl) rfl hmassaged (areSame_symm hsame)
        · by_cases hsame' : areSame l r false false = true
          · simp only [hsame, hsame', if_true] at hafter hstored hbuiltin
            cases hinstalled : truthy l.installed with
            | true =>
              have hr' : truthy r.installed = false := by
                refine Bool.eq_false_iff.2 fun hr' => hsame ?_
                refine areSame_of_installed hsame' ?_
                rw [hmassagedLocal.2, hmassaged.2, hinstalled, hr']
              have htaken : flagsNotTaken l r = false := by
                rw [hb] at htaken
                exact htaken
              exact hstored hafter (hflags l hl) rfl hmerged (areSame_of_flagsTaken
                ⟨hisLocal, hmassagedLocal⟩ hinstalled hr' hsame' htaken)
            | false =>
              have hr' : truthy r.installed = true := by
                refine eq_true_of_ne_false fun hr' => hsame ?_
                refine areSame_of_installed hsame' ?_
                rw [hmassagedLocal.2, hmassaged.2, hinstalled, hr']
              exact hbuiltin hafter hisLocal hmassaged hinstalled hr' hsame' rfl
          · simp only [hsame, hsame'] at hafter hsettled
            exact hsettled hafter rfl hmerged
      | some b =>
        rw [hl, hr, hb] at hafter hstored hsettled hupdated habsent
        by_cases hsame : areSame b r true true = true
        · by_cases hsame' : areSame b l false true = true
          · simp only [hsame, hsame', if_true] at hafter hstored
            exact hstored hafter (hflags l hl) rfl hmassaged (areSame_of_base hsame hsame')
          · simp only [hsame, hsame', if_true] at hafter hupdated
            have htaken : stateNotTaken platform l r b = false := by
              rw [hb] at htaken
              exact htaken
            exact hupdated hafter hisLocal hmassagedLocal rfl rfl hsame htaken rfl
        · by_cases hremove : (sides.wasInstalledDuringLastSync key b &&
              truthy l.installed && !truthy r.installed) = true
          · simp only [hsame, hremove, if_true] at hafter habsent
            simp only [Bool.and_eq_true, Bool.not_eq_true'] at hremove
            exact habsent hafter rfl hmassaged (.inr (.inl hremove.2))
          · simp only [hsame, hremove] at hafter hsettled
            exact hsettled hafter rfl hmerged

end Rounds

end CodeOss.UserDataSync.Extensions
