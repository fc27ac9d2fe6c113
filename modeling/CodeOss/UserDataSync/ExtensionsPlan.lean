import CodeOss.UserDataSync.ExtensionsKeys

/-! What the six loops of the extensions merge do to one key: at most one of them acts on
it, and its action depends on what the key has on the three sides alone. -/

open List

namespace CodeOss.UserDataSync.Extensions

open KeyedFold

variable {V : Type} {platform : Platform} {sides : Sides V}

section Compare

variable {fromMap : Option (JsMap String (ISyncExtension V))}
  {toMap : JsMap String (ISyncExtension V)} {ignored : List String} {checkVersion : Bool}

variable {key : String}

theorem mem_filter_keys {map : JsMap String (ISyncExtension V)} : (map.keys.filter fun key =>
    !ignored.contains key).contains key = (!ignored.contains key && (map.get key).isSome) := by
  rw [Bool.eq_iff_iff, contains_iff_mem, mem_filter, JsMap.mem_keys, JsMap.has]
  simp [and_comm]

variable [DecidableEq V]

theorem compare_distinct : (compare fromMap toMap ignored checkVersion).Distinct where
  added := (toMap.distinct.filter _).filter _
  removed := ((fromMap.getD .empty).distinct.filter _).filter _
  updated := ((fromMap.getD .empty).distinct.filter _).filter _

theorem mem_compare_added : key ∈ (compare fromMap toMap ignored checkVersion).added ↔
    key ∉ ignored ∧ (fromMap.getD .empty).get key = none ∧ (toMap.get key).isSome := by
  simp only [compare, compareWith, mem_filter, JsMap.mem_keys, JsMap.has, mem_filter_keys]
  cases (fromMap.getD .empty).get key <;> cases toMap.get key <;>
    by_cases hignored : key ∈ ignored <;> simp [hignored]

theorem mem_compare_removed : key ∈ (compare fromMap toMap ignored checkVersion).removed ↔
    key ∉ ignored ∧ ((fromMap.getD .empty).get key).isSome ∧ toMap.get key = none := by
  simp only [compare, compareWith, mem_filter, JsMap.mem_keys, JsMap.has, mem_filter_keys]
  cases (fromMap.getD .empty).get key <;> cases toMap.get key <;>
    by_cases hignored : key ∈ ignored <;> simp [hignored]

theorem mem_compare_updated : key ∈ (compare fromMap toMap ignored checkVersion).updated ↔
    key ∉ ignored ∧ ∃ fromExtension toExtension,
    (fromMap.getD .empty).get key = some fromExtension ∧ toMap.get key = some toExtension ∧
    areSame fromExtension toExtension checkVersion true = false := by
  have hremoved : (((fromMap.getD .empty).keys.filter fun key => !ignored.contains key).filter
      fun key => !(toMap.keys.filter fun key => !ignored.contains key).contains key).contains key =
      (!ignored.contains key && ((fromMap.getD .empty).get key).isSome &&
        (toMap.get key).isNone) := by
    rw [Bool.eq_iff_iff, contains_iff_mem, mem_filter, mem_filter, JsMap.mem_keys,
      JsMap.has, mem_filter_keys]
    cases (fromMap.getD .empty).get key <;> cases toMap.get key <;>
      by_cases hignored : key ∈ ignored <;> simp [hignored]
  simp only [compare, compareWith, mem_filter, JsMap.mem_keys, JsMap.has, hremoved]
  cases (fromMap.getD .empty).get key <;> cases toMap.get key <;>
    by_cases hignored : key ∈ ignored <;> simp [hignored]

/-- Both sides have the extension, with a difference. -/
def differ (fromExtension toExtension : Option (ISyncExtension V)) (checkVersion : Bool) : Bool :=
  match fromExtension, toExtension with
  | some fromExtension, some toExtension =>
    !areSame fromExtension toExtension checkVersion true
  | _, _ => false

theorem mem_compare_updated_iff_differ :
    key ∈ (compare fromMap toMap ignored checkVersion).updated ↔ key ∉ ignored ∧
      differ ((fromMap.getD .empty).get key) (toMap.get key) checkVersion = true := by
  rw [mem_compare_updated]
  cases (fromMap.getD .empty).get key <;> cases toMap.get key <;> simp [differ]

theorem compare_isEmpty :
    (compare fromMap toMap ignored checkVersion).isEmpty = true ↔ ∀ key, key ∉ ignored →
      match (fromMap.getD .empty).get key, toMap.get key with
      | none, none => True
      | some fromExtension, some toExtension =>
        areSame fromExtension toExtension checkVersion true = true
      | _, _ => False := by
  simp only [Comparison.isEmpty, Bool.and_eq_true, List.isEmpty_iff, eq_nil_iff_forall_not_mem,
    mem_compare_added, mem_compare_removed, mem_compare_updated]
  constructor
  · rintro ⟨⟨hadded, hremoved⟩, hupdated⟩ key hignored
    have hadded := hadded key
    have hremoved := hremoved key
    have hupdated := hupdated key
    cases hfrom : (fromMap.getD .empty).get key <;> cases hto : toMap.get key <;>
      simp_all
  · intro h
    refine ⟨⟨fun key hkey => ?_, fun key hkey => ?_⟩, fun key hkey => ?_⟩
    · have hmatch := h key hkey.1
      obtain ⟨toExtension, hto⟩ := Option.isSome_iff_exists.1 hkey.2.2
      rw [hkey.2.1, hto] at hmatch
      exact hmatch
    · have hmatch := h key hkey.1
      obtain ⟨fromExtension, hfrom⟩ := Option.isSome_iff_exists.1 hkey.2.1
      rw [hkey.2.2, hfrom] at hmatch
      exact hmatch
    · obtain ⟨hignored, fromExtension, toExtension, hfrom, hto, hdiffer⟩ := hkey
      have hmatch := h key hignored
      rw [hfrom, hto] at hmatch
      exact absurd hmatch (by simp [hdiffer])

end Compare

structure OnKey (V : Type) where
  added : List (ISyncExtension V)
  removed : List IExtensionIdentifier
  updated : List (ISyncExtension V)
  newRemote : Option (ISyncExtension V)

namespace Merging

variable (keyOfIdentifier : IExtensionIdentifier → String)

def onKey (state : Merging V) (key : String) : OnKey V where
  added := state.added.filter fun e => keyOfIdentifier e.identifier = key
  removed := state.removed.filter fun i => keyOfIdentifier i = key
  updated := state.updated.filter fun e => keyOfIdentifier e.identifier = key
  newRemote := state.newRemoteExtensions.get key

end Merging

inductive RemoteChange (V : Type)
  | keep
  | set (extension : ISyncExtension V)
  | delete

structure KeyPlan (V : Type) where
  added : Option (ISyncExtension V)
  removed : Option IExtensionIdentifier
  updated : Option (ISyncExtension V)
  remote : RemoteChange V

namespace KeyPlan

def nothing : KeyPlan V := ⟨none, none, none, .keep⟩

def setRemote (extension : ISyncExtension V) : KeyPlan V := ⟨none, none, none, .set extension⟩

def addLocally (extension : ISyncExtension V) : KeyPlan V := ⟨some extension, none, none, .keep⟩

def removeLocally (identifier : IExtensionIdentifier) : KeyPlan V :=
  ⟨none, some identifier, none, .keep⟩

def deleteRemote : KeyPlan V := ⟨none, none, none, .delete⟩

def run (plan : KeyPlan V) (state : Merging V) (key : String) : Merging V where
  added := state.added ++ (plan.added.map (massageOutgoingExtension · key)).toList
  removed := state.removed ++ plan.removed.toList
  updated := state.updated ++ (plan.updated.map (massageOutgoingExtension · key)).toList
  newRemoteExtensions :=
    match plan.remote with
    | .keep => state.newRemoteExtensions
    | .set extension => state.newRemoteExtensions.set key extension
    | .delete => state.newRemoteExtensions.delete key

def onKey (plan : KeyPlan V) (key : String) (before : OnKey V) : OnKey V where
  added := before.added ++ (plan.added.map (massageOutgoingExtension · key)).toList
  removed := before.removed ++ plan.removed.toList
  updated := before.updated ++ (plan.updated.map (massageOutgoingExtension · key)).toList
  newRemote :=
    match plan.remote with
    | .keep => before.newRemote
    | .set extension => some extension
    | .delete => none

theorem run_nothing (state : Merging V) (key : String) : nothing.run state key = state := by
  simp [run, nothing]

theorem onKey_nothing (key : String) (before : OnKey V) : nothing.onKey key before = before := by
  simp [onKey, nothing]

structure Keyed (plan : KeyPlan V) (keyOfIdentifier : IExtensionIdentifier → String)
    (key : String) : Prop where
  added : ∀ e, plan.added = some e →
    keyOfIdentifier (massageOutgoingExtension e key).identifier = key
  removed : ∀ i, plan.removed = some i → keyOfIdentifier i = key
  updated : ∀ e, plan.updated = some e →
    keyOfIdentifier (massageOutgoingExtension e key).identifier = key

/-- What the identifiers in the plan have in common. -/
structure About (plan : KeyPlan V) (about : IExtensionIdentifier → Prop) : Prop where
  added : ∀ e, plan.added = some e → about e.identifier
  removed : ∀ i, plan.removed = some i → about i
  updated : ∀ e, plan.updated = some e → about e.identifier
  remote : ∀ e, plan.remote = .set e → about e.identifier

theorem touches_run {keyOfIdentifier : IExtensionIdentifier → String} {plan : String → KeyPlan V}
    (hkeyed : ∀ key, (plan key).Keyed keyOfIdentifier key) : Touches (Merging.onKey keyOfIdentifier)
    (fun state key => (plan key).run state key) (fun key => (plan key).onKey key) := by
  intro state key k
  have hlist : ∀ (e : Option (ISyncExtension V)), (∀ e', e = some e' →
      keyOfIdentifier (massageOutgoingExtension e' key).identifier = key) →
      (e.map (massageOutgoingExtension · key)).toList.filter
        (fun e => keyOfIdentifier e.identifier = k) =
        if k = key then (e.map (massageOutgoingExtension · key)).toList else [] := by
    intro e he
    cases e with
    | none => simp
    | some e =>
      have hkey := he e rfl
      by_cases hk : k = key
      · simp [hk, hkey]
      · have hk' : ¬ key = k := fun h => hk h.symm
        simp [hk, hkey, hk']
  have hremoved : (plan key).removed.toList.filter (fun i => keyOfIdentifier i = k) =
      if k = key then (plan key).removed.toList else [] := by
    cases hplan : (plan key).removed with
    | none => simp
    | some i =>
      have hkey := (hkeyed key).removed i hplan
      by_cases hk : k = key
      · simp [hk, hkey]
      · have hk' : ¬ key = k := fun h => hk h.symm
        simp [hk, hkey, hk']
  simp only [Merging.onKey, run, filter_append, hlist _ (hkeyed key).added,
    hlist _ (hkeyed key).updated, hremoved]
  by_cases hk : k = key
  · subst hk
    cases hplan : (plan k).remote <;>
      simp [onKey, hplan, JsMap.get_delete]
  · cases hplan : (plan key).remote <;>
      simp [hk, JsMap.get_set, JsMap.get_delete]

end KeyPlan

theorem foldl_eq_of_mem {body body' : Merging V → String → Merging V} {keys : List String}
    (h : ∀ key ∈ keys, ∀ state, body state key = body' state key) (state : Merging V) :
    keys.foldl body state = keys.foldl body' state := by
  induction keys generalizing state with
  | nil => rfl
  | cons key rest ih =>
    rw [foldl_cons, foldl_cons, h key mem_cons_self]
    exact ih (fun k hk => h k (mem_cons_of_mem _ hk)) _

theorem getD_lastSync (key : String) :
    (sides.lastSyncExtensions.getD .empty).get key = sides.lastSync key := by
  rw [Sides.lastSync]
  cases sides.lastSyncExtensions <;> rfl

section Plan

variable [DecidableEq V]

/-- What the loops do for a key, by what it has locally, remotely and in the base. -/
def planned (platform : Platform) (sides : Sides V) (key : String) : KeyPlan V :=
  match sides.localExtensions.get key, sides.remoteExtensions.get key, sides.lastSync key with
  | none, none, _ => .nothing
  | some localExtension, none, none => .setRemote localExtension
  | some localExtension, none, some baseExtension =>
    if truthy localExtension.installed && sides.wasInstalledDuringLastSync key baseExtension then
      .removeLocally localExtension.identifier
    else .setRemote localExtension
  | none, some remoteExtension, none =>
    if truthy remoteExtension.installed then .addLocally remoteExtension else .nothing
  | none, some remoteExtension, some baseExtension =>
    if areSame baseExtension remoteExtension true true then
      if !sides.skippedExtensions.has key && truthy remoteExtension.installed &&
          sides.wasInstalledDuringLastSync key baseExtension then .deleteRemote
      else .nothing
    else if truthy remoteExtension.installed then .addLocally remoteExtension
    else .nothing
  | some localExtension, some remoteExtension, none =>
    if areSame localExtension remoteExtension false true then .nothing
    else
      let merged := mergeExtension platform sides key localExtension remoteExtension
        remoteExtension
      { KeyPlan.setRemote merged with
        updated := if areSame localExtension remoteExtension false false then none
          else some merged }
  | some localExtension, some remoteExtension, some baseExtension =>
    if areSame baseExtension remoteExtension true true then
      if areSame baseExtension localExtension false true then .nothing
      else .setRemote
        (mergeExtension platform sides key localExtension remoteExtension localExtension)
    else if sides.wasInstalledDuringLastSync key baseExtension &&
        truthy localExtension.installed && !truthy remoteExtension.installed then
      .removeLocally localExtension.identifier
    else
      let merged := mergeExtension platform sides key localExtension remoteExtension
        remoteExtension
      { KeyPlan.setRemote merged with updated := some merged }

/-- The maps hold every extension under its own key. -/
structure Sides.Keyed (sides : Sides V) (keyOfIdentifier : IExtensionIdentifier → String) :
    Prop where
  localKey : ∀ key e, sides.localExtensions.get key = some e → keyOfIdentifier e.identifier = key
  remoteKey : ∀ key e, sides.remoteExtensions.get key = some e →
    keyOfIdentifier e.identifier = key
  outgoing : ∀ e : ISyncExtension V, keyOfIdentifier (massageOutgoingExtension e
    (keyOfIdentifier e.identifier)).identifier = keyOfIdentifier e.identifier

theorem planned_about (platform : Platform) {about : IExtensionIdentifier → Prop} {key : String}
    (hlocal : ∀ e, sides.localExtensions.get key = some e → about e.identifier)
    (hremote : ∀ e, sides.remoteExtensions.get key = some e → about e.identifier) :
    (planned platform sides key).About about := by
  have hset : ∀ e : ISyncExtension V, about e.identifier → (KeyPlan.setRemote e).About about := by
    intro e he
    constructor <;> simp [KeyPlan.setRemote, he]
  have hnothing : (KeyPlan.nothing : KeyPlan V).About about := by
    constructor <;> simp [KeyPlan.nothing]
  have hdelete : (KeyPlan.deleteRemote : KeyPlan V).About about := by
    constructor <;> simp [KeyPlan.deleteRemote]
  have hremoved : ∀ i, about i → (KeyPlan.removeLocally i : KeyPlan V).About about := by
    intro i hi
    constructor <;> simp [KeyPlan.removeLocally, hi]
  have hadded : ∀ e : ISyncExtension V, about e.identifier →
      (KeyPlan.addLocally e).About about := by
    intro e he
    constructor <;> simp [KeyPlan.addLocally, he]
  have hupdated : ∀ (e : ISyncExtension V) (update : Option (ISyncExtension V)),
      about e.identifier → (update = none ∨ update = some e) →
      KeyPlan.About { KeyPlan.setRemote e with updated := update } about := by
    intro e update he hupdate
    rcases hupdate with rfl | rfl
    · exact hset e he
    · constructor <;> simp [KeyPlan.setRemote, he]
  rw [planned]
  cases hl : sides.localExtensions.get key with
  | none =>
    cases hr : sides.remoteExtensions.get key with
    | none => exact hnothing
    | some r =>
      have hadd := hadded r (hremote r hr)
      cases sides.lastSync key with
      | none => dsimp only; split; exacts [hadd, hnothing]
      | some b =>
        dsimp only
        split
        · split; exacts [hdelete, hnothing]
        · split; exacts [hadd, hnothing]
  | some l =>
    have hremove := hremoved l.identifier (hlocal l hl)
    cases hr : sides.remoteExtensions.get key with
    | none =>
      cases sides.lastSync key with
      | none => exact hset l (hlocal l hl)
      | some b => dsimp only; split; exacts [hremove, hset l (hlocal l hl)]
    | some r =>
      cases sides.lastSync key with
      | none =>
        dsimp only
        split
        · exact hnothing
        · refine hupdated _ _ (hremote r hr) ?_
          split
          · exact .inl rfl
          · exact .inr rfl
      | some b =>
        dsimp only
        split
        · split
          · exact hnothing
          · exact hset _ (hlocal l hl)
        · split
          · exact hremove
          · exact hupdated _ _ (hremote r hr) (.inr rfl)

theorem planned_keyed (platform : Platform) {keyOfIdentifier : IExtensionIdentifier → String}
    (h : sides.Keyed keyOfIdentifier) (key : String) :
    (planned platform sides key).Keyed keyOfIdentifier key := by
  have habout : (planned platform sides key).About fun i => keyOfIdentifier i = key :=
    planned_about platform (h.localKey key) (h.remoteKey key)
  have hout : ∀ e : ISyncExtension V, keyOfIdentifier e.identifier = key →
      keyOfIdentifier (massageOutgoingExtension e key).identifier = key := by
    intro e he
    have := h.outgoing e
    rw [he] at this
    exact this
  exact ⟨fun e he => hout e (habout.added e he), habout.removed,
    fun e he => hout e (habout.updated e he)⟩

section Loops

variable {ignored : List String}

variable {key : String} {baseToRemote : Comparison}

theorem remotelyRemoved_eq (platform : Platform)
    (hkey : key ∈ (compare sides.lastSyncExtensions sides.remoteExtensions ignored true).removed)
    (state : Merging V) :
    remotelyRemoved sides state key = (planned platform sides key).run state key := by
  rw [mem_compare_removed, getD_lastSync] at hkey
  obtain ⟨-, hbase, hremote⟩ := hkey
  obtain ⟨b, hb⟩ := Option.isSome_iff_exists.1 hbase
  rw [remotelyRemoved, planned, hremote, hb]
  cases sides.localExtensions.get key with
  | none => exact (KeyPlan.run_nothing state key).symm
  | some l =>
    dsimp only
    split
    · simp [Merging.removeLocally, KeyPlan.removeLocally, KeyPlan.run]
    · simp [Merging.setRemote, KeyPlan.setRemote, KeyPlan.run]

theorem remotelyAdded_eq
    (hkey : key ∈ (compare sides.lastSyncExtensions sides.remoteExtensions ignored true).added)
    (state : Merging V) : remotelyAdded platform sides
    (compare (some sides.localExtensions) sides.remoteExtensions ignored false) state key =
    (planned platform sides key).run state key := by
  rw [mem_compare_added, getD_lastSync] at hkey
  obtain ⟨hignored, hbase, hremote⟩ := hkey
  obtain ⟨r, hr⟩ := Option.isSome_iff_exists.1 hremote
  rw [remotelyAdded, planned, hr, hbase]
  cases hlocal : sides.localExtensions.get key with
  | none =>
    dsimp only
    split
    · simp [Merging.addLocally, KeyPlan.addLocally, KeyPlan.run]
    · exact (KeyPlan.run_nothing state key).symm
  | some l =>
    have hupdated : (compare (some sides.localExtensions) sides.remoteExtensions ignored
        false).updated.contains key = !areSame l r false true := by
      rw [Bool.eq_iff_iff, contains_iff_mem, mem_compare_updated]
      simp [hignored, hlocal, hr]
    dsimp only
    rw [hupdated]
    cases areSame l r false true with
    | true => exact (KeyPlan.run_nothing state key).symm
    | false =>
      cases areSame l r false false <;>
        simp [Merging.updateLocally, Merging.setRemote, KeyPlan.setRemote, KeyPlan.run]

theorem remotelyUpdated_eq
    (hkey : key ∈ (compare sides.lastSyncExtensions sides.remoteExtensions ignored true).updated)
    (state : Merging V) :
    remotelyUpdated platform sides state key = (planned platform sides key).run state key := by
  rw [mem_compare_updated, getD_lastSync] at hkey
  obtain ⟨-, b, r, hb, hr, hdiffer⟩ := hkey
  rw [remotelyUpdated, planned, hr, hb]
  cases sides.localExtensions.get key with
  | none =>
    simp only [hdiffer]
    by_cases hinstalled : truthy r.installed
    · simp [hinstalled, Merging.addLocally, KeyPlan.addLocally, KeyPlan.run]
    · simp [hinstalled, KeyPlan.run_nothing]
  | some l =>
    simp only [hdiffer]
    by_cases hremove : (sides.wasInstalledDuringLastSync key b && truthy l.installed &&
        !truthy r.installed) = true
    · simp [hremove, Merging.removeLocally, KeyPlan.removeLocally, KeyPlan.run]
    · simp [hremove, Merging.updateLocally, Merging.setRemote, KeyPlan.setRemote, KeyPlan.run]

theorem locallyAdded_eq (platform : Platform) (hremote : baseToRemote.added.contains key =
    ((sides.lastSync key).isNone && (sides.remoteExtensions.get key).isSome)) (hkey : key ∈ (compare
    sides.lastSyncExtensions sides.localExtensions ignored false).added) (state : Merging V) :
    locallyAdded sides baseToRemote state key = if baseToRemote.added.contains key then state else
    (planned platform sides key).run state key := by
  rw [mem_compare_added, getD_lastSync] at hkey
  obtain ⟨-, hbase, hlocal⟩ := hkey
  obtain ⟨l, hl⟩ := Option.isSome_iff_exists.1 hlocal
  rw [locallyAdded, hremote, planned, hl, hbase]
  cases sides.remoteExtensions.get key with
  | none => simp [Merging.setRemote, KeyPlan.setRemote, KeyPlan.run]
  | some r => simp

theorem locallyUpdated_eq
    (hremoved : baseToRemote.removed.contains key =
    ((sides.lastSync key).isSome && (sides.remoteExtensions.get key).isNone))
    (hupdated : baseToRemote.updated.contains key = differ (sides.lastSync key)
    (sides.remoteExtensions.get key) true)
    (hkey : key ∈ (compare sides.lastSyncExtensions sides.localExtensions ignored false).updated)
    (state : Merging V) : locallyUpdated platform sides baseToRemote state key =
      if baseToRemote.removed.contains key || baseToRemote.updated.contains key then state
      else (planned platform sides key).run state key := by
  rw [mem_compare_updated, getD_lastSync] at hkey
  obtain ⟨-, b, l, hb, hl, hdiffer⟩ := hkey
  rw [locallyUpdated, hremoved, hupdated, planned, hl, hb]
  cases sides.remoteExtensions.get key with
  | none => simp
  | some r =>
    cases hsame : areSame b r true true <;>
      simp [differ, hsame, hdiffer, Merging.setRemote, KeyPlan.setRemote, KeyPlan.run]

theorem locallyRemoved_eq (platform : Platform)
    (hremoved : baseToRemote.removed.contains key =
    ((sides.lastSync key).isSome && (sides.remoteExtensions.get key).isNone))
    (hupdated : baseToRemote.updated.contains key = differ (sides.lastSync key)
    (sides.remoteExtensions.get key) true)
    (hkey : key ∈ (compare sides.lastSyncExtensions sides.localExtensions ignored false).removed)
    (state : Merging V) : locallyRemoved sides baseToRemote state key =
      if baseToRemote.updated.contains key || baseToRemote.removed.contains key then state
      else (planned platform sides key).run state key := by
  rw [mem_compare_removed, getD_lastSync] at hkey
  obtain ⟨-, hbase, hl⟩ := hkey
  obtain ⟨b, hb⟩ := Option.isSome_iff_exists.1 hbase
  rw [locallyRemoved, hremoved, hupdated, planned, hl, hb]
  cases sides.remoteExtensions.get key with
  | none => simp
  | some r =>
    cases hsame : areSame b r true true with
    | false => simp [differ, hsame]
    | true =>
      simp only [differ, hsame]
      cases sides.skippedExtensions.has key <;> cases truthy r.installed <;>
        cases sides.wasInstalledDuringLastSync key b <;>
          simp [Merging.deleteRemote, KeyPlan.deleteRemote, KeyPlan.run, KeyPlan.nothing]

end Loops

/-- The gate before the loops: the local extensions and the remote ones do not differ. -/
def upToDate (sides : Sides V) : Bool :=
  (compare (some sides.localExtensions) sides.remoteExtensions sides.ignoredExtensions
    false).isEmpty

def plannedOrNothing (platform : Platform) (sides : Sides V) (key : String) : KeyPlan V :=
  if upToDate sides || sides.ignoredExtensions.contains key then .nothing
  else planned platform sides key

theorem baseToRemote_contains {key : String} (hignored : key ∉ sides.ignoredExtensions) :
    let baseToRemote := compare sides.lastSyncExtensions sides.remoteExtensions
      sides.ignoredExtensions true
    baseToRemote.added.contains key =
        ((sides.lastSync key).isNone && (sides.remoteExtensions.get key).isSome) ∧
      baseToRemote.removed.contains key =
        ((sides.lastSync key).isSome && (sides.remoteExtensions.get key).isNone) ∧
      baseToRemote.updated.contains key =
        differ (sides.lastSync key) (sides.remoteExtensions.get key) true := by
  refine ⟨?_, ?_, ?_⟩
  · rw [Bool.eq_iff_iff, List.contains_iff_mem, mem_compare_added, getD_lastSync]
    simp [hignored]
  · rw [Bool.eq_iff_iff, List.contains_iff_mem, mem_compare_removed, getD_lastSync]
    simp [hignored]
  · rw [Bool.eq_iff_iff, List.contains_iff_mem, mem_compare_updated_iff_differ, getD_lastSync]
    simp [hignored]

theorem planned_eq_nothing {key : String}
    (hlocal : differ (sides.lastSync key) (sides.localExtensions.get key) false = false)
    (hremote : differ (sides.lastSync key) (sides.remoteExtensions.get key) true = false)
    (hsame : (sides.lastSync key).isSome = (sides.localExtensions.get key).isSome)
    (hsame' : (sides.lastSync key).isSome = (sides.remoteExtensions.get key).isSome) :
    planned platform sides key = .nothing := by
  rw [planned]
  cases hl : sides.localExtensions.get key <;> cases hr : sides.remoteExtensions.get key <;>
    cases hb : sides.lastSync key <;> simp_all [differ]

theorem mergeSides_onKey {keyOfIdentifier : IExtensionIdentifier → String}
    (hkeyed : sides.Keyed keyOfIdentifier) (key : String) :
    (mergeSides platform sides).onKey keyOfIdentifier key = (plannedOrNothing
    platform sides key).onKey key ⟨[], [], [], sides.remoteExtensions.get key⟩ := by
  rw [mergeSides, plannedOrNothing, ← upToDate]
  cases hgate : upToDate sides with
  | true => simp [Merging.onKey, LocalChanges.none, KeyPlan.onKey_nothing]
  | false =>
    have htouches := KeyPlan.touches_run (planned_keyed platform hkeyed)
    have hbase := @baseToRemote_contains V sides _
    simp only [Bool.false_eq_true, if_false, Bool.false_or]
    rw [foldl_eq_of_mem (fun k hk => remotelyRemoved_eq platform hk),
      foldl_eq_of_mem (fun k hk => remotelyAdded_eq hk),
      foldl_eq_of_mem (fun k hk => remotelyUpdated_eq hk),
      foldl_eq_of_mem (fun k hk => locallyAdded_eq platform
        (hbase (mem_compare_added.1 hk).1).1 hk),
      foldl_eq_of_mem (fun k hk => locallyUpdated_eq (hbase (mem_compare_updated.1 hk).1).2.1
        (hbase (mem_compare_updated.1 hk).1).2.2 hk),
      foldl_eq_of_mem (fun k hk => locallyRemoved_eq platform
        (hbase (mem_compare_removed.1 hk).1).2.1 (hbase (mem_compare_removed.1 hk).1).2.2 hk),
      view_foldl (htouches.id _) compare_distinct.removed,
      view_foldl (htouches.id _) compare_distinct.updated,
      view_foldl (htouches.id _) compare_distinct.added,
      view_foldl htouches compare_distinct.updated, view_foldl htouches compare_distinct.added,
      view_foldl htouches compare_distinct.removed]
    have hstart : Merging.onKey keyOfIdentifier
        { LocalChanges.none with newRemoteExtensions := sides.remoteExtensions } key =
        (⟨[], [], [], sides.remoteExtensions.get key⟩ : OnKey V) := rfl
    simp only [hstart, mem_compare_added, mem_compare_removed, mem_compare_updated_iff_differ,
      getD_lastSync]
    by_cases hignored : key ∈ sides.ignoredExtensions
    · simp [hignored, KeyPlan.onKey_nothing]
    · obtain ⟨hadded, hremoved, hupdated⟩ := hbase hignored
      have hnothing := @planned_eq_nothing V platform sides _ key
      simp only [hignored, hadded, hremoved, hupdated, not_false_eq_true, true_and]
      generalize planned platform sides key = plan at hnothing
      cases hl : sides.localExtensions.get key <;> cases hr : sides.remoteExtensions.get key <;>
        cases hb : sides.lastSync key <;> simp_all [differ, KeyPlan.onKey_nothing]

end Plan

end CodeOss.UserDataSync.Extensions

/-! When the merge takes two extensions for the same, and what a merged extension is the
same as. -/

namespace CodeOss.UserDataSync.Extensions

variable {V : Type}

/-- The same entries, where a state that is not there has none. -/
def SameState (a b : Option (IStringDictionary V)) : Prop :=
  ∀ key, (a.getD .empty).get key = (b.getD .empty).get key

namespace SameState

variable {a b c : Option (IStringDictionary V)}

theorem refl (a : Option (IStringDictionary V)) : SameState a a := fun _ => rfl

theorem symm (h : SameState a b) : SameState b a := fun key => (h key).symm

theorem trans (h : SameState a b) (h' : SameState b c) : SameState a c :=
  fun key => (h key).trans (h' key)

end SameState

theorem get_foldl_copyState (remoteState : IStringDictionary V) (keys : List String) (start :
    IStringDictionary V) (k : String) : (keys.foldl (copyState remoteState) start).get k = if k ∈
    keys then (remoteState.get k).or (start.get k) else start.get k := by
  induction keys generalizing start with
  | nil => simp
  | cons key rest ih =>
    rw [foldl_cons, ih, copyState]
    by_cases hk : k = key
    · subst hk
      cases remoteState.get k <;> simp
    · cases remoteState.get key <;> simp [hk, JsMap.get_set]

theorem get_foldl_delete (kept : String → Bool) (keys : List String) (start : IStringDictionary V)
    (k : String) : (keys.foldl (fun state key => if kept key then state else state.delete key)
    start).get k = if k ∈ keys ∧ kept k = false then none else start.get k := by
  induction keys generalizing start with
  | nil => simp
  | cons key rest ih =>
    rw [foldl_cons, ih]
    by_cases hk : k = key
    · subst hk
      cases kept k <;> simp [JsMap.get_delete]
    · cases kept key <;> simp [hk, JsMap.get_delete]

variable [DecidableEq V] {platform : Platform}

theorem isSameExtensionState_iff {a b : Option (IStringDictionary V)} :
    isSameExtensionState a b = true ↔ SameState a b := by
  have hcompare := compareWith_describes (fun value1 value2 : V => decide (value1 = value2))
    (a.getD .empty) (b.getD .empty)
  rw [isSameExtensionState, compareExtensionState]
  refine ⟨fun h => hcompare.get_eq_of_isEmpty h, fun h => ?_⟩
  simp only [Comparison.isEmpty, Bool.and_eq_true, List.isEmpty_iff, eq_nil_iff_forall_not_mem,
    hcompare.mem_added, hcompare.mem_removed, hcompare.mem_updated_iff_ne, h _]
  refine ⟨⟨fun key hkey => ?_, fun key hkey => ?_⟩, fun key hkey => hkey.2.2 rfl⟩
  · rw [hkey.1] at hkey
    exact absurd hkey.2 (by simp)
  · rw [hkey.2] at hkey
    exact absurd hkey.1 (by simp)

theorem if_false_eq_true {c : Prop} [Decidable c] {x : Bool} :
    (if c then false else x) = true ↔ ¬ c ∧ x = true := by
  by_cases h : c <;> simp [h]

theorem areSame_iff {fromExtension toExtension : ISyncExtension V} {checkVersion checkInstalled} :
    areSame fromExtension toExtension checkVersion checkInstalled = true ↔
    fromExtension.disabled = toExtension.disabled ∧
    truthy fromExtension.isApplicationScoped = truthy toExtension.isApplicationScoped ∧
    (checkInstalled = true → fromExtension.installed = toExtension.installed) ∧
    (truthy fromExtension.installed = true → truthy toExtension.installed = true →
    fromExtension.preRelease = toExtension.preRelease ∧ fromExtension.pinned = toExtension.pinned ∧
    (truthy toExtension.pinned = true → fromExtension.version = toExtension.version)) ∧
    SameState fromExtension.state toExtension.state ∧
    (checkVersion = true → fromExtension.version = toExtension.version) := by
  simp only [areSame, if_false_eq_true, ← isSameExtensionState_iff, ne_eq, not_not,
    Bool.and_eq_true, Bool.or_eq_true, decide_eq_true_eq, not_and, not_or, Bool.not_eq_true',
    Bool.not_eq_false, and_true]
  refine and_congr_right fun _ => and_congr_right fun _ => and_congr_right fun _ =>
    and_congr ?_ Iff.rfl
  constructor
  · intro h hfrom hto
    have hflags := h ⟨hfrom, hto⟩
    exact ⟨hflags.1.1, hflags.1.2, hflags.2⟩
  · intro h hinstalled
    have hflags := h hinstalled.1 hinstalled.2
    exact ⟨⟨hflags.1, hflags.2.1⟩, hflags.2.2⟩

theorem areSame_refl (extension : ISyncExtension V) (checkVersion checkInstalled : Bool) :
    areSame extension extension checkVersion checkInstalled = true := by
  rw [areSame_iff]
  exact ⟨rfl, rfl, fun _ => rfl, fun _ _ => ⟨rfl, rfl, fun _ => rfl⟩, .refl _, fun _ => rfl⟩

theorem mergeStates_same {localState remoteState : IStringDictionary V}
    {baseState : Option (IStringDictionary V)}
    (h : SameState baseState (some remoteState) ∨ SameState (some localState) (some remoteState)) :
    SameState (some (mergeStates localState remoteState baseState)) (some localState) := by
  have hkeeps : ∀ (toRemote : Comparison) (kept : String → Bool),
      toRemote.Describes (fun value1 value2 => decide (value1 = value2))
        (baseState.getD .empty) remoteState → ∀ key,
      (toRemote.removed.foldl (fun state key => if kept key then state else state.delete key)
        ((toRemote.added ++ toRemote.updated).foldl (copyState remoteState) localState)).get key =
        localState.get key := by
    intro toRemote kept hdescribes key
    simp only [get_foldl_delete, get_foldl_copyState, List.mem_append, hdescribes.mem_added,
      hdescribes.mem_removed]
    have hupdated := hdescribes.mem_updated_iff_ne key
    rcases h with hbase | hsame
    · have hkey : (baseState.getD .empty).get key = remoteState.get key := hbase key
      rw [hkey] at hupdated ⊢
      cases hremote : remoteState.get key <;> simp [hupdated]
    · have hkey : localState.get key = remoteState.get key := hsame key
      rw [hkey]
      cases hremote : remoteState.get key <;> simp
  cases baseState with
  | none => exact hkeeps _ _ (Comparison.describes_allAdded _ remoteState)
  | some base => exact hkeeps _ _ (compareWith_describes _ base remoteState)

/-- The state a merge keeps where remote and base have the same one. -/
def preferredState (platform : Platform) (localExtension remoteExtension : ISyncExtension V) :
    Option (IStringDictionary V) :=
  if remoteExtension.version = "" then localExtension.state
  else if localExtension.state.isSome &&
      platform.gt localExtension.version remoteExtension.version then localExtension.state
  else if remoteExtension.state.isSome &&
      platform.gt remoteExtension.version localExtension.version then remoteExtension.state
  else localExtension.state.or remoteExtension.state

theorem mergeExtensionState_same (platform : Platform)
    {localExtension remoteExtension : ISyncExtension V}
    {lastSyncExtension : Option (ISyncExtension V)}
    (h : SameState (lastSyncExtension.bind ISyncExtension.state) remoteExtension.state ∨
      SameState localExtension.state remoteExtension.state) :
    SameState (mergeExtensionState platform localExtension remoteExtension lastSyncExtension)
      (preferredState platform localExtension remoteExtension) := by
  rw [mergeExtensionState, preferredState]
  split
  · exact .refl _
  · split
    · exact .refl _
    · split
      · exact .refl _
      · cases hlocal : localExtension.state with
        | none => exact .refl _
        | some localState =>
          cases hremote : remoteExtension.state with
          | none => exact .refl _
          | some remoteState =>
            rw [hlocal, hremote] at h
            exact mergeStates_same h

omit [DecidableEq V] in
theorem preferredState_same {localExtension remoteExtension : ISyncExtension V}
    (h : SameState localExtension.state remoteExtension.state) :
    SameState (preferredState platform localExtension remoteExtension) localExtension.state := by
  rw [preferredState]
  split
  · exact .refl _
  · split
    · exact .refl _
    · split
      · exact h.symm
      · cases hlocal : localExtension.state with
        | none => exact (hlocal ▸ h.symm :)
        | some localState => exact .refl _

theorem mergeExtension_pinned (platform : Platform) (sides : Sides V) (key : String) (localExtension
    remoteExtension preferred : ISyncExtension V) : (mergeExtension platform sides key
    localExtension remoteExtension preferred).pinned = (if truthy localExtension.installed then
    preferred else remoteExtension).pinned.or localExtension.pinned := by
  simp only [mergeExtension, mergePinned]
  cases (if truthy localExtension.installed then preferred else remoteExtension).pinned <;> simp

end CodeOss.UserDataSync.Extensions
