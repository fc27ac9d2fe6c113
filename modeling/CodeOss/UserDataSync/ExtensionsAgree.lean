import CodeOss.UserDataSync.ExtensionsLaws

/-! The extensions merge as a whole: the lists it returns, and agreement in one round. -/

namespace CodeOss.UserDataSync.Extensions

open List

variable {V : Type} [DecidableEq V] {platform : Platform}

section Plan

variable {sides : Sides V} {key : String}

structure Dropped (sides : Sides V) (key : String) : Prop where
  notLocal : sides.localExtensions.get key = none
  notSkipped : sides.skippedExtensions.has key = false
  unchanged : ∃ remoteExtension baseExtension,
    sides.remoteExtensions.get key = some remoteExtension ∧
    sides.lastSync key = some baseExtension ∧
    areSame baseExtension remoteExtension true true = true ∧
    sides.wasInstalledDuringLastSync key baseExtension = true

theorem planned_cases : planned platform sides key = .nothing ∨
    (sides.localExtensions.get key = none ∧
      ∃ e, planned platform sides key = .addLocally e) ∨
    (∃ l, sides.localExtensions.get key = some l ∧
      planned platform sides key = .removeLocally l.identifier) ∨
    (∃ l e update, sides.localExtensions.get key = some l ∧
      planned platform sides key = { KeyPlan.setRemote e with updated := update }) ∨
    (Dropped sides key ∧ planned platform sides key = .deleteRemote) := by
  rw [planned]
  cases hl : sides.localExtensions.get key with
  | none =>
    cases hr : sides.remoteExtensions.get key with
    | none => exact .inl rfl
    | some r =>
      cases hb : sides.lastSync key with
      | none =>
        dsimp only
        split
        · exact .inr (.inl ⟨rfl, r, rfl⟩)
        · exact .inl rfl
      | some b =>
        dsimp only
        split
        · next hsame =>
            split
            · next hdelete =>
                simp only [Bool.and_eq_true, Bool.not_eq_true'] at hdelete
                exact .inr (.inr (.inr (.inr
                  ⟨⟨hl, hdelete.1.1, r, b, hr, hb, hsame, hdelete.2⟩, rfl⟩)))
            · exact .inl rfl
        · split
          · exact .inr (.inl ⟨rfl, r, rfl⟩)
          · exact .inl rfl
  | some l =>
    cases hr : sides.remoteExtensions.get key with
    | none =>
      cases hb : sides.lastSync key with
      | none => exact .inr (.inr (.inr (.inl ⟨l, l, none, rfl, rfl⟩)))
      | some b =>
        dsimp only
        split
        · exact .inr (.inr (.inl ⟨l, rfl, rfl⟩))
        · exact .inr (.inr (.inr (.inl ⟨l, l, none, rfl, rfl⟩)))
    | some r =>
      cases hb : sides.lastSync key with
      | none =>
        dsimp only
        split
        · exact .inl rfl
        · exact .inr (.inr (.inr (.inl ⟨l, _, _, rfl, rfl⟩)))
      | some b =>
        dsimp only
        split
        · split
          · exact .inl rfl
          · exact .inr (.inr (.inr (.inl ⟨l, _, none, rfl, rfl⟩)))
        · split
          · exact .inr (.inr (.inl ⟨l, rfl, rfl⟩))
          · exact .inr (.inr (.inr (.inl ⟨l, _, _, rfl, rfl⟩)))

theorem plannedOrNothing_spec (platform : Platform) (sides : Sides V) (key : String) :
    let plan := plannedOrNothing platform sides key
    (plan.added.isSome = true → sides.localExtensions.get key = none ∧ plan.removed = none ∧
      plan.updated = none) ∧
    (plan.removed.isSome = true → (sides.localExtensions.get key).isSome = true ∧
      plan.updated = none) ∧
    (plan.updated.isSome = true → (sides.localExtensions.get key).isSome = true) ∧
    (plan.remoteAfter (sides.remoteExtensions.get key) = none →
      (sides.remoteExtensions.get key).isSome = true → Dropped sides key) := by
  intro plan
  by_cases hskip : (upToDate sides || sides.ignoredExtensions.contains key) = true
  · have hplan : plan = .nothing := if_pos hskip
    rw [hplan]
    simp +contextual [KeyPlan.nothing, KeyPlan.remoteAfter]
  · have hplan : plan = planned platform sides key := if_neg hskip
    rw [hplan]
    rcases @planned_cases V _ platform sides key with
      h | ⟨hl, e, h⟩ | ⟨l, hl, h⟩ | ⟨l, e, update, hl, h⟩ | ⟨hdropped, h⟩
    · simp +contextual [h, KeyPlan.nothing, KeyPlan.remoteAfter]
    · simp +contextual [h, hl, KeyPlan.addLocally, KeyPlan.remoteAfter]
    · simp +contextual [h, hl, KeyPlan.removeLocally, KeyPlan.remoteAfter]
    · simp +contextual [h, hl, KeyPlan.setRemote, KeyPlan.remoteAfter]
    · simp [h, hdropped, KeyPlan.deleteRemote, KeyPlan.remoteAfter]

end Plan

structure Lawful (inputs : Inputs V) (remoteExtensions newRemote : List (ISyncExtension V))
    (sides : Sides V) (key : IExtensionIdentifier → String) (changes : LocalChanges V) : Prop where
  added_removed : ∀ e ∈ changes.added, ∀ i ∈ changes.removed, key e.identifier ≠ key i
  added_updated : ∀ e ∈ changes.added, ∀ e' ∈ changes.updated, key e.identifier ≠ key e'.identifier
  removed_updated : ∀ i ∈ changes.removed, ∀ e ∈ changes.updated, key i ≠ key e.identifier
  added_new : ∀ e ∈ changes.added, ∀ l ∈ inputs.localExtensions, key l.identifier ≠ key e.identifier
  removed_local : ∀ i ∈ changes.removed, ∃ l ∈ inputs.localExtensions, key l.identifier = key i
  updated_local : ∀ e ∈ changes.updated, ∃ l ∈ inputs.localExtensions,
    key l.identifier = key e.identifier
  added_ignored : ∀ e ∈ changes.added, key e.identifier ∉ sides.ignoredExtensions
  removed_ignored : ∀ i ∈ changes.removed, key i ∉ sides.ignoredExtensions
  updated_ignored : ∀ e ∈ changes.updated, key e.identifier ∉ sides.ignoredExtensions
  ignored_remote : ∀ r ∈ remoteExtensions, key r.identifier ∈ sides.ignoredExtensions →
    (∃ r' ∈ newRemote, key r'.identifier = key r.identifier) ∧
      ∀ r' ∈ newRemote, key r'.identifier = key r.identifier → r' = r ∨
        r' = massageOutgoingExtension (massageIncomingExtension r) (key r.identifier)
  dropped : ∀ r ∈ remoteExtensions, (∀ r' ∈ newRemote, key r'.identifier ≠ key r.identifier) →
    Dropped sides (key r.identifier)

section Lists

variable {inputs : Inputs V} {remoteExtensions newRemote : List (ISyncExtension V)}

omit [DecidableEq V] in
theorem sides_local_isSome {k : String} :
    ((inputs.sides platform remoteExtensions).localExtensions.get k).isSome = true ↔
    ∃ l ∈ inputs.localExtensions,
    getKey platform (inputs.uuids platform remoteExtensions) l.identifier = k := by
  have hhas := @has_toMap V platform (inputs.uuids platform remoteExtensions)
    (inputs.localExtensions.map massageIncomingExtension) k
  rw [JsMap.has] at hhas
  refine hhas.trans ?_
  simp [massageIncomingExtension]

theorem newRemote_keyed {sides : Sides V} {keyOf : IExtensionIdentifier → String}
    (h : sides.Keyed keyOf) {key : String} {x : ISyncExtension V}
    (hget : (mergeSides platform sides).newRemoteExtensions.get key = some x) :
    keyOf (massageOutgoingExtension x key).identifier = key := by
  have hkey := @newRemote_about V _ platform sides keyOf h (fun i => keyOf i = key) key
    (h.localKey key) (h.remoteKey key) x hget
  have hout := h.outgoing x
  rwa [hkey] at hout

theorem merge_lawful (hdistinct : (remoteExtensions.map fun e => getKey platform
    (inputs.uuids platform remoteExtensions) e.identifier).Nodup)
    (hnew : (merge platform inputs (some remoteExtensions)).newRemote (some remoteExtensions) = some
    newRemote) : Lawful inputs remoteExtensions newRemote (inputs.sides platform remoteExtensions)
    (getKey platform (inputs.uuids platform remoteExtensions))
    (merge platform inputs (some remoteExtensions)).localChanges := by
  have hkeyed := sides_keyed platform inputs remoteExtensions
  have hspec := plannedOrNothing_spec platform (inputs.sides platform remoteExtensions)
  have hignored : ∀ k ∈ (inputs.sides platform remoteExtensions).ignoredExtensions,
      plannedOrNothing platform (inputs.sides platform remoteExtensions) k = .nothing := by
    intro k hk
    rw [plannedOrNothing, contains_iff_mem.2 hk, Bool.or_true, if_pos rfl]
  have hadded : ∀ e ∈ (merge platform inputs (some remoteExtensions)).localChanges.added, _ :=
    fun e he => Option.isSome_map.symm.trans
      (Option.isSome_iff_exists.2 ⟨e, (mem_added platform hkeyed).1 he⟩)
  have hremoved : ∀ i ∈ (merge platform inputs (some remoteExtensions)).localChanges.removed, _ :=
    fun i hi => Option.isSome_iff_exists.2 ⟨i, (mem_removed platform hkeyed).1 hi⟩
  have hupdated : ∀ e ∈ (merge platform inputs (some remoteExtensions)).localChanges.updated, _ :=
    fun e he => Option.isSome_map.symm.trans
      (Option.isSome_iff_exists.2 ⟨e, (mem_updated platform hkeyed).1 he⟩)
  have hmassaged : ((remoteExtensions.map massageIncomingExtension).map fun e =>
      getKey platform (inputs.uuids platform remoteExtensions) e.identifier).Nodup := by
    rw [List.map_map]
    exact hdistinct
  constructor
  · intro e he i hi heq
    have hnone := ((hspec _).1 (hadded e he)).2.1
    rw [heq] at hnone
    exact Option.isSome_iff_ne_none.1 (hremoved i hi) hnone
  · intro e he e' he' heq
    have hnone := ((hspec _).1 (hadded e he)).2.2
    rw [heq] at hnone
    exact Option.isSome_iff_ne_none.1 (hupdated e' he') hnone
  · intro i hi e he heq
    have hnone := ((hspec _).2.1 (hremoved i hi)).2
    rw [heq] at hnone
    exact Option.isSome_iff_ne_none.1 (hupdated e he) hnone
  · intro e he l hl hkey
    have hsome := sides_local_isSome.2 ⟨l, hl, hkey⟩
    rw [((hspec _).1 (hadded e he)).1] at hsome
    cases hsome
  · exact fun i hi => sides_local_isSome.1 ((hspec _).2.1 (hremoved i hi)).1
  · exact fun e he => sides_local_isSome.1 ((hspec _).2.2.1 (hupdated e he))
  · intro e he hk
    have hsome := hadded e he
    rw [hignored _ hk] at hsome
    cases hsome
  · intro i hi hk
    have hsome := hremoved i hi
    rw [hignored _ hk] at hsome
    cases hsome
  · intro e he hk
    have hsome := hupdated e he
    rw [hignored _ hk] at hsome
    cases hsome
  · intro r hr hk
    have hget : (mergeSides platform (inputs.sides platform remoteExtensions)).newRemoteExtensions.get
        (getKey platform (inputs.uuids platform remoteExtensions) r.identifier) =
        some (massageIncomingExtension r) := by
      rw [get_newRemote platform hkeyed, hignored _ hk]
      exact get_toMap_of_mem platform hmassaged (mem_map_of_mem hr)
    cases hchanges : (merge platform inputs (some remoteExtensions)).remoteChanges with
    | none =>
      rw [MergeResult.newRemote, hchanges] at hnew
      cases hnew
      exact ⟨⟨r, hr, rfl⟩, fun r' hr' hkey => .inl (inj_on_of_nodup_map hdistinct hr' hr hkey)⟩
    | some changes =>
      rw [MergeResult.newRemote, hchanges] at hnew
      cases hnew
      refine ⟨⟨_, (mem_all platform hchanges).2 ⟨_, _, hget, rfl⟩, newRemote_keyed hkeyed hget⟩,
        fun r' hr' hkey => .inr ?_⟩
      obtain ⟨k, x, hx, rfl⟩ := (mem_all platform hchanges).1 hr'
      rw [newRemote_keyed hkeyed hx] at hkey
      subst hkey
      rw [hget] at hx
      cases hx
      rfl
  · intro r hr hgone
    cases hchanges : (merge platform inputs (some remoteExtensions)).remoteChanges with
    | none =>
      rw [MergeResult.newRemote, hchanges] at hnew
      cases hnew
      exact absurd rfl (hgone r hr)
    | some changes =>
      rw [MergeResult.newRemote, hchanges] at hnew
      cases hnew
      have hremote := get_toMap_of_mem platform hmassaged (mem_map_of_mem hr)
      refine (hspec _).2.2.2 ?_ (Option.isSome_iff_exists.2 ⟨_, hremote⟩)
      rw [← get_newRemote platform hkeyed]
      refine Option.eq_none_iff_forall_ne_some.2 fun x hx => ?_
      exact hgone _ ((mem_all platform hchanges).2 ⟨_, x, hx, rfl⟩) (newRemote_keyed hkeyed hx)

/-- What is uploaded where nothing has been synced yet. -/
def uploaded (platform : Platform) (inputs : Inputs V) : List (ISyncExtension V) :=
  inputs.localExtensions.filter fun extension =>
    inputs.ignoredExtensions.all fun id =>
      platform.toLowerCase id ≠ platform.toLowerCase extension.identifier.id

omit [DecidableEq V] in
theorem applyTo_none (key : IExtensionIdentifier → String) (extensions : List (ISyncExtension V)) :
    LocalChanges.none.applyTo key extensions = extensions := by
  simp [LocalChanges.applyTo, LocalChanges.none]

omit [DecidableEq V] in
theorem get_uploaded
    (hidentified : Identified platform (inputs.identifiers (uploaded platform inputs)))
    {key : String}
    (hkey : key ∉ (inputs.sides platform (uploaded platform inputs)).ignoredExtensions) :
    (inputs.sides platform (uploaded platform inputs)).remoteExtensions.get key =
    (inputs.sides platform (uploaded platform inputs)).localExtensions.get key := by
  have hlocal : (inputs.sides platform (uploaded platform inputs)).localExtensions.get key = _ :=
    get_toMap_massaged _ _ _
  have hremote : (inputs.sides platform (uploaded platform inputs)).remoteExtensions.get key = _ :=
    get_toMap_massaged _ _ _
  rw [hlocal, hremote, uploaded, filter_filter]
  congr 2
  refine filter_congr fun e he => ?_
  by_cases hfound : getKey platform (inputs.uuids platform (uploaded platform inputs))
      e.identifier = key
  · have hall : (inputs.ignoredExtensions.all fun id =>
        platform.toLowerCase id ≠ platform.toLowerCase e.identifier.id) = true := by
      rw [all_eq_true]
      intro id hid
      refine decide_eq_true fun heq => hkey (mem_map.2 ⟨id, hid, ?_⟩)
      rw [← hfound, Inputs.uuids, ignoredKey_eq, heq]
      exact (hidentified.names.getKey_eq (Inputs.local_mem he)).symm
    rw [hall, Bool.and_true]
  · simp [uploaded] at hfound
    simp [hfound]

theorem merge_uploaded
    (hidentified : Identified platform (inputs.identifiers (uploaded platform inputs)))
    (hbase : inputs.lastSyncExtensions = some (uploaded platform inputs)) :
    merge platform inputs (some (uploaded platform inputs)) = ⟨.none, none⟩ := by
  refine resultOf_eq_nothing platform (sides_keyed platform _ _) (fun key => ?_)
    fun key hkey => ?_
  · have hlast : (inputs.sides platform (uploaded platform inputs)).lastSyncExtensions =
        inputs.lastSyncExtensions.map fun extensions => toMap platform
          (inputs.uuids platform (uploaded platform inputs))
          (extensions.map massageIncomingExtension) := rfl
    rw [Sides.lastSync, hlast, hbase]
    rfl
  · rw [Quiet, get_uploaded hidentified hkey]
    cases (inputs.sides platform (uploaded platform inputs)).localExtensions.get key with
    | none => trivial
    | some l => exact .inl (areSame_refl l false true)

theorem merge_none : merge platform inputs none = ⟨.none, if 0 < (uploaded platform inputs).length
    then some ⟨uploaded platform inputs, [], [], uploaded platform inputs⟩ else none⟩ := rfl

theorem merge_after_upload (hidentified : Identified platform (inputs.identifiers [])) : merge
    platform (inputs.next (merge platform inputs none) (getKey platform (inputs.uuids platform []))
    none) ((merge platform inputs none).newRemote none) = ⟨.none, none⟩ := by
  have hnext : inputs.next (merge platform inputs none)
      (getKey platform (inputs.uuids platform [])) none =
      { inputs with lastSyncExtensions := (merge platform inputs none).newRemote none } := by
    simp only [Inputs.next, merge, applyTo_none]
  rw [hnext]
  by_cases hempty : 0 < (uploaded platform inputs).length
  · have hnew : (merge platform inputs none).newRemote none = some (uploaded platform inputs) := by
      simp only [merge_none, if_pos hempty, MergeResult.newRemote]
    rw [hnew]
    have hsubset : ∀ i ∈ Inputs.identifiers
        { inputs with lastSyncExtensions := some (uploaded platform inputs) }
        (uploaded platform inputs), i ∈ inputs.identifiers [] := by
      have huploaded : ∀ i ∈ (uploaded platform inputs).map (·.identifier),
          i ∈ inputs.identifiers [] := by
        intro i hi
        obtain ⟨e, he, rfl⟩ := mem_map.1 hi
        exact Inputs.local_mem (mem_filter.1 he).1
      intro i hi
      simp only [Inputs.identifiers, Option.getD_some, List.mem_append] at hi
      rcases hi with (((hi | hi) | hi) | hi) | hi
      · obtain ⟨e, he, rfl⟩ := mem_map.1 hi
        exact Inputs.local_mem he
      · exact huploaded i hi
      · exact huploaded i hi
      · obtain ⟨e, he, rfl⟩ := mem_map.1 hi
        exact Inputs.skipped_mem he
      · exact Inputs.builtin_mem hi
    exact merge_uploaded (fun i hi j hj => hidentified i (hsubset i hi) j (hsubset j hj)) rfl
  · have hnew : (merge platform inputs none).newRemote none = none := by
      simp only [merge_none, if_neg hempty, MergeResult.newRemote]
    rw [hnew, merge_none]
    exact congrArg (MergeResult.mk _) (if_neg hempty)

end Lists

def samplePlatform : Platform := ⟨id, fun a b => decide (b < a)⟩

theorem samplePlatform_asymm (a b : String) (h : samplePlatform.gt a b = true) :
    samplePlatform.gt b a = false :=
  decide_eq_false (lt_asymm (of_decide_eq_true h))

def sampleExtension (id : String) (uuid : Option String) (version : String)
    (flag : Option Bool) : ISyncExtension Nat :=
  ⟨⟨id, uuid⟩, version, flag, flag, none, some true, none, none⟩

def sampleInputs (localExtensions : List (ISyncExtension Nat))
    (lastSyncExtensions : Option (List (ISyncExtension Nat))) (ignoredExtensions : List String) :
    Inputs Nat :=
  ⟨localExtensions, lastSyncExtensions, [], ignoredExtensions, none⟩

def AgreesAgain (inputs : Inputs Nat) (remoteExtensions : List (ISyncExtension Nat)) : Prop :=
  let again := merge samplePlatform (nextInputs samplePlatform inputs remoteExtensions)
    ((merge samplePlatform inputs (some remoteExtensions)).newRemote (some remoteExtensions))
  again.localChanges.added = [] ∧ again.localChanges.removed = [] ∧
    again.localChanges.updated = [] ∧ again.remoteChanges.isSome = false

end CodeOss.UserDataSync.Extensions
