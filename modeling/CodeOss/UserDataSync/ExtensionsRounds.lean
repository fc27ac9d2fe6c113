import CodeOss.UserDataSync.ExtensionsQuiet

/-! The extensions merge on whole lists: what its result says about a key, and the lists
that the next merge starts from. -/

namespace CodeOss.UserDataSync.Extensions

open List

variable {V : Type}

def LocalChanges.applyTo (changes : LocalChanges V) (key : IExtensionIdentifier → String)
    (extensions : List (ISyncExtension V)) : List (ISyncExtension V) :=
  (extensions.filter fun e =>
    !(changes.removed.map key).contains (key e.identifier) &&
      !((changes.updated ++ changes.added).map fun e => key e.identifier).contains
        (key e.identifier)) ++
    changes.updated ++ changes.added

def MergeResult.newRemote (result : MergeResult V)
    (remoteExtensions : Option (List (ISyncExtension V))) : Option (List (ISyncExtension V)) :=
  match result.remoteChanges with
  | some changes => some changes.all
  | none => remoteExtensions

def Inputs.next (inputs : Inputs V) (result : MergeResult V) (key : IExtensionIdentifier → String)
    (remoteExtensions : Option (List (ISyncExtension V))) : Inputs V :=
  { inputs with
    localExtensions := result.localChanges.applyTo key inputs.localExtensions
    lastSyncExtensions := result.newRemote remoteExtensions }

theorem getLast?_filter_of_unique {α : Type} {p : α → Bool} {l : List α} {x : α} (hx : x ∈ l)
    (hp : p x = true) (hunique : ∀ y ∈ l, p y = true → y = x) : (l.filter p).getLast? = some x := by
  have hmem : x ∈ l.filter p := mem_filter.2 ⟨hx, hp⟩
  obtain ⟨y, hy⟩ := Option.isSome_iff_exists.1
    (getLast?_isSome.2 (ne_nil_of_mem hmem))
  have hy' := mem_filter.1 (mem_of_getLast? hy)
  rw [hy, hunique y hy'.1 hy'.2]

theorem filter_map_massageIncoming
    (p : IExtensionIdentifier → Bool) (extensions : List (ISyncExtension V)) :
    (extensions.map massageIncomingExtension).filter (fun e => p e.identifier) =
    (extensions.filter fun e => p e.identifier).map massageIncomingExtension := by
  rw [filter_map]
  rfl

variable {platform : Platform}

theorem get_toMap_massaged (uuids : JsMap String String) (extensions : List (ISyncExtension V))
    (k : String) : (toMap platform uuids (extensions.map massageIncomingExtension)).get k =
    ((extensions.filter fun e => getKey platform uuids e.identifier = k).getLast?).map
    massageIncomingExtension := by
  rw [get_toMap, filter_map_massageIncoming fun i => getKey platform uuids i = k, getLast?_map]

theorem massaged_massageIncoming (extension : ISyncExtension V) :
    Massaged (massageIncomingExtension extension) :=
  ⟨congrArg some (truthy_some _).symm, congrArg some (truthy_some _).symm⟩

namespace Inputs

variable {inputs : Inputs V} {remoteExtensions : List (ISyncExtension V)} {e : ISyncExtension V}

theorem local_mem (he : e ∈ inputs.localExtensions) :
    e.identifier ∈ inputs.identifiers remoteExtensions := by
  simp only [identifiers, List.mem_append]
  exact .inl (.inl (.inl (.inl (mem_map_of_mem he))))

theorem remote_mem (he : e ∈ remoteExtensions) :
    e.identifier ∈ inputs.identifiers remoteExtensions := by
  simp only [identifiers, List.mem_append]
  exact .inl (.inl (.inl (.inr (mem_map_of_mem he))))

theorem skipped_mem (he : e ∈ inputs.skippedExtensions) :
    e.identifier ∈ inputs.identifiers remoteExtensions := by
  simp only [identifiers, List.mem_append]
  exact .inl (.inr (mem_map_of_mem he))

theorem builtin_mem {i : IExtensionIdentifier} (hi : i ∈ inputs.lastSyncBuiltinExtensions.getD []) :
    i ∈ inputs.identifiers remoteExtensions := by
  simp only [identifiers, List.mem_append]
  exact .inr hi

end Inputs

section Sides

variable {inputs : Inputs V} {remoteExtensions : List (ISyncExtension V)} {key : String}
  {extension : ISyncExtension V}

theorem sides_localExtensions
    (h : (inputs.sides platform remoteExtensions).localExtensions.get key = some extension) :
    ∃ e ∈ inputs.localExtensions, massageIncomingExtension e = extension ∧
    getKey platform (inputs.uuids platform remoteExtensions) e.identifier = key := by
  obtain ⟨hmem, hkey⟩ := mem_of_get_toMap platform h
  obtain ⟨e, he, rfl⟩ := mem_map.1 hmem
  exact ⟨e, he, rfl, hkey⟩

theorem sides_remoteExtensions
    (h : (inputs.sides platform remoteExtensions).remoteExtensions.get key = some extension) :
    ∃ e ∈ remoteExtensions, massageIncomingExtension e = extension ∧
    getKey platform (inputs.uuids platform remoteExtensions) e.identifier = key := by
  obtain ⟨hmem, hkey⟩ := mem_of_get_toMap platform h
  obtain ⟨e, he, rfl⟩ := mem_map.1 hmem
  exact ⟨e, he, rfl, hkey⟩

theorem sides_keyed (platform : Platform) (inputs : Inputs V)
    (remoteExtensions : List (ISyncExtension V)) :
    (inputs.sides platform remoteExtensions).Keyed
      (getKey platform (inputs.uuids platform remoteExtensions)) where
  localKey k e h := by
    obtain ⟨e, -, rfl, hkey⟩ := sides_localExtensions h
    exact hkey
  remoteKey k e h := by
    obtain ⟨e, -, rfl, hkey⟩ := sides_remoteExtensions h
    exact hkey
  outgoing e := getKey_massageOutgoing fun _ _ => nonEmpty_of_get_uuidsOf

end Sides

section Result

variable [DecidableEq V] (platform : Platform) {sides : Sides V}
  {keyOf : IExtensionIdentifier → String}

section

variable (h : sides.Keyed keyOf)
include h

theorem filter_added (key : String) :
    (mergeSides platform sides).added.filter (fun e => keyOf e.identifier = key) =
      ((plannedOrNothing platform sides key).added.map (massageOutgoingExtension · key)).toList :=
  congrArg OnKey.added (mergeSides_onKey h key)

theorem filter_removed (key : String) : (mergeSides platform sides).removed.filter
    (fun i => keyOf i = key) = (plannedOrNothing platform sides key).removed.toList :=
  congrArg OnKey.removed (mergeSides_onKey h key)

theorem filter_updated (key : String) :
    (mergeSides platform sides).updated.filter (fun e => keyOf e.identifier = key) =
    ((plannedOrNothing platform sides key).updated.map (massageOutgoingExtension · key)).toList :=
  congrArg OnKey.updated (mergeSides_onKey h key)

theorem get_newRemote (key : String) : (mergeSides platform sides).newRemoteExtensions.get key =
    (plannedOrNothing platform sides key).remoteAfter (sides.remoteExtensions.get key) :=
  congrArg OnKey.newRemote (mergeSides_onKey h key)

end

theorem plannedOrNothing_about {about : IExtensionIdentifier → Prop} {key : String}
    (hlocal : ∀ e, sides.localExtensions.get key = some e → about e.identifier)
    (hremote : ∀ e, sides.remoteExtensions.get key = some e → about e.identifier) :
    (plannedOrNothing platform sides key).About about := by
  rw [plannedOrNothing]
  split
  · constructor <;> simp [KeyPlan.nothing]
  · exact planned_about platform hlocal hremote

theorem newRemote_about (h : sides.Keyed keyOf) {about : IExtensionIdentifier → Prop}
    {key : String} (hlocal : ∀ e, sides.localExtensions.get key = some e → about e.identifier)
    (hremote : ∀ e, sides.remoteExtensions.get key = some e → about e.identifier)
    {e : ISyncExtension V} (he : (mergeSides platform sides).newRemoteExtensions.get key = some e) :
    about e.identifier := by
  have habout := plannedOrNothing_about platform hlocal hremote
  rw [get_newRemote platform h, KeyPlan.remoteAfter] at he
  cases hplan : (plannedOrNothing platform sides key).remote with
  | keep => rw [hplan] at he; exact hremote e he
  | set x =>
    rw [hplan] at he
    cases he
    exact habout.remote _ hplan
  | delete => rw [hplan] at he; cases he

theorem mem_iff_of_filter {α : Type} {f : α → String} {l : List α} {x : α} {found : Option α}
    (h : l.filter (fun y => f y = f x) = found.toList) : x ∈ l ↔ found = some x := by
  have hmem : x ∈ l ↔ x ∈ l.filter fun y => f y = f x := by simp
  rw [hmem, h]
  cases found <;> simp [eq_comm]

variable {e : ISyncExtension V}

theorem mem_added (h : sides.Keyed keyOf) : e ∈ (mergeSides platform sides).added ↔
    (plannedOrNothing platform sides (keyOf e.identifier)).added.map
    (massageOutgoingExtension · (keyOf e.identifier)) = some e :=
  mem_iff_of_filter (filter_added platform h (keyOf e.identifier))

theorem mem_removed (h : sides.Keyed keyOf) {i : IExtensionIdentifier} : i ∈ (mergeSides platform
    sides).removed ↔ (plannedOrNothing platform sides (keyOf i)).removed = some i :=
  mem_iff_of_filter (filter_removed platform h (keyOf i))

theorem mem_updated (h : sides.Keyed keyOf) : e ∈ (mergeSides platform sides).updated ↔
    (plannedOrNothing platform sides (keyOf e.identifier)).updated.map
    (massageOutgoingExtension · (keyOf e.identifier)) = some e :=
  mem_iff_of_filter (filter_updated platform h (keyOf e.identifier))

theorem key_mem_iff_of_filter {α : Type} {f : α → String} {l : List α} {k : String}
    {found : Option α} (h : l.filter (fun y => f y = k) = found.toList) :
    (l.map f).contains k = found.isSome := by
  rw [Bool.eq_iff_iff, contains_iff_mem, mem_map]
  have hmem : (∃ y ∈ l, f y = k) ↔ ∃ y, y ∈ l.filter fun y => f y = k := by simp
  rw [hmem, h]
  cases found <;> simp

theorem getLast?_applyTo (h : sides.Keyed keyOf) (extensions : List (ISyncExtension V))
    (key : String) : ((((mergeSides platform sides).applyTo keyOf extensions).filter fun e
    => keyOf e.identifier = key).getLast?).map massageIncomingExtension = (plannedOrNothing platform
    sides key).localAfter key (((extensions.filter fun e => keyOf e.identifier = key).getLast?).map
    massageIncomingExtension) := by
  have hadded := filter_added platform h key
  have hremoved := filter_removed platform h key
  have hupdated := filter_updated platform h key
  have hkept : ∀ e : ISyncExtension V, keyOf e.identifier = key →
      (!((mergeSides platform sides).removed.map keyOf).contains (keyOf e.identifier) &&
        !(((mergeSides platform sides).updated ++ (mergeSides platform sides).added).map
          fun e => keyOf e.identifier).contains (keyOf e.identifier)) =
      ((plannedOrNothing platform sides key).removed.isNone &&
        (plannedOrNothing platform sides key).updated.isNone &&
        (plannedOrNothing platform sides key).added.isNone) := by
    intro e he
    rw [he, key_mem_iff_of_filter hremoved, map_append, contains_append,
      key_mem_iff_of_filter hupdated, key_mem_iff_of_filter hadded]
    cases (plannedOrNothing platform sides key).removed <;>
      cases (plannedOrNothing platform sides key).updated <;>
        cases (plannedOrNothing platform sides key).added <;> rfl
  have hfirst : ∀ (keep : ISyncExtension V → Bool) (c : Bool),
      (∀ e : ISyncExtension V, keyOf e.identifier = key → keep e = c) →
      (extensions.filter keep).filter (fun e => keyOf e.identifier = key) =
        if c then extensions.filter fun e => keyOf e.identifier = key else [] := by
    intro keep c hkeep
    rw [filter_filter]
    cases c with
    | true =>
      refine filter_congr fun e _ => ?_
      by_cases he : keyOf e.identifier = key <;> simp [he, hkeep]
    | false =>
      refine filter_eq_nil_iff.2 fun e _ => ?_
      by_cases he : keyOf e.identifier = key <;> simp [he, hkeep]
  rw [LocalChanges.applyTo, filter_append, filter_append, hfirst _ _ hkept, hupdated,
    hadded, KeyPlan.localAfter]
  cases (plannedOrNothing platform sides key).removed <;>
    cases (plannedOrNothing platform sides key).updated <;>
      cases (plannedOrNothing platform sides key).added <;>
        simp [settle]

omit [DecidableEq V] in
theorem localChanges_eq_none {changes : LocalChanges V}
    (hadded : ∀ e, e ∉ changes.added) (hremoved : ∀ i, i ∉ changes.removed)
    (hupdated : ∀ e, e ∉ changes.updated) : changes = .none := by
  obtain ⟨added, removed, updated⟩ := changes
  obtain rfl : added = [] := eq_nil_iff_forall_not_mem.2 hadded
  obtain rfl : removed = [] := eq_nil_iff_forall_not_mem.2 hremoved
  obtain rfl : updated = [] := eq_nil_iff_forall_not_mem.2 hupdated
  rfl

theorem planned_of_quiet
    {key : String} (hbase : sides.lastSync key = sides.remoteExtensions.get key)
    (hquiet : Quiet platform sides key) :
    (planned platform sides key).added = none ∧ (planned platform sides key).removed = none ∧
    (planned platform sides key).updated = none ∧ unchangedRemotely (sides.remoteExtensions.get key)
    ((planned platform sides key).remoteAfter (sides.remoteExtensions.get key)) := by
  rw [Quiet] at hquiet
  rw [planned, hbase]
  cases hl : sides.localExtensions.get key with
  | none =>
    cases hr : sides.remoteExtensions.get key with
    | none => exact ⟨rfl, rfl, rfl, trivial⟩
    | some r =>
      rw [hl, hr] at hquiet
      have hkept : (!sides.skippedExtensions.has key && truthy r.installed &&
          sides.wasInstalledDuringLastSync key r) = false := by
        rcases hquiet with h | h | h <;> simp [h]
      simp only [areSame_refl, hkept, if_true]
      exact ⟨rfl, rfl, rfl, areSame_refl r true true⟩
  | some l =>
    cases hr : sides.remoteExtensions.get key with
    | none => rw [hl, hr] at hquiet; exact hquiet.elim
    | some r =>
      rw [hl, hr] at hquiet
      simp only [areSame_refl, if_true]
      by_cases hsame : areSame r l false true = true
      · rw [if_pos hsame]
        exact ⟨rfl, rfl, rfl, areSame_refl r true true⟩
      · rw [if_neg hsame]
        exact ⟨rfl, rfl, rfl, hquiet.resolve_left hsame⟩

theorem resultOf_eq_nothing (h : sides.Keyed keyOf)
    (hbase : ∀ key, sides.lastSync key = sides.remoteExtensions.get key)
    (hquiet : ∀ key, key ∉ sides.ignoredExtensions → Quiet platform sides key) :
    resultOf sides (mergeSides platform sides) = ⟨.none, none⟩ := by
  have hplan : ∀ key, (plannedOrNothing platform sides key).added = none ∧
      (plannedOrNothing platform sides key).removed = none ∧
      (plannedOrNothing platform sides key).updated = none ∧
      unchangedRemotely (sides.remoteExtensions.get key)
        ((plannedOrNothing platform sides key).remoteAfter (sides.remoteExtensions.get key)) := by
    intro key
    rw [plannedOrNothing]
    by_cases hskip : (upToDate sides || sides.ignoredExtensions.contains key) = true
    · rw [if_pos hskip]
      refine ⟨rfl, rfl, rfl, ?_⟩
      cases hr : sides.remoteExtensions.get key with
      | none => trivial
      | some r => exact areSame_refl r true true
    · rw [if_neg hskip]
      rw [Bool.or_eq_true, not_or, contains_iff_mem] at hskip
      exact planned_of_quiet platform (hbase key) (hquiet key hskip.2)
  have hlocal : (mergeSides platform sides).toLocalChanges = .none := by
    refine localChanges_eq_none (fun e he => ?_) (fun i hi => ?_) (fun e he => ?_)
    · rw [mem_added platform h, (hplan _).1] at he
      cases he
    · rw [mem_removed platform h, (hplan _).2.1] at hi
      cases hi
    · rw [mem_updated platform h, (hplan _).2.2.1] at he
      cases he
  have hremote : (compare (some sides.remoteExtensions)
      (mergeSides platform sides).newRemoteExtensions [] true).isEmpty = true := by
    rw [compare_isEmpty]
    intro key _
    rw [get_newRemote platform h]
    exact (hplan key).2.2.2
  simp only [resultOf, hlocal, hremote, if_true]

theorem unchanged_of_remoteChanges_none (h : sides.Keyed keyOf)
    (hnone : (resultOf sides (mergeSides platform sides)).remoteChanges = none) (key : String) :
    unchangedRemotely (sides.remoteExtensions.get key)
      ((plannedOrNothing platform sides key).remoteAfter (sides.remoteExtensions.get key)) := by
  have hempty : (compare (some sides.remoteExtensions)
      (mergeSides platform sides).newRemoteExtensions [] true).isEmpty = true := by
    by_contra hempty
    simp only [resultOf, if_neg hempty] at hnone
    cases hnone
  rw [← get_newRemote platform h]
  exact compare_isEmpty.1 hempty key (by simp)

theorem mem_all {changes : RemoteChanges V}
    (hchanges : (resultOf sides (mergeSides platform sides)).remoteChanges = some changes) :
    e ∈ changes.all ↔ ∃ key x, (mergeSides platform sides).newRemoteExtensions.get key = some x ∧
    massageOutgoingExtension x key = e := by
  have hall : changes.all = (mergeSides platform sides).newRemoteExtensions.entries.map
      fun entry => massageOutgoingExtension entry.2 entry.1 := by
    simp only [resultOf] at hchanges
    split at hchanges
    · cases hchanges
    · cases hchanges
      rfl
  rw [hall, mem_map]
  constructor
  · rintro ⟨⟨key, x⟩, hmem, rfl⟩
    exact ⟨key, x, JsMap.mem_entries.1 hmem, rfl⟩
  · rintro ⟨key, x, hget, rfl⟩
    exact ⟨(key, x), JsMap.mem_entries.2 hget, rfl⟩

end Result

section Next

variable {inputs : Inputs V} {remoteExtensions nextRemote : List (ISyncExtension V)}

variable {x : ISyncExtension V} {key : String} {e : ISyncExtension V}

theorem named_massageOutgoing {identifiers : List IExtensionIdentifier}
    (h : Named (uuidsOf platform identifiers).get platform x.identifier) :
    Named (uuidsOf platform identifiers).get platform (massageOutgoingExtension x
      (getKey platform (uuidsOf platform identifiers) x.identifier)).identifier := by
  intro u huuid
  rw [getKey_of_named h, massageOutgoingExtension, Names.uuidOfKey_idKey] at huuid
  exact (nonEmpty_eq_some.1 huuid).1

/-- The identifiers in the maps of a merge: known by their uuid, and under their key. -/
def Filed (platform : Platform) (inputs : Inputs V) (remoteExtensions : List (ISyncExtension V))
    (key : String) (i : IExtensionIdentifier) : Prop :=
  Named (inputs.uuids platform remoteExtensions).get platform i ∧
    getKey platform (inputs.uuids platform remoteExtensions) i = key

section

variable (hnamed : ∀ i ∈ inputs.identifiers remoteExtensions,
  Named (inputs.uuids platform remoteExtensions).get platform i)
include hnamed

theorem filed_local
    (h : (inputs.sides platform remoteExtensions).localExtensions.get key = some e) :
    Filed platform inputs remoteExtensions key e.identifier := by
  obtain ⟨e, he, rfl, hkey⟩ := sides_localExtensions h
  exact ⟨hnamed e.identifier (Inputs.local_mem he), hkey⟩

theorem filed_remote
    (h : (inputs.sides platform remoteExtensions).remoteExtensions.get key = some e) :
    Filed platform inputs remoteExtensions key e.identifier := by
  obtain ⟨e, he, rfl, hkey⟩ := sides_remoteExtensions h
  exact ⟨hnamed e.identifier (Inputs.remote_mem he), hkey⟩

end

theorem Filed.massageOutgoing (h : Filed platform inputs remoteExtensions key x.identifier) :
    Filed platform inputs remoteExtensions key (massageOutgoingExtension x key).identifier := by
  obtain ⟨hnamed, rfl⟩ := h
  exact ⟨named_massageOutgoing hnamed, getKey_massageOutgoing fun _ _ => nonEmpty_of_get_uuidsOf⟩

variable [DecidableEq V]

section

variable (hnamed : ∀ i ∈ inputs.identifiers remoteExtensions,
  Named (inputs.uuids platform remoteExtensions).get platform i)
include hnamed

theorem named_applyTo
    (he : e ∈ (merge platform inputs (some remoteExtensions)).localChanges.applyTo
    (getKey platform (inputs.uuids platform remoteExtensions)) inputs.localExtensions) :
    Named (inputs.uuids platform remoteExtensions).get platform e.identifier := by
  have hkeyed := sides_keyed platform inputs remoteExtensions
  have habout := fun key => @plannedOrNothing_about V _ platform
    (inputs.sides platform remoteExtensions) (Filed platform inputs remoteExtensions key) key
    (fun _ => filed_local hnamed) (fun _ => filed_remote hnamed)
  rw [LocalChanges.applyTo, List.mem_append, List.mem_append] at he
  rcases he with (he | he) | he
  · exact hnamed e.identifier (Inputs.local_mem (mem_filter.1 he).1)
  · obtain ⟨x, hx, hmassaged⟩ := Option.map_eq_some_iff.1 ((mem_updated platform hkeyed).1 he)
    have hfiled := ((habout _).updated x hx).massageOutgoing
    rw [hmassaged] at hfiled
    exact hfiled.1
  · obtain ⟨x, hx, hmassaged⟩ := Option.map_eq_some_iff.1 ((mem_added platform hkeyed).1 he)
    have hfiled := ((habout _).added x hx).massageOutgoing
    rw [hmassaged] at hfiled
    exact hfiled.1

theorem filed_newRemote
    (hget : (mergeSides platform (inputs.sides platform remoteExtensions)).newRemoteExtensions.get
    key = some x) :
    Filed platform inputs remoteExtensions key (massageOutgoingExtension x key).identifier :=
  (newRemote_about platform (sides_keyed platform inputs remoteExtensions)
    (fun _ => filed_local hnamed) (fun _ => filed_remote hnamed) hget).massageOutgoing

end

theorem filed_all (hnamed : ∀ i ∈ inputs.identifiers remoteExtensions,
    Named (inputs.uuids platform remoteExtensions).get platform i) {changes : RemoteChanges V}
    (hchanges : (merge platform inputs (some remoteExtensions)).remoteChanges = some changes)
    {e : ISyncExtension V} (he : e ∈ changes.all) : ∃ key x,
    (mergeSides platform (inputs.sides platform remoteExtensions)).newRemoteExtensions.get key =
    some x ∧ massageOutgoingExtension x key = e ∧
    Filed platform inputs remoteExtensions key e.identifier := by
  obtain ⟨key, x, hget, rfl⟩ := (mem_all platform hchanges).1 he
  exact ⟨key, x, hget, rfl, filed_newRemote hnamed hget⟩

theorem named_next (hnamed : ∀ i ∈ inputs.identifiers remoteExtensions,
    Named (inputs.uuids platform remoteExtensions).get platform i)
    (hnext : (merge platform inputs (some remoteExtensions)).newRemote (some remoteExtensions) =
    some nextRemote) : ∀ i ∈ (inputs.next (merge platform inputs (some remoteExtensions))
    (getKey platform (inputs.uuids platform remoteExtensions)) (some remoteExtensions)).identifiers
    nextRemote, Named (inputs.uuids platform remoteExtensions).get platform i := by
  have hremote : ∀ e ∈ nextRemote,
      Named (inputs.uuids platform remoteExtensions).get platform e.identifier := by
    intro e he
    cases hchanges : (merge platform inputs (some remoteExtensions)).remoteChanges with
    | none =>
      rw [MergeResult.newRemote, hchanges] at hnext
      cases hnext
      exact hnamed e.identifier (Inputs.remote_mem he)
    | some changes =>
      rw [MergeResult.newRemote, hchanges] at hnext
      cases hnext
      obtain ⟨_, _, _, _, hfiled⟩ := filed_all hnamed hchanges he
      exact hfiled.1
  intro i hi
  simp only [Inputs.identifiers, Inputs.next, hnext, Option.getD_some, List.mem_append] at hi
  rcases hi with (((hi | hi) | hi) | hi) | hi
  · obtain ⟨e, he, rfl⟩ := mem_map.1 hi
    exact named_applyTo hnamed he
  · obtain ⟨e, he, rfl⟩ := mem_map.1 hi
    exact hremote e he
  · obtain ⟨e, he, rfl⟩ := mem_map.1 hi
    exact hremote e he
  · obtain ⟨e, he, rfl⟩ := mem_map.1 hi
    exact hnamed e.identifier (Inputs.skipped_mem he)
  · exact hnamed i (Inputs.builtin_mem hi)

end Next

end CodeOss.UserDataSync.Extensions
