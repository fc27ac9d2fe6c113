import CodeOss.UserDataSync.ExtensionsRounds

/-! What an extensions merge proposes, and when a second merge has nothing to propose. -/

namespace CodeOss.UserDataSync.Extensions

variable {V : Type} [DecidableEq V] {platform : Platform} {inputs : Inputs V}
  {remoteExtensions nextRemote : List (ISyncExtension V)}

section Next

abbrev nextInputs (platform : Platform) (inputs : Inputs V)
    (remoteExtensions : List (ISyncExtension V)) : Inputs V :=
  inputs.next (merge platform inputs (some remoteExtensions))
    (getKey platform (inputs.uuids platform remoteExtensions)) (some remoteExtensions)

abbrev nextSides (platform : Platform) (inputs : Inputs V)
    (remoteExtensions nextRemote : List (ISyncExtension V)) : Sides V :=
  (nextInputs platform inputs remoteExtensions).sides platform nextRemote

/-- The keys of the id `a` in a merge and in the next one. -/
abbrev keyNow (platform : Platform) (inputs : Inputs V)
    (remoteExtensions : List (ISyncExtension V)) (a : String) : String :=
  idKey (inputs.uuids platform remoteExtensions) a

abbrev keyNext (platform : Platform) (inputs : Inputs V)
    (remoteExtensions nextRemote : List (ISyncExtension V)) (a : String) : String :=
  idKey ((nextInputs platform inputs remoteExtensions).uuids platform nextRemote) a

/-- A merge that tells extensions apart by id, and the remote list after it. -/
structure Round (platform : Platform) (inputs : Inputs V)
    (remoteExtensions nextRemote : List (ISyncExtension V)) : Prop where
  names : Names platform (inputs.uuids platform remoteExtensions).get
    (inputs.identifiers remoteExtensions)
  newRemote : (merge platform inputs (some remoteExtensions)).newRemote (some remoteExtensions) =
    some nextRemote

namespace Round

variable (h : Round platform inputs remoteExtensions nextRemote)

include h

theorem names_next : Names platform (inputs.uuids platform remoteExtensions).get
    ((nextInputs platform inputs remoteExtensions).identifiers nextRemote) :=
  ⟨named_next h.names.named h.newRemote, h.names.injective⟩

variable {i : IExtensionIdentifier} {a : String}

theorem getKey_now (hi : Named (inputs.uuids platform remoteExtensions).get platform i) :
    getKey platform (inputs.uuids platform remoteExtensions) i =
      keyNow platform inputs remoteExtensions a ↔ platform.toLowerCase i.id = a := by
  rw [Inputs.uuids, getKey_of_named hi]
  exact ⟨h.names.idKey_injective, fun ha => by rw [ha]; rfl⟩

section

variable (hi : i ∈ (nextInputs platform inputs remoteExtensions).identifiers nextRemote)
include hi

theorem getKey_next :
    getKey platform ((nextInputs platform inputs remoteExtensions).uuids platform nextRemote) i =
      keyNext platform inputs remoteExtensions nextRemote a ↔ platform.toLowerCase i.id = a := by
  rw [Inputs.uuids, h.names_next.getKey_eq hi]
  exact ⟨h.names_next.idKey_injective, fun ha => by rw [ha]; rfl⟩

theorem getKey_iff : getKey platform ((nextInputs platform inputs remoteExtensions).uuids
    platform nextRemote) i = keyNext platform inputs remoteExtensions nextRemote a ↔ getKey platform
    (inputs.uuids platform remoteExtensions) i = keyNow platform inputs remoteExtensions a := by
  rw [h.getKey_next hi, h.getKey_now (h.names_next.named i hi)]

end

theorem filter_next {extensions : List (ISyncExtension V)} (hmem : ∀ e ∈ extensions, e.identifier ∈
    (nextInputs platform inputs remoteExtensions).identifiers nextRemote) (a : String) :
    (extensions.filter fun e => getKey platform ((nextInputs platform inputs remoteExtensions).uuids
    platform nextRemote) e.identifier = keyNext platform inputs remoteExtensions nextRemote a) =
    extensions.filter fun e => getKey platform (inputs.uuids platform remoteExtensions)
    e.identifier = keyNow platform inputs remoteExtensions a :=
  List.filter_congr fun e he => decide_eq_decide.2 (h.getKey_iff (hmem e he))

theorem nextLocal (a : String) :
    (nextSides platform inputs remoteExtensions nextRemote).localExtensions.get
    (keyNext platform inputs remoteExtensions nextRemote a) = (plannedOrNothing platform
    (inputs.sides platform remoteExtensions) (keyNow platform inputs remoteExtensions a)).localAfter
    (keyNow platform inputs remoteExtensions a) ((inputs.sides platform
    remoteExtensions).localExtensions.get (keyNow platform inputs remoteExtensions a)) := by
  have hlocal : (inputs.sides platform remoteExtensions).localExtensions.get
      (keyNow platform inputs remoteExtensions a) = _ := get_toMap_massaged _ _ _
  have hnext : (nextSides platform inputs remoteExtensions nextRemote).localExtensions.get
      (keyNext platform inputs remoteExtensions nextRemote a) = _ := get_toMap_massaged _ _ _
  rw [hlocal, hnext, h.filter_next]
  · exact getLast?_applyTo platform (sides_keyed platform inputs remoteExtensions)
      inputs.localExtensions _
  · exact fun e he => Inputs.local_mem he

theorem get_nextRemote (a : String) : (nextSides platform inputs remoteExtensions
    nextRemote).remoteExtensions.get (keyNext platform inputs remoteExtensions nextRemote a) =
    ((nextRemote.filter fun e => getKey platform (inputs.uuids platform remoteExtensions)
    e.identifier = keyNow platform inputs remoteExtensions a).getLast?).map
    massageIncomingExtension := by
  have hnext : (nextSides platform inputs remoteExtensions nextRemote).remoteExtensions.get
      (keyNext platform inputs remoteExtensions nextRemote a) = _ := get_toMap_massaged _ _ _
  rw [hnext, h.filter_next]
  exact fun e he => Inputs.remote_mem he

theorem nextRemote_written {changes : RemoteChanges V}
    (hchanges : (merge platform inputs (some remoteExtensions)).remoteChanges = some changes)
    (a : String) : (nextSides platform inputs remoteExtensions nextRemote).remoteExtensions.get
    (keyNext platform inputs remoteExtensions nextRemote a) =
    ((mergeSides platform (inputs.sides platform remoteExtensions)).newRemoteExtensions.get
    (keyNow platform inputs remoteExtensions a)).map
    (settle · (keyNow platform inputs remoteExtensions a)) := by
  have hall : nextRemote = changes.all := by
    have hnew := h.newRemote
    rw [MergeResult.newRemote, hchanges] at hnew
    exact (Option.some.inj hnew).symm
  have hfiled := fun e => @filed_all V platform inputs remoteExtensions _ h.names.named changes
    hchanges e
  rw [h.get_nextRemote, hall]
  cases hget : (mergeSides platform (inputs.sides platform remoteExtensions)).newRemoteExtensions.get
      (keyNow platform inputs remoteExtensions a) with
  | none =>
    rw [List.filter_eq_nil_iff.2]
    · rfl
    · intro e he hkey
      obtain ⟨key, x, hx, -, -, hkey'⟩ := hfiled e he
      rw [← hkey', of_decide_eq_true hkey, hget] at hx
      cases hx
  | some x =>
    have hmem := (mem_all platform hchanges).2
      ⟨keyNow platform inputs remoteExtensions a, x, hget, rfl⟩
    have hkeyed : ∀ e ∈ changes.all, getKey platform (inputs.uuids platform remoteExtensions)
        e.identifier = keyNow platform inputs remoteExtensions a →
        e = massageOutgoingExtension x (keyNow platform inputs remoteExtensions a) := by
      intro e he hkey
      obtain ⟨key, y, hy, rfl, -, hkey'⟩ := hfiled e he
      rw [hkey'] at hkey
      subst hkey
      rw [hget] at hy
      cases hy
      rfl
    rw [getLast?_filter_of_unique hmem]
    · rfl
    · exact decide_eq_true (filed_newRemote h.names.named hget).2
    · exact fun e he hkey => hkeyed e he (of_decide_eq_true hkey)

theorem nextRemote_unwritten
    (hchanges : (merge platform inputs (some remoteExtensions)).remoteChanges = none) (a : String) :
    (nextSides platform inputs remoteExtensions nextRemote).remoteExtensions.get
    (keyNext platform inputs remoteExtensions nextRemote a) = (inputs.sides platform
    remoteExtensions).remoteExtensions.get (keyNow platform inputs remoteExtensions a) := by
  have hsame : nextRemote = remoteExtensions := by
    have hnew := h.newRemote
    rw [MergeResult.newRemote, hchanges] at hnew
    exact (Option.some.inj hnew).symm
  have hremote : (inputs.sides platform remoteExtensions).remoteExtensions.get
      (keyNow platform inputs remoteExtensions a) = _ := get_toMap_massaged _ _ _
  rw [h.get_nextRemote, hremote, hsame]

theorem not_ignored (ha : keyNext platform inputs remoteExtensions nextRemote a ∉
    (nextSides platform inputs remoteExtensions nextRemote).ignoredExtensions) : keyNow platform
    inputs remoteExtensions a ∉ (inputs.sides platform remoteExtensions).ignoredExtensions := by
  intro hmem
  obtain ⟨id, hid, hkey⟩ := List.mem_map.1 hmem
  rw [Inputs.uuids, ignoredKey_eq] at hkey
  refine ha (List.mem_map.2 ⟨id, hid, ?_⟩)
  rw [Inputs.uuids, ignoredKey_eq, h.names.idKey_injective hkey]
  rfl

theorem skipped_next
    (ha : (inputs.sides platform remoteExtensions).skippedExtensions.has
    (keyNow platform inputs remoteExtensions a) = true) :
    (nextSides platform inputs remoteExtensions nextRemote).skippedExtensions.has
      (keyNext platform inputs remoteExtensions nextRemote a) = true := by
  obtain ⟨e, he, hkey⟩ := (has_toMap platform).1 ha
  exact (has_toMap platform).2 ⟨e, he, (h.getKey_iff (Inputs.skipped_mem he)).2 hkey⟩

theorem builtinKey_next {i : IExtensionIdentifier}
    (hi : i ∈ inputs.lastSyncBuiltinExtensions.getD []) {a : String} (ha : builtinKey platform
    (inputs.uuids platform remoteExtensions) i = keyNow platform inputs remoteExtensions a) :
    builtinKey platform ((nextInputs platform inputs remoteExtensions).uuids platform nextRemote)
    i = keyNext platform inputs remoteExtensions nextRemote a := by
  have hmem : i ∈ (nextInputs platform inputs remoteExtensions).identifiers nextRemote :=
    Inputs.builtin_mem hi
  have hgetKey : ∀ uuids : JsMap String String, i.uuid ≠ some "" →
      builtinKey platform uuids i = getKey platform uuids i := by
    intro uuids hne
    rw [builtinKey, getKey]
    cases huuid : i.uuid with
    | none => rfl
    | some u =>
      have hu : u ≠ "" := fun hu => hne (by rw [huuid, hu])
      rw [nonEmpty_eq_some.2 ⟨rfl, hu⟩]
  by_cases hempty : i.uuid = some ""
  · have hkey : ∀ uuids : JsMap String String,
        builtinKey platform uuids i = "id:" ++ platform.toLowerCase i.id := by
      intro uuids
      rw [builtinKey, hempty]
      rfl
    rw [hkey] at ha ⊢
    cases hget : (inputs.uuids platform remoteExtensions).get a with
    | some u =>
      rw [keyNow, idKey, hget] at ha
      have := congrArg String.toList ha
      simp at this
    | none =>
      rw [keyNow, idKey, hget] at ha
      have hnone : ((nextInputs platform inputs remoteExtensions).uuids platform nextRemote).get
          a = none := by
        refine Option.eq_none_iff_forall_ne_some.2 fun u hu => ?_
        rw [h.names_next.get_uuidsOf hu] at hget
        cases hget
      rw [ha, keyNext, idKey, hnone]
  · rw [hgetKey _ hempty] at ha ⊢
    exact (h.getKey_iff hmem).2 ha

theorem wasInstalled_next (e : ISyncExtension V)
    (ha : (nextSides platform inputs remoteExtensions nextRemote).wasInstalledDuringLastSync
    (keyNext platform inputs remoteExtensions nextRemote a) e = true) :
    (inputs.sides platform remoteExtensions).wasInstalledDuringLastSync
      (keyNow platform inputs remoteExtensions a) e = true := by
  have hbuiltin := @builtinKey_next V _ platform inputs remoteExtensions nextRemote h
  have hnow : (inputs.sides platform remoteExtensions).lastSyncBuiltinExtensions =
      inputs.lastSyncBuiltinExtensions.map fun identifiers => identifiers.map
        (builtinKey platform (inputs.uuids platform remoteExtensions)) := rfl
  have hnext : (nextSides platform inputs remoteExtensions nextRemote).lastSyncBuiltinExtensions =
      inputs.lastSyncBuiltinExtensions.map fun identifiers => identifiers.map
        (builtinKey platform ((nextInputs platform inputs remoteExtensions).uuids platform
          nextRemote)) := rfl
  rw [Sides.wasInstalledDuringLastSync, hnext] at ha
  rw [Sides.wasInstalledDuringLastSync, hnow]
  cases hlist : inputs.lastSyncBuiltinExtensions with
  | none => rw [hlist] at ha; exact ha
  | some identifiers =>
    rw [hlist] at ha hbuiltin
    simp only [Option.map_some, Bool.and_eq_true, Bool.not_eq_true',
      ← Bool.not_eq_true, List.contains_iff_mem, List.mem_map, not_exists, not_and] at ha ⊢
    exact ⟨fun i hi hkey => ha.1 i hi (hbuiltin hi hkey), ha.2⟩

theorem lastSync_next (key : String) :
    (nextSides platform inputs remoteExtensions nextRemote).lastSync key =
      (nextSides platform inputs remoteExtensions nextRemote).remoteExtensions.get key := by
  have hlast : (nextSides platform inputs remoteExtensions nextRemote).lastSyncExtensions =
      ((merge platform inputs (some remoteExtensions)).newRemote (some remoteExtensions)).map
        fun extensions => toMap platform ((nextInputs platform inputs remoteExtensions).uuids
          platform nextRemote) (extensions.map massageIncomingExtension) := rfl
  rw [Sides.lastSync, hlast, h.newRemote]
  rfl

theorem succeeds (hgate : upToDate (inputs.sides platform remoteExtensions) = false)
    (hflags : (merge platform inputs (some remoteExtensions)).remoteChanges = none →
    ∀ e ∈ remoteExtensions, truthy e.installed = true → hasFlags e = true)
    (ha : keyNow platform inputs remoteExtensions a ∉
    (inputs.sides platform remoteExtensions).ignoredExtensions) :
    Succeeds platform (inputs.sides platform remoteExtensions)
      (nextSides platform inputs remoteExtensions nextRemote)
      (keyNow platform inputs remoteExtensions a)
      (keyNext platform inputs remoteExtensions nextRemote a) := by
  have hkeyed := sides_keyed platform inputs remoteExtensions
  have hplan : plannedOrNothing platform (inputs.sides platform remoteExtensions)
      (keyNow platform inputs remoteExtensions a) =
      planned platform (inputs.sides platform remoteExtensions)
        (keyNow platform inputs remoteExtensions a) := by
    rw [plannedOrNothing, hgate, Bool.false_or, if_neg]
    rwa [List.contains_iff_mem]
  constructor
  · rw [h.nextLocal, hplan]
  · cases hchanges : (merge platform inputs (some remoteExtensions)).remoteChanges with
    | some changes =>
      refine .inl ?_
      rw [h.nextRemote_written hchanges, get_newRemote platform hkeyed, hplan]
    | none =>
      have hunchanged := unchanged_of_remoteChanges_none platform hkeyed hchanges
        (keyNow platform inputs remoteExtensions a)
      rw [hplan] at hunchanged
      refine .inr ⟨h.nextRemote_unwritten hchanges a, hunchanged, fun e he hinstalled => ?_⟩
      obtain ⟨e, hmem, rfl, -⟩ := sides_remoteExtensions he
      exact hflags hchanges e hmem (by simpa [massageIncomingExtension] using hinstalled)
  · exact h.lastSync_next _
  · exact h.skipped_next
  · exact fun e => h.wasInstalled_next e

theorem quiet_of_upToDate (hgate : upToDate (inputs.sides platform remoteExtensions) = true)
    (ha : keyNow platform inputs remoteExtensions a ∉
    (inputs.sides platform remoteExtensions).ignoredExtensions) :
    Quiet platform (nextSides platform inputs remoteExtensions nextRemote)
      (keyNext platform inputs remoteExtensions nextRemote a) := by
  have hkeyed := sides_keyed platform inputs remoteExtensions
  have hnothing : ∀ key, plannedOrNothing platform (inputs.sides platform remoteExtensions) key =
      .nothing := by
    intro key
    rw [plannedOrNothing, hgate, Bool.true_or, if_pos rfl]
  have hlocal := h.nextLocal a
  have hchanges : (merge platform inputs (some remoteExtensions)).remoteChanges = none := by
    have hempty : (compare (some (inputs.sides platform remoteExtensions).remoteExtensions)
        (mergeSides platform (inputs.sides platform remoteExtensions)).newRemoteExtensions []
        true).isEmpty = true := by
      rw [compare_isEmpty]
      intro key _
      rw [get_newRemote platform hkeyed, hnothing]
      cases hget : (inputs.sides platform remoteExtensions).remoteExtensions.get key with
      | none => simp [hget, KeyPlan.remoteAfter, KeyPlan.nothing]
      | some r => simp [hget, KeyPlan.remoteAfter, KeyPlan.nothing, areSame_refl]
    simp only [merge, resultOf, hempty, if_true]
  have hsame := compare_isEmpty.1 hgate _ ha
  rw [hnothing] at hlocal
  rw [Quiet, hlocal, h.nextRemote_unwritten hchanges a]
  revert hsame
  simp only [Option.getD_some]
  cases (inputs.sides platform remoteExtensions).localExtensions.get
      (keyNow platform inputs remoteExtensions a) <;>
    cases (inputs.sides platform remoteExtensions).remoteExtensions.get
      (keyNow platform inputs remoteExtensions a)
  · exact fun _ => trivial
  · exact fun hfalse => hfalse.elim
  · exact fun hfalse => hfalse
  · exact fun hsame => .inl (areSame_symm hsame)

theorem settled (hasymm : ∀ a b, platform.gt a b = true → platform.gt b a = false)
    (hlocal : ∀ e ∈ inputs.localExtensions, isLocal e = true)
    (hflags : (merge platform inputs (some remoteExtensions)).remoteChanges = none → ∀ e ∈
    remoteExtensions, truthy e.installed = true → hasFlags e = true) (htaken : ∀ key localExtension
    remoteExtension, key ∉ (inputs.sides platform remoteExtensions).ignoredExtensions →
    (inputs.sides platform remoteExtensions).localExtensions.get key =
    some localExtension → (inputs.sides platform remoteExtensions).remoteExtensions.get key =
    some remoteExtension → overlooked platform localExtension remoteExtension
    ((inputs.sides platform remoteExtensions).lastSync key) = false) : merge platform
    (nextInputs platform inputs remoteExtensions) (some nextRemote) = ⟨.none, none⟩ := by
  have hquiet : ∀ a, keyNext platform inputs remoteExtensions nextRemote a ∉
      (nextSides platform inputs remoteExtensions nextRemote).ignoredExtensions →
      Quiet platform (nextSides platform inputs remoteExtensions nextRemote)
        (keyNext platform inputs remoteExtensions nextRemote a) := by
    intro a ha
    have hnow := h.not_ignored ha
    cases hgate : upToDate (inputs.sides platform remoteExtensions) with
    | true => exact h.quiet_of_upToDate hgate hnow
    | false =>
      refine (h.succeeds hgate hflags hnow).quiet hasymm (fun e he => ?_) (fun e he => ?_)
        fun l r => htaken _ l r hnow
      · obtain ⟨e, hmem, rfl, -⟩ := sides_localExtensions he
        exact ⟨hlocal e hmem, massaged_massageIncoming e⟩
      · obtain ⟨e, -, rfl, -⟩ := sides_remoteExtensions he
        exact massaged_massageIncoming e
  have hkey : ∀ e ∈ (nextInputs platform inputs remoteExtensions).identifiers nextRemote,
      ∀ key, getKey platform ((nextInputs platform inputs remoteExtensions).uuids platform
        nextRemote) e = key →
      keyNext platform inputs remoteExtensions nextRemote (platform.toLowerCase e.id) = key :=
    fun e he key hkey => (h.names_next.getKey_eq he).symm.trans hkey
  refine resultOf_eq_nothing platform (sides_keyed platform _ _) h.lastSync_next
    fun key hignored => ?_
  cases hl : (nextSides platform inputs remoteExtensions nextRemote).localExtensions.get key with
  | some e =>
    obtain ⟨e, hmem, -, he⟩ := sides_localExtensions hl
    have ha := hkey e.identifier (Inputs.local_mem hmem) key he
    rw [← ha] at hignored ⊢
    exact hquiet _ hignored
  | none =>
    cases hr : (nextSides platform inputs remoteExtensions nextRemote).remoteExtensions.get
      key with
    | some e =>
      obtain ⟨e, hmem, -, he⟩ := sides_remoteExtensions hr
      have ha := hkey e.identifier (Inputs.remote_mem hmem) key he
      rw [← ha] at hignored ⊢
      exact hquiet _ hignored
    | none =>
      rw [Quiet, hl, hr]
      trivial

end Round

end Next

end CodeOss.UserDataSync.Extensions
