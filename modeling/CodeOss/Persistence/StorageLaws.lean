import CodeOss.Persistence.Storage

/-! Storage and database hold the same when everything has arrived, unless the last change of a
key crossed a different one that was on its way. -/

namespace CodeOss.Persistence

open CrossingWrites
open List hiding after

section Updates

variable {changed : AList fun _ : JsString => JsString} {deleted : List JsString}
  {key k : JsString}

theorem updateItems_insert (value : JsString) :
    updateItems (changed.insert key value) (deleted.filter (· ≠ key)) k =
      (if key = k then some (some value) else none).or (updateItems changed deleted k) := by
  by_cases hk : key = k
  · subst hk
    simp [updateItems]
  · have hne : k ≠ key := fun h => hk h.symm
    simp [updateItems, hk, hne, AList.lookup_insert_ne hne]

theorem updateItems_erase :
    updateItems (changed.erase key) (deleted.insert key) k =
      (if key = k then some none else none).or (updateItems changed deleted k) := by
  by_cases hk : key = k
  · subst hk
    simp [updateItems]
  · have hne : k ≠ key := fun h => hk h.symm
    simp [updateItems, hk, hne, AList.lookup_erase_ne hne]

/-- What one turn of the loops over an event writes to a key. -/
def turn (k : JsString) (c : JsString × Option JsString) : Option (Option JsString) :=
  if c.1 = k then some c.2 else none

theorem last_changed {entries : List (Sigma fun _ : JsString => JsString)} (h : entries.NodupKeys) :
    last (entries.map fun c => turn k (c.1, some c.2)) = (entries.dlookup k).map some := by
  induction entries with
  | nil => rfl
  | cons c entries ih =>
    obtain ⟨hc, hrest⟩ := List.nodupKeys_cons.mp h
    rw [List.map_cons, last_cons, ih hrest]
    by_cases hk : c.1 = k
    · subst hk
      rw [List.dlookup_eq_none.mpr hc]
      obtain ⟨key, value⟩ := c
      simp [turn]
    · have hne : k ≠ c.1 := fun heq => hk heq.symm
      rw [List.dlookup_cons_ne _ _ hne]
      simp [turn, hk]

theorem last_deleted :
    last (deleted.map fun key => turn k (key, none)) =
      if k ∈ deleted then some none else none := by
  induction deleted with
  | nil => rfl
  | cons key deleted ih =>
    rw [List.map_cons, last_cons, ih]
    by_cases hmem : k ∈ deleted
    · simp [hmem]
    · by_cases hk : key = k
      · subst hk
        simp [turn, hmem]
      · have hne : k ≠ key := fun heq => hk heq.symm
        simp [turn, hk, hne, hmem]

theorem last_turns (e : IStorageItemsChangeEvent) : last (e.changes.map (turn k)) = e.write k := by
  rw [IStorageItemsChangeEvent.changes, map_append, last_append, List.map_map, List.map_map]
  have hdeleted := @last_deleted e.deleted k
  have hchanged := @last_changed k e.changed.entries e.changed.nodupKeys
  simp only [Function.comp_def]
  rw [hdeleted, hchanged, IStorageItemsChangeEvent.write, updateItems]
  by_cases hmem : k ∈ e.deleted
  · simp [hmem]
  · simp [hmem, AList.lookup]

end Updates

namespace Storage

variable {s : Storage} {key k : JsString} {value : Option JsString} {isExternal : Bool}
  {fired : Option IStorageChangeEvent}

/-- A method writes to a key of the cache what it adds to the pending changes, some of which it
may hand over. -/
structure Performs (s : Storage) (e : Effect) (k : JsString) (w : Option (Option JsString)) :
    Prop where
  cache : e.storage.cache k = w.getD (s.cache k)
  handover : last ((e.request.toList ++ [e.storage.pending]).map (·.write k)) =
    w.or (s.pending.write k)

/-- A method counts its change and leaves the callbacks. -/
structure Tracks (s : Storage) (e : Effect) : Prop where
  callbacks : e.storage.whenFlushedCallbacks = s.whenFlushedCallbacks
  idle : e.request = none → e.storage.hasPending = false →
    e.fired = none ∧ s.hasPending = false

theorem performs_nothing : Performs s ⟨s, fired, none⟩ k none :=
  ⟨rfl, by simp⟩

theorem tracks_nothing : Tracks s ⟨s, none, none⟩ := ⟨rfl, fun _ h => ⟨rfl, h⟩⟩

theorem performs_flushPending : Performs s ⟨s.flushPending.1, fired, s.flushPending.2⟩ k none := by
  rw [flushPending]
  split
  · refine ⟨rfl, ?_⟩
    have hempty : updateItems ∅ [] k = none := by simp [updateItems]
    simp [pending, IUpdateRequest.write, hempty]
  · exact performs_nothing

theorem tracks_flushPending : Tracks s ⟨s.flushPending.1, none, s.flushPending.2⟩ := by
  rw [flushPending]
  split
  · exact ⟨rfl, fun h => by cases h⟩
  · exact tracks_nothing

@[simp] theorem flushPending_state : s.flushPending.1.state = s.state := by
  rw [flushPending]
  split <;> rfl

@[simp] theorem flushPending_pendingClose : s.flushPending.1.pendingClose = s.pendingClose := by
  rw [flushPending]
  split <;> rfl

theorem performs_doFlush : Performs s (s.doFlush fired) k none := by
  rw [doFlush]
  split
  · exact performs_flushPending
  · exact performs_nothing

@[simp] theorem doFlush_state : (s.doFlush fired).storage.state = s.state := by
  rw [doFlush]
  split <;> simp

@[simp] theorem doFlush_pendingClose : (s.doFlush fired).storage.pendingClose = s.pendingClose := by
  rw [doFlush]
  split <;> simp

@[simp] theorem doFlush_callbacks :
    (s.doFlush fired).storage.whenFlushedCallbacks = s.whenFlushedCallbacks := by
  rw [doFlush]
  split
  · exact tracks_flushPending.callbacks
  · rfl

theorem doFlush_idle (hrequest : (s.doFlush fired).request = none)
    (hidle : (s.doFlush fired).storage.hasPending = false) : s.hasPending = false := by
  by_cases hhint : s.hint = some .storageInMemory
  · rw [doFlush, if_pos hhint] at hrequest hidle
    exact (tracks_flushPending.idle hrequest hidle).2
  · rwa [doFlush, if_neg hhint] at hidle

theorem performs_change {s' : Storage} {w : Option (Option JsString)}
    (hcache : s'.cache k = w.getD (s.cache k))
    (hpending : s'.pending.write k = w.or (s.pending.write k)) :
    Performs s (s'.doFlush fired) k w := by
  have h : Performs s' (s'.doFlush fired) k none := performs_doFlush
  refine ⟨by rw [h.cache, Option.getD_none, hcache], ?_⟩
  rw [h.handover, Option.none_or, hpending]

theorem tracks_change {s' : Storage} (hcallbacks : s'.whenFlushedCallbacks = s.whenFlushedCallbacks)
    (hpending : s'.hasPending = true) : Tracks s (s'.doFlush fired) := by
  refine ⟨by rw [doFlush_callbacks, hcallbacks], fun hrequest hidle => ?_⟩
  rw [doFlush_idle hrequest hidle] at hpending
  cases hpending

def written (s : Storage) (key : JsString) (value : Option JsString) (k : JsString) :
    Option (Option JsString) :=
  if s.state = .closed ∨ s.cache key = value then none
  else if key = k then some value else none

theorem delete_spec : Performs s (s.delete key isExternal) k (s.written key none k) ∧
    Tracks s (s.delete key isExternal) ∧ (s.delete key isExternal).storage.state = s.state ∧
    (s.delete key isExternal).storage.pendingClose = s.pendingClose := by
  rw [delete, written]
  by_cases hstate : s.state = .closed
  · rw [if_pos hstate, if_pos (Or.inl hstate)]
    exact ⟨performs_nothing, tracks_nothing, rfl, rfl⟩
  by_cases hcache : s.cache key = none
  · rw [if_neg hstate, if_pos hcache, if_pos (Or.inr hcache)]
    exact ⟨performs_nothing, tracks_nothing, rfl, rfl⟩
  rw [if_neg hstate, if_neg hcache, if_neg (not_or.mpr ⟨hstate, hcache⟩)]
  refine ⟨performs_change ?_ updateItems_erase, tracks_change rfl ?_, doFlush_state,
    doFlush_pendingClose⟩
  · by_cases hk : key = k
    · subst hk
      simp
    · have hne : k ≠ key := fun h => hk h.symm
      simp [hk, hne]
  · have hne : s.pendingDeletes.insert key ≠ [] :=
      ne_nil_of_mem mem_insert_self
    simp [hasPending, hne]

theorem set_spec : Performs s (s.set key value isExternal) k (s.written key value k) ∧
    Tracks s (s.set key value isExternal) ∧ (s.set key value isExternal).storage.state = s.state ∧
    (s.set key value isExternal).storage.pendingClose = s.pendingClose := by
  unfold set
  by_cases hstate : s.state = .closed
  · rw [written, if_pos hstate, if_pos (Or.inl hstate)]
    exact ⟨performs_nothing, tracks_nothing, rfl, rfl⟩
  rw [if_neg hstate]
  cases value with
  | none => exact delete_spec
  | some v =>
    rw [written]
    by_cases hcache : s.cache key = some v
    · simp only [if_pos hcache, if_pos (Or.inr hcache)]
      exact ⟨performs_nothing, tracks_nothing, trivial, trivial⟩
    rw [if_neg (not_or.mpr ⟨hstate, hcache⟩)]
    simp only [hcache, if_false]
    refine ⟨performs_change ?_ (updateItems_insert v), tracks_change rfl ?_, doFlush_state,
      doFlush_pendingClose⟩
    · by_cases hk : key = k
      · subst hk
        simp
      · have hne : k ≠ key := fun h => hk h.symm
        simp [hk, hne]
    · simp [hasPending, AList.insert]

theorem flush_spec : Performs s s.flush k none ∧ Tracks s s.flush ∧
    s.flush.storage.state = s.state ∧ s.flush.storage.pendingClose = s.pendingClose := by
  rw [flush]
  split
  · exact ⟨performs_nothing, tracks_nothing, rfl, rfl⟩
  · refine ⟨performs_doFlush, ⟨doFlush_callbacks, fun hrequest hidle => ⟨?_, ?_⟩⟩, doFlush_state,
      doFlush_pendingClose⟩
    · rw [doFlush]
      split <;> rfl
    · exact doFlush_idle hrequest hidle

theorem close_spec (hclosed : s.pendingClose = true → s.state = .closed) :
    Performs s s.close k none ∧ Tracks s s.close ∧ s.close.storage.state = .closed ∧
    s.close.storage.pendingClose = true := by
  rw [close]
  by_cases hclose : s.pendingClose = true
  · rw [if_pos hclose]
    exact ⟨performs_nothing, tracks_nothing, hclosed hclose, hclose⟩
  · rw [if_neg hclose]
    let s' : Storage := { s with state := .closed, pendingClose := true }
    refine ⟨performs_change rfl rfl, ⟨doFlush_callbacks, fun hrequest hidle => ⟨?_, ?_⟩⟩,
      doFlush_state, doFlush_pendingClose⟩
    · rw [doFlush]
      split <;> rfl
    · exact doFlush_idle (s := s') hrequest hidle

theorem acceptExternal_eq : (s.acceptExternal key value).1 =
    { s with cache := fun k =>
        if s.state = .closed then s.cache k else (turn k (key, value)).getD (s.cache k) } := by
  have hupdate : Function.update s.cache key value =
      fun k => (turn k (key, value)).getD (s.cache k) := by
    funext k
    by_cases hk : key = k
    · subst hk
      simp [turn]
    · have hne : k ≠ key := fun h => hk h.symm
      simp [turn, hk, hne]
  unfold acceptExternal
  by_cases hstate : s.state = .closed
  · simp only [if_pos hstate]
  · simp only [if_neg hstate]
    rw [← hupdate]
    cases value with
    | none => rfl
    | some v =>
      by_cases hcache : s.cache key = some v
      · have hself : Function.update s.cache key (some v) = s.cache := by
          rw [← hcache, Function.update_eq_self]
        simp [hcache, hself]
      · simp [hcache]

theorem acceptAll_eq {changes : List (JsString × Option JsString)} :
    (s.acceptAll changes).1 =
    { s with cache := fun k =>
        if s.state = .closed then s.cache k else after (changes.map (turn k)) (s.cache k) } := by
  induction changes generalizing s with
  | nil => simp [acceptAll]
  | cons c changes ih =>
    obtain ⟨key, value⟩ := c
    rw [acceptAll]
    simp only [ih, acceptExternal_eq, map_cons, after_cons]
    congr 1
    funext k
    by_cases hstate : s.state = .closed <;> simp [hstate]

theorem onDidChangeItemsExternal_eq {e : IStorageItemsChangeEvent} :
    (s.onDidChangeItemsExternal e).1 =
    { s with cache := fun k =>
        if s.state = .closed then s.cache k else (e.write k).getD (s.cache k) } := by
  rw [onDidChangeItemsExternal, acceptAll_eq]
  simp only [after, last_turns]

end Storage

namespace System

variable {w w' : System} {a : Action} {k key : JsString} {v value : Option JsString}
  {earlier : Outcome}

/-- The database and the cache hold `v` when everything has arrived. -/
abbrev Converges (w : System) (k : JsString) (v : Option JsString) : Prop :=
  Agree (w.toDatabase k) (w.database k) (w.toStorage k) (w.storage.cache k) v

def Holds (w : System) (k : JsString) (outcome : Outcome) : Prop :=
  ∀ v, outcome = .agreed v → w.Converges k v

theorem Holds.followedBy {later : Outcome} (h : later = .unchanged → w.Holds k earlier)
    (hlater : w.Holds k later) : w.Holds k (earlier.followedBy later) := by
  rw [Outcome.followedBy]
  split
  · exact h ‹_›
  · exact hlater

theorem holds_unchanged : w.Holds k .unchanged := fun _ h => by cases h

theorem holds_of_met {p : Prop} [Decidable p] (h : p → w.Converges k v) :
    w.Holds k (if p then .agreed v else .crossed) := by
  intro u hu
  split at hu
  · cases hu
    exact h ‹_›
  · cases hu

section Perform

variable {e : Effect} {wr : Option (Option JsString)}

theorem last_toDatabase_perform (h : Storage.Performs w.storage e k wr) :
    last ((w.perform e).toDatabase k) = last (w.toDatabase k ++ [wr]) := by
  have hhandover := h.handover
  rw [map_append, last_append] at hhandover
  simp only [toDatabase, perform, map_append, last_append]
  rw [← Option.or_assoc, hhandover]
  simp [Option.or_assoc]

theorem Converges.perform (hconv : w.Converges k v) (h : Storage.Performs w.storage e k none)
    (hstate : e.storage.state = w.storage.state) : (w.perform e).Converges k v := by
  refine @Agree.congr _ _ (w.toDatabase k) _ _ _ _ ?_ (by rw [last_toDatabase_perform h]; simp)
  have hcache : (w.perform e).storage.cache k = w.storage.cache k := h.cache
  have hto : (w.perform e).toStorage k = w.toStorage k := by
    simp only [toStorage, System.perform, hstate]
  rw [hcache, hto]
  exact hconv

theorem converges_perform (h : Storage.Performs w.storage e k (some v))
    (hstate : e.storage.state = w.storage.state) (hmet : after (w.toStorage k) v = v) :
    (w.perform e).Converges k v := by
  refine @Agree.congr _ _ (w.toDatabase k ++ [some v]) _ _ _ _ ?_ (last_toDatabase_perform h)
  have hcache : (w.perform e).storage.cache k = v := h.cache
  have hto : (w.perform e).toStorage k = w.toStorage k := by
    simp only [toStorage, System.perform, hstate]
  rw [hcache, hto]
  exact agree_write hmet

theorem holds_local
    (h : Storage.Performs w.storage e k (w.storage.written key value k))
    (hstate : e.storage.state = w.storage.state) (hholds : w.Holds k earlier) :
    (w.perform e).Holds k
      (earlier.followedBy (if key = k then w.changeLocally k value else .unchanged)) := by
  by_cases hidle : w.storage.written key value k = none
  · rw [hidle] at h
    refine Holds.followedBy (fun _ v hv => (hholds v hv).perform h hstate) ?_
    split
    · rename_i hkey
      rw [Storage.written, if_pos hkey, hkey] at hidle
      have hsame : w.storage.state = .closed ∨ w.storage.cache k = value := by
        by_contra hne
        rw [if_neg hne] at hidle
        cases hidle
      rw [changeLocally, if_pos hsame]
      exact holds_unchanged
    · exact holds_unchanged
  · have hne : ¬ (w.storage.state = .closed ∨ w.storage.cache key = value) := fun hc =>
      hidle (by rw [Storage.written, if_pos hc])
    have hkey : key = k := by
      by_contra hk
      exact hidle (by rw [Storage.written, if_neg hne, if_neg hk])
    rw [Storage.written, if_neg hne, if_pos hkey] at h
    subst hkey
    rw [if_pos rfl]
    refine Holds.followedBy (fun hc => ?_) ?_
    · rw [changeLocally, if_neg hne] at hc
      split at hc <;> cases hc
    · rw [changeLocally, if_neg hne]
      exact holds_of_met fun hmet => converges_perform h hstate hmet

end Perform

def ClosedOnce (w : System) : Prop := w.storage.pendingClose = true → w.storage.state = .closed

theorem converges_closed (hclosed : w.storage.state = .closed) :
    w.Converges k v ↔ after (w.toDatabase k) (w.database k) = v ∧ w.storage.cache k = v := by
  have hto : w.toStorage k = [] := if_pos hclosed
  rw [Converges, hto]
  exact ⟨fun h => ⟨h.left, h.right⟩, fun h => ⟨h.1, h.2⟩⟩

theorem holds_close (hclose : w.ClosedOnce) (hholds : w.Holds k earlier) :
    (w.perform w.storage.close).Holds k (earlier.followedBy (w.outcome k .close)) := by
  obtain ⟨hperforms, -, hstate, -⟩ := Storage.close_spec hclose
  have hclosed : (w.perform w.storage.close).storage.state = .closed := hstate
  have hdatabase : after ((w.perform w.storage.close).toDatabase k) (w.database k) =
      after (w.toDatabase k) (w.database k) := by
    rw [after, last_toDatabase_perform hperforms, after]
    simp
  have hcache : (w.perform w.storage.close).storage.cache k = w.storage.cache k :=
    hperforms.cache
  refine Holds.followedBy (fun hc v hv => ?_) ?_
  · have hnone : last (w.toStorage k) = none := by
      by_contra hne
      simp only [outcome, if_neg hne] at hc
      split at hc <;> cases hc
    have hright : after (w.toStorage k) (w.storage.cache k) = v := (hholds v hv).right
    rw [after, hnone] at hright
    exact (converges_closed hclosed).mpr ⟨hdatabase.trans (hholds v hv).left, hcache.trans hright⟩
  · rw [outcome]
    split
    · exact holds_unchanged
    · exact holds_of_met fun hmet =>
        (converges_closed hclosed).mpr ⟨hdatabase.trans hmet, hcache⟩

theorem holds_write {e : IStorageItemsChangeEvent} (hstep : w.step (.write e) = some w')
    (hholds : w.Holds k earlier) : w'.Holds k (earlier.followedBy (w.outcome k (.write e))) := by
  have hstorage : w'.storage = w.storage := by cases hstep; rfl
  have hdatabase : w'.database k = (e.write k).getD (w.database k) := by cases hstep; rfl
  have htoDatabase : w'.toDatabase k = w.toDatabase k := by cases hstep; rfl
  have htoStorage : w.storage.state ≠ .closed →
      w'.toStorage k = w.toStorage k ++ [e.write k] := by
    intro hopen
    cases hstep
    simp [toStorage, hopen]
  cases hwrite : e.write k with
  | none =>
    rw [hwrite, Option.getD_none] at hdatabase
    refine Holds.followedBy (fun _ v hv => ?_) ?_
    · have hconv : w.Converges k v := hholds v hv
      rw [Converges, htoDatabase, hdatabase, hstorage]
      by_cases hclosed : w.storage.state = .closed
      · have hto : w'.toStorage k = w.toStorage k := by
          rw [toStorage, toStorage, hstorage, if_pos hclosed, if_pos hclosed]
        rw [hto]
        exact hconv
      · rw [htoStorage hclosed, hwrite]
        exact ⟨hconv.left, by simpa using hconv.right⟩
    · simp only [outcome, hwrite]
      exact holds_unchanged
  | some value =>
    rw [hwrite, Option.getD_some] at hdatabase
    by_cases hclosed : w.storage.state = .closed
    · simp only [outcome, hwrite, if_pos hclosed]
      refine Holds.followedBy (fun hc => by split at hc <;> cases hc) (holds_of_met fun hmet => ?_)
      rw [← hstorage] at hclosed
      rw [converges_closed hclosed, htoDatabase, hdatabase, hstorage]
      exact ⟨hmet, rfl⟩
    · simp only [outcome, hwrite, if_neg hclosed]
      refine Holds.followedBy (fun hc => by split at hc <;> cases hc) (holds_of_met fun hmet => ?_)
      rw [Converges, htoDatabase, hdatabase, hstorage, htoStorage hclosed, hwrite]
      exact (agree_write hmet).symm

theorem holds_apply (hstep : w.step .apply = some w') (hholds : w.Holds k earlier) :
    w'.Holds k earlier := by
  intro v hv
  have hconv : w.Converges k v := hholds v hv
  rw [step] at hstep
  split at hstep
  · cases hstep
  · rename_i r requests hrequests
    cases hstep
    rw [Converges, toDatabase, hrequests, cons_append, map_cons, agree_receive] at hconv
    exact hconv

theorem holds_deliver (hstep : w.step .deliver = some w') (hholds : w.Holds k earlier) :
    w'.Holds k earlier := by
  intro v hv
  have hconv : w.Converges k v := hholds v hv
  rw [step] at hstep
  split at hstep
  · cases hstep
  · rename_i e events hevents
    cases hstep
    rw [Storage.onDidChangeItemsExternal_eq, Converges]
    by_cases hclosed : w.storage.state = .closed
    · simp only [Converges, toStorage, hclosed, if_true] at hconv ⊢
      exact hconv
    · have hto : w.toStorage k = e.write k :: events.map (·.write k) := by
        rw [toStorage, if_neg hclosed, hevents, map_cons]
      rw [Converges, hto] at hconv
      simp only [toStorage, if_neg hclosed]
      exact (agree_receive.mp hconv.symm).symm

theorem holds_step (hclose : w.ClosedOnce) (hstep : w.step a = some w')
    (hholds : w.Holds k earlier) : w'.Holds k (earlier.followedBy (w.outcome k a)) := by
  cases a with
  | set key value isExternal =>
    cases hstep
    obtain ⟨hperforms, -, hstate, -⟩ := Storage.set_spec
    exact holds_local hperforms hstate hholds
  | delete key isExternal =>
    cases hstep
    obtain ⟨hperforms, -, hstate, -⟩ := Storage.delete_spec
    exact holds_local hperforms hstate hholds
  | flush =>
    cases hstep
    obtain ⟨hperforms, -, hstate, -⟩ := Storage.flush_spec
    exact fun v hv => (hholds v hv).perform hperforms hstate
  | close =>
    cases hstep
    exact holds_close hclose hholds
  | whenFlushed =>
    cases hstep
    intro v hv
    have hconv : w.Converges k v := hholds v hv
    unfold Storage.whenFlushed
    split <;> exact hconv
  | runFlush =>
    cases hstep
    exact fun v hv => (hholds v hv).perform Storage.performs_flushPending
      Storage.flushPending_state
  | apply => exact holds_apply hstep hholds
  | settle =>
    rw [step] at hstep
    split at hstep
    · cases hstep
    · cases hstep
      intro v hv
      have hconv : w.Converges k v := hholds v hv
      unfold Storage.releaseWaiters
      split <;> exact hconv
  | write e => exact holds_write hstep hholds
  | deliver => exact holds_deliver hstep hholds

/-- The changes not handed over are pending, and callbacks wait for the changes before them. -/
structure Counted (w : System) : Prop where
  closedOnce : w.ClosedOnce
  handed_le : w.handed ≤ w.made
  idle : w.storage.hasPending = false → w.handed = w.made
  waiting : ∀ callback ∈ w.storage.whenFlushedCallbacks, callback ≤ w.made
  called : ∀ c ∈ w.called, c.1 ≤ c.2

theorem Counted.perform {e : Effect} (h : w.Counted) (htracks : Storage.Tracks w.storage e)
    (hclose : e.storage.pendingClose = true → e.storage.state = .closed) :
    (w.perform e).Counted := by
  have hmade : w.made ≤ (w.perform e).made := by
    simp only [System.perform]
    split <;> omega
  refine ⟨hclose, ?_, fun hidle => ?_, ?_, h.called⟩
  · have hhanded := h.handed_le
    simp only [System.perform] at hmade ⊢
    split <;> omega
  · cases hrequest : e.request with
    | some r => simp [System.perform, hrequest]
    | none =>
      obtain ⟨hfired, hpending⟩ := htracks.idle hrequest hidle
      simp [System.perform, hrequest, hfired, h.idle hpending]
  · intro callback hcallback
    have hmem : callback ∈ w.storage.whenFlushedCallbacks := by
      rw [← htracks.callbacks]
      exact hcallback
    exact (h.waiting callback hmem).trans hmade

theorem counted_step (h : w.Counted) (hstep : w.step a = some w') : w'.Counted := by
  cases a with
  | set key value isExternal =>
    cases hstep
    obtain ⟨-, htracks, hstate, hclose⟩ := Storage.set_spec (k := key)
    exact h.perform htracks (by rw [hstate, hclose]; exact h.closedOnce)
  | delete key isExternal =>
    cases hstep
    obtain ⟨-, htracks, hstate, hclose⟩ := Storage.delete_spec (k := key)
    exact h.perform htracks (by rw [hstate, hclose]; exact h.closedOnce)
  | flush =>
    cases hstep
    obtain ⟨-, htracks, hstate, hclose⟩ := Storage.flush_spec (k := ([] : JsString))
    exact h.perform htracks (by rw [hstate, hclose]; exact h.closedOnce)
  | close =>
    cases hstep
    obtain ⟨-, htracks, hstate, -⟩ := Storage.close_spec (k := ([] : JsString)) h.closedOnce
    exact h.perform htracks fun _ => hstate
  | whenFlushed =>
    cases hstep
    unfold Storage.whenFlushed
    split
    · refine ⟨h.closedOnce, h.handed_le, h.idle, fun callback hcallback => ?_, h.called⟩
      rcases List.mem_append.mp hcallback with hold | hnew
      · exact h.waiting callback hold
      · exact (mem_singleton.mp hnew).le
    · rename_i hpending
      refine ⟨h.closedOnce, h.handed_le, h.idle, h.waiting, fun c hc => ?_⟩
      rcases List.mem_append.mp hc with hold | hnew
      · exact h.called c hold
      · rw [mem_singleton.mp hnew]
        exact (h.idle (by simpa using hpending)).ge
  | runFlush =>
    cases hstep
    refine h.perform Storage.tracks_flushPending ?_
    rw [Storage.flushPending_state, Storage.flushPending_pendingClose]
    exact h.closedOnce
  | apply =>
    rw [step] at hstep
    split at hstep
    · cases hstep
    · cases hstep
      exact ⟨h.closedOnce, h.handed_le, h.idle, h.waiting, h.called⟩
  | settle =>
    rw [step] at hstep
    split at hstep
    · cases hstep
    · cases hstep
      unfold Storage.releaseWaiters
      split
      · exact ⟨h.closedOnce, h.handed_le, h.idle, h.waiting, by simpa using h.called⟩
      · rename_i hpending
        refine ⟨h.closedOnce, h.handed_le, h.idle, by simp, fun c hc => ?_⟩
        rcases List.mem_append.mp hc with hold | hnew
        · exact h.called c hold
        · obtain ⟨callback, hcallback, rfl⟩ := mem_map.mp hnew
          rw [h.idle (by simpa using hpending)]
          exact h.waiting callback (mem_reverse.mp hcallback)
  | write e =>
    cases hstep
    exact ⟨h.closedOnce, h.handed_le, h.idle, h.waiting, h.called⟩
  | deliver =>
    rw [step] at hstep
    split at hstep
    · cases hstep
    · cases hstep
      rw [Storage.onDidChangeItemsExternal_eq]
      exact ⟨h.closedOnce, h.handed_le, h.idle, h.waiting, h.called⟩

theorem pending_write (h : w.storage.hasPending = false) : w.storage.pending.write k = none := by
  simp only [Storage.hasPending, Bool.or_eq_false_iff, Bool.not_eq_false', List.isEmpty_iff] at h
  simp [Storage.pending, IUpdateRequest.write, updateItems, AList.lookup, h.1, h.2]

theorem converges_settled (hsettled : w.Settled) (hconv : w.Converges k v) :
    w.database k = v ∧ w.storage.cache k = v := by
  obtain ⟨hidle, hrequests, -, hevents⟩ := hsettled
  have htoDatabase : w.toDatabase k = [none] := by
    simp [toDatabase, hrequests, pending_write hidle]
  have htoStorage : w.toStorage k = [] := by
    simp [toStorage, hevents]
  rw [Converges, htoDatabase, htoStorage, agree_receive, agree_settled] at hconv
  exact hconv

theorem run_spec {actions : List Action} (hcounted : w.Counted) (hholds : w.Holds k earlier)
    (hrun : w.run actions = some w') :
    w'.Counted ∧ w'.Holds k (outcomeOfRun k earlier w actions) := by
  induction actions generalizing w earlier with
  | nil =>
    cases hrun
    exact ⟨hcounted, hholds⟩
  | cons a actions ih =>
    obtain ⟨w₁, hstep, hrest⟩ := Option.bind_eq_some_iff.mp hrun
    rw [outcomeOfRun, hstep]
    exact ih (counted_step hcounted hstep) (holds_step hcounted.closedOnce hstep hholds) hrest

theorem outcomeOfRun_append {as bs : List Action} (hrun : w.run as = some w') :
    outcomeOfRun k earlier w (as ++ bs) = outcomeOfRun k (outcomeOfRun k earlier w as) w' bs := by
  induction as generalizing w earlier with
  | nil =>
    cases hrun
    rfl
  | cons a as ih =>
    obtain ⟨w₁, hstep, hrest⟩ := Option.bind_eq_some_iff.mp hrun
    rw [cons_append, outcomeOfRun, outcomeOfRun, hstep]
    exact ih hrest

theorem followedBy_assoc {o₁ o₂ o₃ : Outcome} :
    (o₁.followedBy o₂).followedBy o₃ = o₁.followedBy (o₂.followedBy o₃) := by
  rw [Outcome.followedBy, Outcome.followedBy, Outcome.followedBy, Outcome.followedBy]
  by_cases h : o₃ = .unchanged <;> simp [h]

theorem outcomeOfRun_eq {actions : List Action} : outcomeOfRun k earlier w actions =
    earlier.followedBy (outcomeOfRun k .unchanged w actions) := by
  induction actions generalizing w earlier with
  | nil => rfl
  | cons a actions ih =>
    rw [outcomeOfRun, outcomeOfRun]
    cases w.step a with
    | none => rfl
    | some w₁ =>
      simp only
      rw [ih, @ih w₁ (Outcome.unchanged.followedBy _), ← followedBy_assoc]
      congr 1
      rw [← followedBy_assoc]
      rfl

section Initial

variable {hint : Option StorageHint} {database : Items}

theorem counted_initial : (initial hint database).Counted where
  closedOnce := fun h => by cases h
  handed_le := le_refl _
  idle := fun _ => rfl
  waiting := fun _ h => by cases h
  called := fun _ h => by cases h

theorem holds_initial (hhint : hint = some .storageDoesNotExist → database = fun _ => none) :
    (initial hint database).Holds k (.agreed (database k)) := by
  intro v hv
  cases hv
  have hpending : (initial hint database).storage.pending.write k = none := by
    simp [initial, Storage.pending, IUpdateRequest.write, updateItems]
  refine ⟨?_, ?_⟩
  · have hto : (initial hint database).toDatabase k = [none] := by
      rw [toDatabase]
      simp only [initial, nil_append, map_cons, map_nil]
      exact congrArg (fun x => [x]) hpending
    rw [hto]
    rfl
  · have hto : (initial hint database).toStorage k = [] := by simp [toStorage, initial]
    rw [hto]
    simp only [initial, after_nil]
    split
    · rw [hhint ‹_›]
    · rfl

end Initial

theorem value_of_setLast {actions : List Action} {value : JsString} (hcounted : w.Counted)
    (hholds : w.Holds k earlier) (houtcome : outcomeOfRun k earlier w actions = .agreed v)
    (hlast : w.SetLast actions k value) : v = some value := by
  obtain ⟨front, isExternal, later, w₁, w₂, rfl, hrun, hopen, hmet, hstep, hlater⟩ := hlast
  obtain ⟨hcounted₁, hholds₁⟩ := run_spec hcounted hholds hrun
  have hagreed : (outcomeOfRun k earlier w front).followedBy
      (w₁.outcome k (.set k (some value) isExternal)) = .agreed v := by
    rw [outcomeOfRun_append hrun, outcomeOfRun, hstep] at houtcome
    simp only at houtcome
    rwa [outcomeOfRun_eq, hlater] at houtcome
  have hconv : w₂.Converges k v := holds_step hcounted₁.closedOnce hstep hholds₁ v hagreed
  cases hstep
  obtain ⟨hperforms, -, hstate, -⟩ :=
    @Storage.set_spec w₁.storage k k (some value) isExternal
  have hcache : (w₁.storage.set k (some value) isExternal).storage.cache k = some value := by
    rw [hperforms.cache, Storage.written]
    by_cases hsame : w₁.storage.cache k = some value
    · rw [if_pos (Or.inr hsame)]
      exact hsame
    · rw [if_neg (not_or.mpr ⟨hopen, hsame⟩), if_pos rfl]
      rfl
  have hto : (w₁.perform (w₁.storage.set k (some value) isExternal)).toStorage k =
      w₁.toStorage k := by
    simp only [toStorage, perform, hstate]
  have hright := hconv.right
  rw [hto] at hright
  exact hright.symm.trans ((congrArg _ hcache).trans hmet)

/-- The last change of a key decides: if it crossed no different one on its way, database and
cache hold the same in the end. Callbacks wait for the changes made before them. -/
theorem storage_converges (hint : Option StorageHint) (database : Items)
    (hhint : hint = some .storageDoesNotExist → database = fun _ => none)
    (actions : List Action) (w : System) (hrun : (initial hint database).run actions = some w) :
    (∀ key v, outcomeOfRun key (.agreed (database key)) (initial hint database) actions =
        .agreed v →
      (w.Settled → w.database key = v ∧ w.storage.cache key = v) ∧
      ∀ value, (initial hint database).SetLast actions key value → v = some value) ∧
    ∀ c ∈ w.called, c.1 ≤ c.2 := by
  refine ⟨fun key v houtcome => ⟨fun hsettled => ?_, fun value hlast => ?_⟩, ?_⟩
  · obtain ⟨-, hholds⟩ := run_spec counted_initial (holds_initial (k := key) hhint) hrun
    exact converges_settled hsettled (hholds v houtcome)
  · exact value_of_setLast counted_initial (holds_initial hhint) houtcome hlast
  · exact (run_spec counted_initial (holds_initial (k := []) hhint) hrun).1.called

/-- The other window sets `w`, then the storage sets `t`. -/
def takingTurns : List Action :=
  [.write ⟨AList.singleton [119] [48], []⟩, .whenFlushed, .deliver, .set [116] (some [49]) false,
    .whenFlushed, .runFlush, .apply, .settle]

theorem storage_converges_takingTurns :
    ∃ w, (initial none fun _ => none).run takingTurns = some w ∧
      w.database [116] = some [49] ∧ w.storage.cache [116] = some [49] ∧
      ∀ c ∈ w.called, c.1 ≤ c.2 := by
  have hrun := Option.some_get
    (show ((initial none fun _ => none).run takingTurns).isSome by decide)
  obtain ⟨hvalues, hcalled⟩ :=
    storage_converges none (fun _ => none) (fun h => by cases h) takingTurns _ hrun.symm
  obtain ⟨hsame, -⟩ := hvalues [116] (some [49]) (by decide)
  exact ⟨_, hrun.symm, (hsame (by decide)).1, (hsame (by decide)).2, hcalled⟩

/-- Both set `t`, and the change of the storage is pending when the other one arrives. -/
def bothSet : List Action :=
  [.set [116] (some [49]) false, .write ⟨AList.singleton [116] [50], []⟩, .deliver, .runFlush,
    .apply, .settle]

theorem storage_not_converging :
    ¬ ∀ (hint : Option StorageHint) (database : Items),
      (hint = some .storageDoesNotExist → database = fun _ => none) →
      ∀ actions w, (initial hint database).run actions = some w → w.Settled →
        w.database = w.storage.cache := by
  intro h
  have hrun := Option.some_get
    (show ((initial none fun _ => none).run bothSet).isSome by decide)
  have hsame := congrFun
    (h none (fun _ => none) (fun h => by cases h) bothSet _ hrun.symm (by decide)) [116]
  exact absurd hsame (by decide)

end System

end CodeOss.Persistence
