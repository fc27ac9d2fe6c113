import CodeOss.Persistence.StorageLaws

/-! `MigratingStorage`: a storage that takes values over from a fallback storage when they are read
for the first time. What it hands over to the database is there at once, and a restart reads it
back. -/

namespace CodeOss.Persistence

open Option Function

/-- `JSON` on sets of strings: `parse` gives the strings of `new Set(JSON.parse(raw))`, or `none`
if that throws. -/
structure JsonSets where
  stringify : List JsString → JsString
  parse : JsString → Option (List JsString)

def internalKeyPrefix : JsString := [95, 95, 36, 95, 95]

def migratedKey : JsString :=
  internalKeyPrefix ++ [109, 105, 103, 114, 97, 116, 101, 100, 83, 116, 111, 114, 97, 103, 101, 77,
    97, 114, 107, 101, 114]

structure MigratingStorage extends Storage where
  migratedKeys : List JsString
  fallbackStorage : Option Items
  isFallbackStorageReadonly : Bool

/-- A storage with its database. Of the keys it is kept which were set or deleted, and which were
taken over from the fallback and neither set nor deleted. -/
structure Migration where
  storage : MigratingStorage
  database : Items
  changed : List JsString
  migrated : Items

namespace Migration

/-- A method of the storage has run, and the database has done what it requests. -/
def perform (w : Migration) (e : Effect) : Migration :=
  { w with
    storage := { w.storage with toStorage := e.storage }
    database := fun key => (e.request.bind (·.write key)).getD (w.database key) }

def loadMigratedKeys (json : JsonSets) (items : Items) : List JsString :=
  match items migratedKey with
  | some raw => if raw = [] then [] else (json.parse raw).getD []
  | none => []

/-- A new storage, which reads the items unless there can be none. -/
def init (json : JsonSets) (hint : Option StorageHint) (database : Items) : MigratingStorage :=
  let storage := (System.initial hint database).storage
  { toStorage := storage
    migratedKeys := loadMigratedKeys json storage.cache
    fallbackStorage := none
    isFallbackStorageReadonly := false }

def persistMigratedKeys (json : JsonSets) (w : Migration) : Migration :=
  w.perform (w.storage.toStorage.set migratedKey (some (json.stringify w.storage.migratedKeys))
    false)

def LooksAtFallback (w : Migration) (key : JsString) : Prop :=
  ¬ internalKeyPrefix.isPrefixOf key ∧ key ∉ w.storage.migratedKeys ∧ w.storage.cache key = none

instance (w : Migration) (key : JsString) : Decidable (w.LooksAtFallback key) :=
  inferInstanceAs (Decidable (_ ∧ _))

def fallbackValue (w : Migration) (key : JsString) : Option JsString :=
  w.storage.fallbackStorage.bind (· key)

def migrate (json : JsonSets) (w : Migration) (key : JsString) : Migration :=
  let w := { w with
    storage := { w.storage with migratedKeys := w.storage.migratedKeys ++ [key] } }
  match w.fallbackValue key with
  | none => w
  | some value =>
    let w := w.perform (w.storage.toStorage.set key (some value) false)
    let w := if w.storage.isFallbackStorageReadonly then w else { w with
      storage := { w.storage with
        fallbackStorage := w.storage.fallbackStorage.map (Function.update · key none) } }
    w.persistMigratedKeys json

def get (json : JsonSets) (w : Migration) (key : JsString) (fallbackValue : Option JsString) :
    Migration × Option JsString :=
  let w := if w.LooksAtFallback key then w.migrate json key else w
  (w, (w.storage.cache key).or fallbackValue)

inductive MigrationAction where
  | get (key : JsString) (fallbackValue : Option JsString)
  | set (key : JsString) (value : Option JsString)
  | delete (key : JsString)
  | setFallbackStorage (items : Items) (isReadonly : Bool)
  /-- `flushPending`, whenever the delayer or a `flush` lets it run. -/
  | flush
  | restart

/-- The keys of an action do not start with the internal prefix. -/
def MigrationAction.Ordinary : MigrationAction → Prop
  | .get key _ => ¬ internalKeyPrefix.isPrefixOf key
  | .set key _ => ¬ internalKeyPrefix.isPrefixOf key
  | .delete key => ¬ internalKeyPrefix.isPrefixOf key
  | _ => True

/-- A key is set or deleted from outside. -/
def change (w : Migration) (key : JsString) : Migration :=
  { w with changed := key :: w.changed, migrated := Function.update w.migrated key none }

def step (json : JsonSets) (w : Migration) : MigrationAction → Migration
  | .get key fallbackValue =>
    let w' := (w.get json key fallbackValue).1
    if w.LooksAtFallback key ∧ key ∉ w.changed ∧ w.fallbackValue key ≠ none then
      { w' with migrated := Function.update w.migrated key (w.fallbackValue key) }
    else w'
  | .set key value => (w.perform (w.storage.toStorage.set key value false)).change key
  | .delete key => (w.perform (w.storage.toStorage.delete key false)).change key
  | .setFallbackStorage items isReadonly =>
    { w with storage := { w.storage with
        fallbackStorage := some items
        isFallbackStorageReadonly := isReadonly } }
  | .flush =>
    w.perform ⟨w.storage.toStorage.flushPending.1, none, w.storage.toStorage.flushPending.2⟩
  | .restart => { w with storage := init json none w.database }

/-- A restart finds the values that were taken over from the fallback in the database. -/
def Flushed (w : Migration) : MigrationAction → Prop
  | .restart => ∀ key value, w.migrated key = some value →
      w.storage.toStorage.pending.write key = none
  | _ => True

inductive Reachable (json : JsonSets) : Migration → Prop
  | init (hint : Option StorageHint) :
      Reachable json ⟨init json hint fun _ => none, fun _ => none, [], fun _ => none⟩
  | step {w : Migration} (a : MigrationAction) :
      Reachable json w → a.Ordinary → w.Flushed a → Reachable json (w.step json a)

variable {json : JsonSets} {w w' w'' : Migration} {k key : JsString} {value : Option JsString}
  {e : Effect} {change : Option (Option JsString)}

/-- What is in the storage will be in the database. -/
def Coherent (w : Migration) (k : JsString) : Prop :=
  w.storage.cache k = (w.storage.toStorage.pending.write k).getD (w.database k)

def Blank (w : Migration) (k : JsString) : Prop :=
  w.storage.toStorage.pending.write k = none ∧ w.database k = none

structure Writes (w w' : Migration) (k : JsString) (change : Option (Option JsString)) : Prop where
  cache : w'.storage.cache k = change.getD (w.storage.cache k)
  coherent : w.Coherent k → w'.Coherent k
  blank : change = none → w.Blank k → w'.Blank k
  state : w'.storage.state = w.storage.state
  changed : w'.changed = w.changed
  migrated : w'.migrated = w.migrated

theorem Writes.trans {later : Option (Option JsString)} (h : Writes w w' k change)
    (h' : Writes w' w'' k later) : Writes w w'' k (later.or change) where
  cache := by rw [h'.cache, h.cache, getD_or]
  coherent := h'.coherent ∘ h.coherent
  blank hnone hblank := by
    obtain ⟨hlater, hchange⟩ := or_eq_none_iff.mp hnone
    exact h'.blank hlater (h.blank hchange hblank)
  state := h'.state.trans h.state
  changed := h'.changed.trans h.changed
  migrated := h'.migrated.trans h.migrated

theorem Writes.of_eq (hstorage : w'.storage.toStorage = w.storage.toStorage)
    (hdatabase : w'.database = w.database) (hchanged : w'.changed = w.changed)
    (hmigrated : w'.migrated = w.migrated) : Writes w w' k none where
  cache := by rw [hstorage, getD_none]
  coherent h := by
    rw [Coherent, hstorage, hdatabase]
    exact h
  blank _ h := by
    rw [Blank, hstorage, hdatabase]
    exact h
  state := by rw [hstorage]
  changed := hchanged
  migrated := hmigrated

theorem writes_perform (h : Storage.Performs w.storage.toStorage e k change)
    (hstate : e.storage.state = w.storage.state) : Writes w (w.perform e) k change := by
  have hhandover : (e.storage.pending.write k).or (e.request.bind (·.write k)) =
      change.or (w.storage.toStorage.pending.write k) := by
    rw [← h.handover]
    cases e.request <;> simp
  refine ⟨h.cache, fun hcoherent => ?_, fun hchange hblank => ?_, hstate, rfl, rfl⟩
  · rw [Coherent] at hcoherent ⊢
    show e.storage.cache k = (e.storage.pending.write k).getD
      ((e.request.bind (·.write k)).getD (w.database k))
    rw [← getD_or, hhandover, getD_or, ← hcoherent, h.cache]
  · rw [hchange, none_or, hblank.1, or_eq_none_iff] at hhandover
    refine ⟨hhandover.1, ?_⟩
    show (e.request.bind (·.write k)).getD (w.database k) = none
    rw [hhandover.2, getD_none, hblank.2]

theorem writes_set (w : Migration) (key : JsString) (value : Option JsString) (k : JsString) :
    Writes w (w.perform (w.storage.toStorage.set key value false)) k
      (w.storage.toStorage.written key value k) :=
  have h := @Storage.set_spec w.storage.toStorage key k value false
  writes_perform h.1 h.2.2.1

theorem written_of_ne (hk : key ≠ k) : w.storage.toStorage.written key value k = none := by
  rw [Storage.written, if_neg hk, ite_self]

theorem ne_migratedKey (hk : ¬ internalKeyPrefix.isPrefixOf k) : migratedKey ≠ k := by
  rintro rfl
  exact hk (by decide)

theorem writes_migrate (hopen : w.storage.state ≠ .closed) (hcache : w.storage.cache key = none)
    (hk : ¬ internalKeyPrefix.isPrefixOf k) :
    Writes w (w.migrate json key) k
      (if key = k then (w.fallbackValue key).map some else none) := by
  have hmarked : Writes w { w with storage := { w.storage with
      migratedKeys := w.storage.migratedKeys ++ [key] } } k none := .of_eq rfl rfl rfl rfl
  rw [migrate]
  split
  · rename_i hnone
    replace hnone : w.fallbackValue key = none := hnone
    rw [hnone, map_none, ite_self]
    exact hmarked
  · rename_i v hsome
    replace hsome : w.fallbackValue key = some v := hsome
    have hwritten : w.storage.toStorage.written key (some v) k =
        if key = k then (w.fallbackValue key).map some else none := by
      rw [Storage.written, if_neg (by rw [hcache]; simp [hopen]), hsome, map_some]
    have hset := hmarked.trans (writes_set _ key (some v) k)
    rw [show (MigratingStorage.toStorage _).written key (some v) k = _ from hwritten,
      or_none] at hset
    generalize perform _ _ = w₂ at hset
    have hdeleted : Writes w₂ (if w₂.storage.isFallbackStorageReadonly then w₂ else { w₂ with
        storage := { w₂.storage with
          fallbackStorage := w₂.storage.fallbackStorage.map (Function.update · key none) } }) k
        none := by
      split <;> exact .of_eq rfl rfl rfl rfl
    have hpersisted (w₃ : Migration) : Writes w₃ (w₃.persistMigratedKeys json) k none := by
      have h := writes_set w₃ migratedKey (some (json.stringify w₃.storage.migratedKeys)) k
      rw [written_of_ne (ne_migratedKey hk)] at h
      exact h
    have h := (hset.trans hdeleted).trans (hpersisted _)
    rw [none_or, none_or] at h
    exact h

theorem writes_get (hopen : w.storage.state ≠ .closed) (fallbackValue : Option JsString)
    (hk : ¬ internalKeyPrefix.isPrefixOf k) : Writes w (w.get json key fallbackValue).1 k
      (if key = k ∧ w.LooksAtFallback key then (w.fallbackValue key).map some else none) := by
  rw [get]
  dsimp only
  split
  · rename_i hlooks
    have h := @writes_migrate json w k key hopen hlooks.2.2 hk
    simpa [hlooks] using h
  · rename_i hlooks
    simp only [hlooks, and_false, if_false]
    exact .of_eq rfl rfl rfl rfl

/-- Keys that were neither changed nor taken over are nowhere, and what was taken over is stored. -/
structure Kept (w : Migration) : Prop where
  opened : w.storage.state ≠ .closed
  coherent : ∀ k, ¬ internalKeyPrefix.isPrefixOf k → w.Coherent k
  blank : ∀ k, ¬ internalKeyPrefix.isPrefixOf k → k ∉ w.changed → w.migrated k = none → w.Blank k
  stored : ∀ k v, w.migrated k = some v →
    w.storage.cache k = some v ∧ ¬ internalKeyPrefix.isPrefixOf k ∧ k ∉ w.changed

theorem kept_init (hint : Option StorageHint) :
    Kept ⟨init json hint fun _ => none, fun _ => none, [], fun _ => none⟩ where
  opened := by simp [init, System.initial]
  coherent k _ := by simp [Coherent, init, System.initial, Storage.pending, IUpdateRequest.write,
    updateItems]
  blank k _ _ _ := by simp [Blank, init, System.initial, Storage.pending, IUpdateRequest.write,
    updateItems]
  stored k v h := nomatch h

theorem kept_change (h : Kept w) (hw : ∀ k, ¬ internalKeyPrefix.isPrefixOf k →
    ∃ c, Writes w w' k c ∧ (key ≠ k → c = none)) (hstate : w'.storage.state = w.storage.state)
    (hchanged : w'.changed = w.changed) (hmigrated : w'.migrated = w.migrated) :
    Kept (w'.change key) where
  opened := by
    show w'.storage.state ≠ .closed
    rw [hstate]
    exact h.opened
  coherent k hk := by
    obtain ⟨c, hc, -⟩ := hw k hk
    exact hc.coherent (h.coherent k hk)
  blank k hk hnot hnone := by
    obtain ⟨c, hc, hne⟩ := hw k hk
    replace hnot : k ∉ key :: w'.changed := hnot
    rw [List.mem_cons, not_or, hchanged] at hnot
    replace hnone : Function.update w'.migrated key none k = none := hnone
    rw [update_of_ne hnot.1, hmigrated] at hnone
    exact hc.blank (hne (Ne.symm hnot.1)) (h.blank k hk hnot.2 hnone)
  stored k v hv := by
    replace hv : Function.update w'.migrated key none k = some v := hv
    have hne : k ≠ key := by
      rintro rfl
      rw [update_self] at hv
      exact nomatch hv
    rw [update_of_ne hne, hmigrated] at hv
    obtain ⟨hcache, hk, hnot⟩ := h.stored k v hv
    obtain ⟨c, hc, hnone⟩ := hw k hk
    refine ⟨?_, hk, ?_⟩
    · show w'.storage.cache k = some v
      rw [hc.cache, hnone (Ne.symm hne), getD_none, hcache]
    · show k ∉ key :: w'.changed
      rw [hchanged]
      exact List.not_mem_cons_of_ne_of_not_mem hne hnot

theorem Kept.of_writes (h : Kept w)
    (hw : ∀ k, ¬ internalKeyPrefix.isPrefixOf k → Writes w w' k none)
    (hstate : w'.storage.state = w.storage.state) (hchanged : w'.changed = w.changed)
    (hmigrated : w'.migrated = w.migrated) : Kept w' where
  opened := by
    rw [hstate]
    exact h.opened
  coherent k hk := (hw k hk).coherent (h.coherent k hk)
  blank k hk hnot hnone := by
    rw [hchanged] at hnot
    rw [hmigrated] at hnone
    exact (hw k hk).blank rfl (h.blank k hk hnot hnone)
  stored k v hv := by
    rw [hmigrated] at hv
    rw [hchanged]
    obtain ⟨hcache, hk, hnot⟩ := h.stored k v hv
    exact ⟨by rw [(hw k hk).cache, getD_none, hcache], hk, hnot⟩

theorem kept_get (h : Kept w) (fallbackValue : Option JsString) :
    Kept (w.step json (.get key fallbackValue)) := by
  have hw (k : JsString) (hk : ¬ internalKeyPrefix.isPrefixOf k) :=
    @writes_get json w k key h.opened fallbackValue hk
  rw [step]
  by_cases hnew : w.LooksAtFallback key ∧ key ∉ w.changed ∧ w.fallbackValue key ≠ none
  · rw [if_pos hnew]
    have hkey := hnew.1.1
    have hchanged := (hw key hkey).changed
    have hstate := (hw key hkey).state
    generalize (w.get json key fallbackValue).1 = w' at hw hchanged hstate
    refine ⟨?_, fun k hk => (hw k hk).coherent (h.coherent k hk), fun k hk hnot hnone => ?_,
      fun k v hv => ?_⟩
    · show w'.storage.state ≠ .closed
      rw [hstate]
      exact h.opened
    · replace hnot : k ∉ w'.changed := hnot
      replace hnone : Function.update w.migrated key (w.fallbackValue key) k = none := hnone
      rw [hchanged] at hnot
      have hne : k ≠ key := by
        rintro rfl
        rw [update_self] at hnone
        exact hnew.2.2 hnone
      rw [update_of_ne hne] at hnone
      exact (hw k hk).blank (if_neg fun h => hne h.1.symm) (h.blank k hk hnot hnone)
    · replace hv : Function.update w.migrated key (w.fallbackValue key) k = some v := hv
      show w'.storage.cache k = some v ∧ _ ∧ k ∉ w'.changed
      rw [hchanged]
      by_cases hne : k = key
      · subst hne
        rw [update_self] at hv
        refine ⟨?_, hkey, hnew.2.1⟩
        rw [(hw k hkey).cache, if_pos ⟨rfl, hnew.1⟩, hv]
        rfl
      · rw [update_of_ne hne] at hv
        obtain ⟨hcache, hk, hnot⟩ := h.stored k v hv
        refine ⟨?_, hk, hnot⟩
        rw [(hw k hk).cache, if_neg fun h => hne h.1.symm, getD_none, hcache]
  · -- Nothing is taken over, or it is for a key that was changed.
    rw [if_neg hnew]
    have hnone (k : JsString) (hnot : k ∉ w.changed) :
        (if key = k ∧ w.LooksAtFallback key then (w.fallbackValue key).map some else none) =
          none := by
      by_cases hlooks : key = k ∧ w.LooksAtFallback key
      · have hvalue : w.fallbackValue key = none := by
          by_contra hvalue
          exact hnew ⟨hlooks.2, hlooks.1 ▸ hnot, hvalue⟩
        rw [hvalue, map_none, ite_self]
      · rw [if_neg hlooks]
    have hrest : (w.get json key fallbackValue).1.storage.state = w.storage.state ∧
        (w.get json key fallbackValue).1.changed = w.changed ∧
        (w.get json key fallbackValue).1.migrated = w.migrated := by
      have h := hw [] (by decide)
      exact ⟨h.state, h.changed, h.migrated⟩
    obtain ⟨hstate, hchanged, hmigrated⟩ := hrest
    refine ⟨hstate ▸ h.opened, fun k hk => (hw k hk).coherent (h.coherent k hk),
      fun k hk hnot hv => ?_, fun k v hv => ?_⟩
    · rw [hchanged] at hnot
      rw [hmigrated] at hv
      exact (hw k hk).blank (hnone k hnot) (h.blank k hk hnot hv)
    · rw [hmigrated] at hv
      obtain ⟨hcache, hk, hnot⟩ := h.stored k v hv
      rw [hchanged]
      exact ⟨by rw [(hw k hk).cache, hnone k hnot, getD_none, hcache], hk, hnot⟩

theorem kept_step {a : MigrationAction} (h : Kept w) (ha : a.Ordinary) (hflushed : w.Flushed a) :
    Kept (w.step json a) := by
  cases a with
  | get key fallbackValue => exact kept_get h fallbackValue
  | set key value =>
    exact kept_change h (fun k _ => ⟨_, writes_set w key value k, written_of_ne⟩)
      (Storage.set_spec (k := key)).2.2.1 rfl rfl
  | delete key =>
    exact kept_change h (fun k _ => ⟨_, writes_perform Storage.delete_spec.1
      (Storage.delete_spec (k := k)).2.2.1, written_of_ne⟩)
      (Storage.delete_spec (k := key)).2.2.1 rfl rfl
  | setFallbackStorage items isReadonly =>
    exact h.of_writes (fun k _ => .of_eq rfl rfl rfl rfl) rfl rfl rfl
  | flush =>
    exact h.of_writes (fun k _ => writes_perform Storage.performs_flushPending
      Storage.flushPending_state) Storage.flushPending_state rfl rfl
  | restart =>
    refine ⟨by simp [step, init, System.initial], fun k _ => ?_, fun k hk hnot hnone => ?_,
      fun k v hv => ?_⟩
    · simp [step, Coherent, init, System.initial, Storage.pending, IUpdateRequest.write,
        updateItems]
    · have hblank := h.blank k hk hnot hnone
      refine ⟨?_, hblank.2⟩
      simp [step, init, System.initial, Storage.pending, IUpdateRequest.write, updateItems]
    · obtain ⟨hcache, hk, hnot⟩ := h.stored k v hv
      have hcoherent := h.coherent k hk
      rw [Coherent, hflushed k v hv, getD_none, hcache] at hcoherent
      exact ⟨hcoherent.symm, hk, hnot⟩

theorem Reachable.kept (h : Reachable json w) : Kept w := by
  induction h with
  | init hint => exact kept_init hint
  | step a _ ha hflushed ih => exact kept_step ih ha hflushed

/-- A key that was changed is not taken over any more. A key that was not, and was not taken over
yet, is taken over if the fallback has it. -/
def GetsRight (json : JsonSets) (w : Migration) (key : JsString) (fallbackValue : Option JsString) :
    Prop :=
  (key ∈ w.changed →
    (w.get json key fallbackValue).1.storage.cache key = w.storage.cache key ∧
      (w.get json key fallbackValue).2 = (w.storage.cache key).or fallbackValue) ∧
  (key ∉ w.changed → w.migrated key = none → ∀ v, w.fallbackValue key = some v →
    (w.get json key fallbackValue).2 = some v ∧
      (w.step json (.get key fallbackValue)).migrated key = some v)

/-- Values that were taken over are stored until they are changed. A read is right unless the
fallback has a value for it and either the key was changed and is neither stored nor marked as
migrated, or it was neither changed nor taken over and is marked. -/
theorem getsRight_iff (json : JsonSets) (w : Migration) (h : Reachable json w) :
    (∀ key v, w.migrated key = some v → w.storage.cache key = some v) ∧
    ∀ key fallbackValue, ¬ internalKeyPrefix.isPrefixOf key →
      (w.GetsRight json key fallbackValue ↔
        (w.fallbackValue key ≠ none →
          (key ∈ w.changed → w.storage.cache key ≠ none ∨ key ∈ w.storage.migratedKeys) ∧
          (key ∉ w.changed → w.migrated key = none → key ∉ w.storage.migratedKeys))) := by
  have hkept := h.kept
  refine ⟨fun key v hv => (hkept.stored key v hv).1, fun key fallbackValue hkey => ?_⟩
  have hget := @writes_get json w key key hkept.opened fallbackValue hkey
  have hvalue : (w.get json key fallbackValue).2 =
      ((w.get json key fallbackValue).1.storage.cache key).or fallbackValue := rfl
  rw [GetsRight, hvalue, hget.cache]
  by_cases hlooks : w.LooksAtFallback key
  · obtain ⟨-, hunmarked, hcache⟩ := id hlooks
    rw [if_pos ⟨rfl, hlooks⟩, hcache]
    cases hv : w.fallbackValue key with
    | none => simp
    | some v =>
      -- The value is taken over, which is right unless the key was changed.
      have hstep : key ∉ w.changed →
          (w.step json (.get key fallbackValue)).migrated key = some v := fun hnot => by
        rw [step, if_pos ⟨hlooks, hnot, by rw [hv]; exact Option.some_ne_none v⟩, hv]
        exact Function.update_self _ _ _
      simp [hunmarked]
      tauto
  · have hstored : w.storage.cache key ≠ none ∨ key ∈ w.storage.migratedKeys := by
      rw [LooksAtFallback, not_and_or, not_and_or, not_not] at hlooks
      tauto
    rw [if_neg fun h => hlooks h.2, Option.getD_none]
    have hstep : (w.step json (.get key fallbackValue)).migrated = w.migrated := by
      rw [step, if_neg fun h => hlooks h.1]
      exact hget.migrated
    rw [hstep]
    constructor
    · intro h hvalue
      refine ⟨fun _ => hstored, fun hnot hnone => ?_⟩
      obtain ⟨v, hv⟩ := Option.ne_none_iff_exists'.mp hvalue
      have hmigrated := (h.2 hnot hnone v hv).2
      rw [hnone] at hmigrated
      exact nomatch hmigrated
    · intro h
      refine ⟨fun _ => ⟨rfl, rfl⟩, fun hnot hnone v hv => ?_⟩
      have hunmarked := (h (by rw [hv]; exact Option.some_ne_none v)).2 hnot hnone
      obtain ⟨hpending, hdatabase⟩ := hkept.blank key hkey hnot hnone
      have hcache := hkept.coherent key hkey
      rw [Coherent, hpending, Option.getD_none, hdatabase] at hcache
      exact absurd hcache (hstored.resolve_right hunmarked)

/-- `["a","b"]`, for keys without escapes; no marker is read back. -/
def plainJson : JsonSets :=
  ⟨fun keys => [91] ++ List.intercalate [44] (keys.map fun key => [34] ++ key ++ [34]) ++ [93],
    fun _ => none⟩

theorem getsRight_untouched :
    GetsRight plainJson
      (step plainJson ⟨init plainJson none fun _ => none, fun _ => none, [], fun _ => none⟩
        (.setFallbackStorage (fun _ => some [98]) false)) [97] none :=
  ((getsRight_iff plainJson _ (.step (.setFallbackStorage (fun _ => some [98]) false) (.init none)
    trivial trivial)).2 [97] none (by decide)).mpr fun _ => ⟨by decide, fun _ _ => by decide⟩

/-- A key that is set and deleted before it is read comes back with the value of the fallback. -/
theorem deleted_comes_back :
    ∃ w, Reachable plainJson w ∧ [97] ∈ w.changed ∧ w.storage.cache [97] = none ∧
      w.fallbackValue [97] = some [98] ∧ (w.get plainJson [97] none).2 = some [98] := by
  have hkey : ¬ internalKeyPrefix.isPrefixOf ([97] : JsString) := by decide
  refine ⟨_, .step (.delete [97]) (.step (.set [97] (some [99]))
    (.step (.setFallbackStorage (fun _ => some [98]) false) (.init none) trivial trivial)
      hkey trivial) hkey trivial, ?_⟩
  decide

end Migration

end CodeOss.Persistence
