import CodeOss.Base.JsString
import CodeOss.Library.CrossingWrites

/-! `Storage`: a map in memory over a database. Changes are collected and handed over to the
database later; what other writers change in the database comes back as events. -/

namespace CodeOss.Persistence

open CrossingWrites

abbrev Items := JsString → Option JsString

inductive StorageHint where
  | storageDoesNotExist
  | storageInMemory
deriving DecidableEq

structure IUpdateRequest where
  insert : AList fun _ : JsString => JsString
  delete : List JsString

structure IStorageItemsChangeEvent where
  changed : AList fun _ : JsString => JsString
  deleted : List JsString

/-- The loops over an event: first what was changed, then what was deleted. -/
def IStorageItemsChangeEvent.changes (e : IStorageItemsChangeEvent) :
    List (JsString × Option JsString) :=
  (e.changed.entries.map fun c => (c.1, some c.2)) ++ e.deleted.map fun key => (key, none)

structure IStorageChangeEvent where
  key : JsString
  isExternal : Bool
deriving DecidableEq

inductive StorageState where
  | none
  | initialized
  | closed
deriving DecidableEq

/-- The callbacks of `whenFlushed` are told apart by numbers. -/
structure Storage where
  hint : Option StorageHint
  state : StorageState
  cache : Items
  pendingDeletes : List JsString
  pendingInserts : AList fun _ : JsString => JsString
  pendingClose : Bool
  whenFlushedCallbacks : List Nat

/-- What a method leaves: the storage, the event it fires, and the request it makes. -/
structure Effect where
  storage : Storage
  fired : Option IStorageChangeEvent
  request : Option IUpdateRequest

namespace Storage

variable (s : Storage)

def hasPending : Bool :=
  !s.pendingInserts.entries.isEmpty || !s.pendingDeletes.isEmpty

def pending : IUpdateRequest := ⟨s.pendingInserts, s.pendingDeletes⟩

def flushPending : Storage × Option IUpdateRequest :=
  if s.hasPending then ({ s with pendingDeletes := [], pendingInserts := ∅ }, some s.pending)
  else (s, none)

/-- In memory the changes are handed over at once, else the delayer does so later. -/
def doFlush (fired : Option IStorageChangeEvent) : Effect :=
  if s.hint = some .storageInMemory then ⟨s.flushPending.1, fired, s.flushPending.2⟩
  else ⟨s, fired, none⟩

def delete (key : JsString) (isExternal : Bool) : Effect :=
  if s.state = .closed then ⟨s, none, none⟩
  else if s.cache key = none then ⟨s, none, none⟩
  else
    doFlush
      { s with
        cache := Function.update s.cache key none
        pendingDeletes := s.pendingDeletes.insert key
        pendingInserts := s.pendingInserts.erase key }
      (some ⟨key, isExternal⟩)

/-- The value is the text it is stored as, or `none` for `undefined` and `null`. -/
def set (key : JsString) (value : Option JsString) (isExternal : Bool) : Effect :=
  if s.state = .closed then ⟨s, none, none⟩
  else
    match value with
    | none => s.delete key isExternal
    | some valueStr =>
      if s.cache key = some valueStr then ⟨s, none, none⟩
      else
        doFlush
          { s with
            cache := Function.update s.cache key (some valueStr)
            pendingInserts := s.pendingInserts.insert key valueStr
            pendingDeletes := s.pendingDeletes.filter (· ≠ key) }
          (some ⟨key, isExternal⟩)

def flush : Effect :=
  if s.state = .closed ∨ s.pendingClose then ⟨s, none, none⟩ else s.doFlush none

/-- Closing begins once. -/
def close : Effect :=
  if s.pendingClose then ⟨s, none, none⟩
  else doFlush { s with state := .closed, pendingClose := true } none

/-- The callback is kept, or not if there is nothing to wait for. -/
def whenFlushed (callback : Nat) : Storage × Bool :=
  if s.hasPending then ({ s with whenFlushedCallbacks := s.whenFlushedCallbacks ++ [callback] }, true)
  else (s, false)

/-- What `flushPending` does when the database is done: the callbacks that are called. -/
def releaseWaiters : Storage × List Nat :=
  if s.hasPending then (s, [])
  else ({ s with whenFlushedCallbacks := [] }, s.whenFlushedCallbacks.reverse)

def acceptExternal (key : JsString) (value : Option JsString) :
    Storage × Option IStorageChangeEvent :=
  if s.state = .closed then (s, none)
  else
    match value with
    | none =>
      ({ s with cache := Function.update s.cache key none },
        if s.cache key = none then none else some ⟨key, true⟩)
    | some v =>
      if s.cache key = some v then (s, none)
      else ({ s with cache := Function.update s.cache key (some v) }, some ⟨key, true⟩)

def acceptAll (s : Storage) : List (JsString × Option JsString) → Storage × List IStorageChangeEvent
  | [] => (s, [])
  | (key, value) :: rest =>
    let r := s.acceptExternal key value
    let r' := acceptAll r.1 rest
    (r'.1, r.2.toList ++ r'.2)

def onDidChangeItemsExternal (e : IStorageItemsChangeEvent) : Storage × List IStorageChangeEvent :=
  s.acceptAll e.changes

end Storage

def updateItems (changed : AList fun _ : JsString => JsString) (deleted : List JsString)
    (key : JsString) : Option (Option JsString) :=
  if key ∈ deleted then some none else (changed.lookup key).map some

def IUpdateRequest.write (r : IUpdateRequest) (key : JsString) : Option (Option JsString) :=
  updateItems r.insert r.delete key

def IStorageItemsChangeEvent.write (e : IStorageItemsChangeEvent) (key : JsString) :
    Option (Option JsString) :=
  updateItems e.changed e.deleted key

/-- `requests` are those the database has not applied, in order, and `unsettled` is the number
of applied ones whose promise has not settled. The events are those that have not arrived.
Counted are the changes made and those of them that were handed over; for each callback called
there is its number and how many changes were handed over then. -/
structure System where
  storage : Storage
  database : Items
  requests : List IUpdateRequest
  unsettled : Nat
  events : List IStorageItemsChangeEvent
  made : Nat
  handed : Nat
  called : List (Nat × Nat)

inductive Action where
  | set (key : JsString) (value : Option JsString) (isExternal : Bool)
  | delete (key : JsString) (isExternal : Bool)
  | flush
  | close
  | whenFlushed
  | runFlush
  /-- The database applies the first request. -/
  | apply
  /-- The promise of an applied request settles. -/
  | settle
  | write (e : IStorageItemsChangeEvent)
  | deliver

namespace System

variable (w : System)

def perform (e : Effect) : System :=
  let made := if e.fired.isSome then w.made + 1 else w.made
  { w with
    storage := e.storage
    requests := w.requests ++ e.request.toList
    made
    handed := if e.request.isSome then made else w.handed }

/-- The next state, or `none` where the action cannot happen. A callback is registered under the
number of changes made before. -/
def step : Action → Option System
  | .set key value isExternal => some (w.perform (w.storage.set key value isExternal))
  | .delete key isExternal => some (w.perform (w.storage.delete key isExternal))
  | .flush => some (w.perform w.storage.flush)
  | .close => some (w.perform w.storage.close)
  | .whenFlushed =>
    let r := w.storage.whenFlushed w.made
    some { w with
      storage := r.1
      called := if r.2 then w.called else w.called ++ [(w.made, w.handed)] }
  | .runFlush => some (w.perform ⟨w.storage.flushPending.1, none, w.storage.flushPending.2⟩)
  | .apply =>
    match w.requests with
    | [] => none
    | r :: requests =>
      some { w with
        database := fun key => (r.write key).getD (w.database key)
        requests
        unsettled := w.unsettled + 1 }
  | .settle =>
    if w.unsettled = 0 then none
    else
      let r := w.storage.releaseWaiters
      some { w with
        storage := r.1
        unsettled := w.unsettled - 1
        called := w.called ++ r.2.map fun callback => (callback, w.handed) }
  | .write e =>
    some { w with
      database := fun key => (e.write key).getD (w.database key)
      events := w.events ++ [e] }
  | .deliver =>
    match w.events with
    | [] => none
    | e :: events =>
      some { w with storage := (w.storage.onDidChangeItemsExternal e).1, events }

def run (w : System) : List Action → Option System
  | [] => some w
  | a :: as => (w.step a).bind fun w => run w as

/-- After `init`: the items are not read where there can be none. -/
def initial (hint : Option StorageHint) (database : Items) : System where
  storage :=
    { hint
      state := .initialized
      cache := if hint = some .storageDoesNotExist then fun _ => none else database
      pendingDeletes := []
      pendingInserts := ∅
      pendingClose := false
      whenFlushedCallbacks := [] }
  database
  requests := []
  unsettled := 0
  events := []
  made := 0
  handed := 0
  called := []

/-- Nothing is pending, and no request or event is in flight. -/
def Settled : Prop :=
  w.storage.hasPending = false ∧ w.requests = [] ∧ w.unsettled = 0 ∧ w.events = []

instance (w : System) : Decidable w.Settled :=
  inferInstanceAs (Decidable (_ ∧ _))

/-- What is on its way to the database, key by key. -/
def toDatabase (key : JsString) : List (Option (Option JsString)) :=
  (w.requests ++ [w.storage.pending]).map (·.write key)

/-- What is on its way to the storage, which accepts nothing once it is closed. -/
def toStorage (key : JsString) : List (Option (Option JsString)) :=
  if w.storage.state = .closed then [] else w.events.map (·.write key)

end System

/-- A key is left as it is, or it gets a value that will be in the database and in the cache, or
the change crosses a different one that is on its way. -/
inductive Outcome where
  | unchanged
  | agreed (value : Option JsString)
  | crossed
deriving DecidableEq

/-- A later outcome replaces an earlier one. -/
def Outcome.followedBy (earlier later : Outcome) : Outcome :=
  if later = .unchanged then earlier else later

namespace System

def changeLocally (w : System) (key : JsString) (value : Option JsString) : Outcome :=
  if w.storage.state = .closed ∨ w.storage.cache key = value then .unchanged
  else if after (w.toStorage key) value = value then .agreed value
  else .crossed

def outcome (w : System) (key : JsString) : Action → Outcome
  | .set key' value _ => if key' = key then w.changeLocally key value else .unchanged
  | .delete key' _ => if key' = key then w.changeLocally key none else .unchanged
  | .write e =>
    match e.write key with
    | none => .unchanged
    | some value =>
      if w.storage.state = .closed then
        -- The cache stays as it is.
        if after (w.toDatabase key) value = w.storage.cache key then
          .agreed (w.storage.cache key)
        else .crossed
      else if after (w.toDatabase key) value = value then .agreed value
      else .crossed
  | .close =>
    -- What is on its way to the storage will not be accepted.
    if last (w.toStorage key) = none then .unchanged
    else if after (w.toDatabase key) (w.database key) = w.storage.cache key then
      .agreed (w.storage.cache key)
    else .crossed
  | .flush | .whenFlushed | .runFlush | .apply | .settle | .deliver => .unchanged

def outcomeOfRun (key : JsString) : Outcome → System → List Action → Outcome
  | earlier, _, [] => earlier
  | earlier, w, a :: as =>
    match w.step a with
    | none => earlier
    | some w' => outcomeOfRun key (earlier.followedBy (w.outcome key a)) w' as

/-- A key is set by the storage when no other value is on its way to it, and not changed after
that. -/
def SetLast (w : System) (actions : List Action) (key value : JsString) : Prop :=
  ∃ earlier isExternal later w₁ w₂,
    actions = earlier ++ .set key (some value) isExternal :: later ∧
    w.run earlier = some w₁ ∧ w₁.storage.state ≠ .closed ∧
    after (w₁.toStorage key) (some value) = some value ∧
    w₁.step (.set key (some value) isExternal) = some w₂ ∧
    outcomeOfRun key .unchanged w₂ later = .unchanged

end System

end CodeOss.Persistence
