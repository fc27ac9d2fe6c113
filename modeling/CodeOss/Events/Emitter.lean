import Mathlib

/-! `Emitter` and its delivery queues. Listeners are arbitrary code: while one runs, any operation
on any emitter may come next, until it returns or throws. -/

namespace CodeOss.Event

/-- A listener alone, or an array of them, which keeps its identity while it is changed. -/
inductive Listeners
  | none
  | one (l : ℕ)
  | many (array : ℕ)

/-- The queue of an option, or the one that an emitter makes for itself. -/
inductive QueueName (E : Type)
  | shared (name : ℕ)
  | own (e : E)
deriving DecidableEq

structure Emitter (E : Type) where
  disposed : Bool
  listeners : Listeners
  deliveryQueue : Option (QueueName E)
  size : ℕ

/-- An event is numbered by the call that fires it. Before the first one the source has -1 for the
index, and it has no other use. -/
structure DeliveryQueue (E V : Type) where
  i : ℕ
  fin : ℕ
  current : Option E
  value : Option (ℕ × V)

namespace DeliveryQueue

variable {E V : Type}

def new : DeliveryQueue E V := ⟨0, 0, none, none⟩

def enqueue (emitter : E) (value : ℕ × V) (fin : ℕ) : DeliveryQueue E V :=
  ⟨0, fin, some emitter, some value⟩

def reset (dq : DeliveryQueue E V) : DeliveryQueue E V := ⟨dq.fin, dq.fin, none, none⟩

/-- What the removal of an empty place does to the indices, the listeners before it being `n`. -/
def closeUp (dq : DeliveryQueue E V) (n : ℕ) : DeliveryQueue E V :=
  if n < dq.fin then
    { dq with fin := dq.fin - 1, i := if n < dq.i then dq.i - 1 else dq.i }
  else dq

end DeliveryQueue

def compact {E V : Type} (adjust : Bool) : List (Option ℕ) → ℕ → DeliveryQueue E V →
    List (Option ℕ) × DeliveryQueue E V
  | [], _, dq => ([], dq)
  | some l :: rest, n, dq =>
    let (rest, dq) := compact adjust rest (n + 1) dq
    (some l :: rest, dq)
  | none :: rest, n, dq => compact adjust rest n (if adjust then dq.closeUp n else dq)

/-- What `fire` does once the queue is worked off. -/
inductive Continuation (E V : Type)
  | finish (k : ℕ)
  | fire (e : E) (k : ℕ) (v : V)

/-- A listener runs above each frame: one that a loop over a captured array has called, or one that
was alone. -/
inductive Frame (E V : Type)
  | deliver (q : QueueName E) (listeners : Listeners) (after : Continuation E V)
  | single (k : ℕ)

inductive Observation (E V : Type)
  | subscribed (e : E) (l : ℕ)
  | unsubscribed (e : E) (l : ℕ)
  | disposed (e : E)
  | fired (e : E) (k : ℕ) (v : V)
  | called (l : ℕ) (value : Option (ℕ × V))
  | finished (k : ℕ)
  | threw

structure State (E V : Type) where
  emitters : E → Emitter E
  queues : QueueName E → DeliveryQueue E V
  arrays : ℕ → List (Option ℕ)
  nextArray : ℕ
  /-- The emitters that the listeners are subscribed to, and which subscriptions are disposed. -/
  owner : List E
  removed : List ℕ
  fired : ℕ
  stack : List (Frame E V)
  log : List (Observation E V)

inductive Action (E V : Type)
  | subscribe (e : E)
  | unsubscribe (l : ℕ)
  | dispose (e : E)
  | fire (e : E) (v : V)
  | ret

/-- A loop calls a listener, throws or ends. -/
inductive Loop (S : Type)
  | calls (s : S)
  | throws (s : S)
  | ends (s : S)

/-- The next listener in the places from `i` on, and the place behind it. -/
def nextListener (entries : List (Option ℕ)) : ℕ → ℕ → Option (ℕ × ℕ)
  | 0, _ => none
  | n + 1, i =>
    match entries[i]? with
    | some (some l) => some (l, i + 1)
    | _ => nextListener entries n (i + 1)

namespace State

variable {E V : Type}

def init (options : E → Option ℕ) : State E V where
  emitters e := ⟨false, .none, (options e).map .shared, 0⟩
  queues _ := .new
  arrays _ := []
  nextArray := 0
  owner := []
  removed := []
  fired := 0
  stack := []
  log := []

variable (s : State E V)

def observe (o : Observation E V) : State E V := { s with log := s.log ++ [o] }

def markAsDisposed (e : E) (l : ℕ) : State E V :=
  { s.observe (.unsubscribed e l) with removed := l :: s.removed }

variable [DecidableEq E]

def setEmitter (e : E) (emitter : Emitter E) : State E V :=
  { s with emitters := Function.update s.emitters e emitter }

def setQueue (q : QueueName E) (dq : DeliveryQueue E V) : State E V :=
  { s with queues := Function.update s.queues q dq }

def setArray (array : ℕ) (entries : List (Option ℕ)) : State E V :=
  { s with arrays := Function.update s.arrays array entries }

def resetQueue (e : E) : State E V :=
  match (s.emitters e).deliveryQueue with
  | some q => if (s.queues q).current = some e then s.setQueue q (s.queues q).reset else s
  | none => s

def dispose (e : E) : State E V :=
  let emitter := s.emitters e
  if emitter.disposed then s
  else
    let s := (s.observe (.disposed e)).resetQueue e
    match emitter.listeners with
    | .none => s.setEmitter e { emitter with disposed := true }
    | _ => s.setEmitter e { emitter with disposed := true, listeners := .none, size := 0 }

/-- A subscription to an emitter that is disposed is none. -/
def subscribe (e : E) : State E V :=
  if (s.emitters e).disposed then s
  else
    let l := s.owner.length
    let s := { s.observe (.subscribed e l) with owner := s.owner ++ [e] }
    let emitter := { s.emitters e with size := (s.emitters e).size + 1 }
    match emitter.listeners with
    | .none => s.setEmitter e { emitter with listeners := .one l }
    | .one first =>
      let s := s.setArray s.nextArray [some first, some l]
      { s.setEmitter e { emitter with
          deliveryQueue := some (emitter.deliveryQueue.getD (.own e))
          listeners := .many s.nextArray } with
        nextArray := s.nextArray + 1 }
    | .many array => (s.setArray array (s.arrays array ++ [some l])).setEmitter e emitter

def removeListener (e : E) (l : ℕ) : State E V :=
  match (s.emitters e).listeners with
  | .none => s
  | .one _ =>
    if (s.emitters e).size = 1 then
      s.setEmitter e { s.emitters e with listeners := .none, size := 0 }
    else s.observe .threw
  | .many array =>
    if (s.emitters e).size = 1 then
      s.setEmitter e { s.emitters e with listeners := .none, size := 0 }
    else if some l ∈ s.arrays array then
      let listeners := (s.arrays array).set ((s.arrays array).idxOf (some l)) none
      let size := (s.emitters e).size - 1
      let s := s.setEmitter e { s.emitters e with size }
      match (s.emitters e).deliveryQueue with
      | none => (s.setArray array listeners).observe .threw
      | some q =>
        if size * 2 ≤ listeners.length then
          let (listeners, dq) :=
            compact (decide ((s.queues q).current = some e)) listeners 0 (s.queues q)
          (s.setArray array listeners).setQueue q dq
        else s.setArray array listeners
    else s.observe .threw

def unsubscribe (l : ℕ) : State E V :=
  match s.owner[l]? with
  | none => s
  | some e => if l ∈ s.removed then s else (s.markAsDisposed e l).removeListener e l

/-- The loop over a captured array. No place of a listener alone is set, and `undefined` has no
places to read. -/
def deliverQueue (q : QueueName E) (listeners : Listeners)
    (after : Continuation E V) : Loop (State E V) :=
  let dq := s.queues q
  match listeners with
  | .none =>
    if dq.i < dq.fin then .throws ((s.setQueue q { dq with i := dq.i + 1 }).observe .threw)
    else .ends (s.setQueue q dq.reset)
  | .one _ => .ends (s.setQueue q dq.reset)
  | .many array =>
    match nextListener (s.arrays array) (dq.fin - dq.i) dq.i with
    | none => .ends (s.setQueue q dq.reset)
    | some (l, i) =>
      .calls { (s.setQueue q { dq with i }).observe (.called l dq.value) with
        stack := .deliver q listeners after :: s.stack }

/-- The part of `fire` that is behind the work left in the queue. -/
def fireListeners (e : E) (k : ℕ) (v : V) : State E V :=
  match (s.emitters e).listeners with
  | .none => s.observe (.finished k)
  | .one l => { s.observe (.called l (some (k, v))) with stack := .single k :: s.stack }
  | .many array =>
    match (s.emitters e).deliveryQueue with
    | none => s.observe .threw
    | some q =>
      let s := s.setQueue q (.enqueue e (k, v) (s.arrays array).length)
      match s.deliverQueue q (s.emitters e).listeners (.finish k) with
      | .calls s => s
      | .throws s => s
      | .ends s => s.observe (.finished k)

def goOn (after : Continuation E V) : Loop (State E V) → State E V
  | .calls s => s
  | .throws s => s
  | .ends s =>
    match after with
    | .finish k => s.observe (.finished k)
    | .fire e k v => s.fireListeners e k v

def fire (e : E) (v : V) : State E V :=
  let k := s.fired
  let s := { s.observe (.fired e k v) with fired := s.fired + 1 }
  match (s.emitters e).deliveryQueue with
  | none => s.fireListeners e k v
  | some q =>
    match (s.queues q).current with
    | none => s.fireListeners e k v
    | some current =>
      goOn (.fire e k v) (s.deliverQueue q (s.emitters current).listeners (.fire e k v))

/-- The listener that runs returns, or throws what the error handler takes. -/
def ret : State E V :=
  match s.stack with
  | [] => s
  | .single k :: stack => { s.observe (.finished k) with stack }
  | .deliver q listeners after :: stack =>
    goOn after ({ s with stack }.deliverQueue q listeners after)

def step (s : State E V) : Action E V → State E V
  | .subscribe e => s.subscribe e
  | .unsubscribe l => s.unsubscribe l
  | .dispose e => s.dispose e
  | .fire e v => s.fire e v
  | .ret => s.ret

def run (s : State E V) (actions : List (Action E V)) : State E V := actions.foldl step s

end State

/-- A call of `fire` that has not returned, and the listeners that it has still to pass. -/
structure Delivery (E V : Type) where
  emitter : E
  value : V
  pending : List ℕ

structure Protocol (E V : Type) where
  live : E → List ℕ
  deliveries : ℕ → Option (Delivery E V)

namespace Protocol

variable {E V : Type}

def init : Protocol E V := ⟨fun _ => [], fun _ => none⟩

variable (a : Protocol E V)

/-- Those who are to be called: their subscriptions, and the emitter, are not disposed. -/
def due (d : Delivery E V) : List ℕ :=
  d.pending.filter (· ∈ a.live d.emitter)

def setDelivery (k : ℕ) (d : Option (Delivery E V)) : Protocol E V :=
  { a with deliveries := Function.update a.deliveries k d }

variable [DecidableEq E]

def setLive (e : E) (live : List ℕ) : Protocol E V :=
  { a with live := Function.update a.live e live }

variable [DecidableEq V]

/-- A call of `fire` is for those who are subscribed, in their order, and passes over who is not any
more when it is its turn. Who is due in an earlier call gets that event first. Nothing throws. -/
def step (a : Protocol E V) : Observation E V → Option (Protocol E V)
  | .subscribed e l => some (a.setLive e (a.live e ++ [l]))
  | .unsubscribed e l => some (a.setLive e ((a.live e).filter (· ≠ l)))
  | .disposed e => some (a.setLive e [])
  | .fired e k v => some (a.setDelivery k (some ⟨e, v, a.live e⟩))
  | .called l value => do
      let (k, v) ← value
      let d ← a.deliveries k
      if v = d.value ∧ (a.due d).head? = some l ∧ ∀ k' < k, ∀ d' ∈ a.deliveries k',
          d'.emitter = d.emitter → l ∉ a.due d' then
        some (a.setDelivery k (some { d with pending := (a.due d).tail }))
      else none
  | .finished k => do
      let d ← a.deliveries k
      if a.due d = [] then some (a.setDelivery k none) else none
  | .threw => none

def run (a : Protocol E V) (log : List (Observation E V)) : Option (Protocol E V) :=
  log.foldlM step a

end Protocol

namespace Frame

variable {E V : Type}

def fire : Frame E V → ℕ
  | .deliver _ _ (.finish k) => k
  | .deliver _ _ (.fire _ k _) => k
  | .single k => k

/-- A call of `fire` that waits until the queue is worked off. -/
def waiting : Frame E V → Option (E × ℕ × V)
  | .deliver _ _ (.fire e k v) => some (e, k, v)
  | .deliver _ _ (.finish _) => none
  | .single _ => none

end Frame

namespace State

variable {E V : Type}

def Waits (s : State E V) (e : E) : Prop := ∃ x ∈ s.stack.filterMap Frame.waiting, x.1 = e

/-- Some places of the array have still to be passed. -/
def Delivers (s : State E V) (e : E) : Prop :=
  ∃ q ∈ (s.emitters e).deliveryQueue, (s.queues q).current = some e ∧
    (s.queues q).i < (s.queues q).fin

/-- The last subscription is not disposed before it is passed, and while a call of `fire` waits for
the work left in the queue there is no new subscription to its emitter, and no event for those who
are subscribed. -/
def Careful (s : State E V) : Action E V → Prop
  | .subscribe e => (s.emitters e).disposed = false → ¬ s.Waits e
  | .unsubscribe l =>
    ∀ e ∈ s.owner[l]?, l ∉ s.removed → (s.emitters e).size = 1 → ¬ s.Delivers e
  | .dispose _ => True
  | .fire e _ => (s.emitters e).size ≠ 0 → ¬ s.Waits e
  | .ret => True

variable [DecidableEq E]

def CarefulRun : State E V → List (Action E V) → Prop
  | _, [] => True
  | s, action :: actions => s.Careful action ∧ (s.step action).CarefulRun actions

instance {s : State E V} {e : E} : Decidable (s.Waits e) :=
  inferInstanceAs (Decidable (∃ x ∈ s.stack.filterMap Frame.waiting, x.1 = e))

instance {s : State E V} {e : E} : Decidable (s.Delivers e) :=
  inferInstanceAs (Decidable (∃ q ∈ (s.emitters e).deliveryQueue, _ ∧ _))

instance {s : State E V} : (action : Action E V) → Decidable (s.Careful action)
  | .subscribe e => inferInstanceAs (Decidable ((s.emitters e).disposed = false → ¬ s.Waits e))
  | .unsubscribe l => inferInstanceAs (Decidable (∀ e ∈ s.owner[l]?, l ∉ s.removed →
      (s.emitters e).size = 1 → ¬ s.Delivers e))
  | .dispose _ => .isTrue trivial
  | .fire e _ => inferInstanceAs (Decidable ((s.emitters e).size ≠ 0 → ¬ s.Waits e))
  | .ret => .isTrue trivial

instance decidableCarefulRun :
    (actions : List (Action E V)) → (s : State E V) → Decidable (s.CarefulRun actions)
  | [], _ => .isTrue trivial
  | action :: actions, s =>
    have := decidableCarefulRun actions (s.step action)
    inferInstanceAs (Decidable (s.Careful action ∧ (s.step action).CarefulRun actions))

end State

end CodeOss.Event
