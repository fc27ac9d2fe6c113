import CodeOss.AgentHost.Reconciliation

/-! One channel of the server and one subscription to it. The server answers actions in
the order of `serverSeq`; its answers travel to the client in that order, and a snapshot
can overtake them. -/

namespace CodeOss.AgentHost

variable {S D : Type}

structure World (S D : Type) where
  /-- Answers from before the client was on the channel. -/
  missed : List (ActionEnvelope D)
  /-- Answers the client got, or a snapshot covered. -/
  told : List (ActionEnvelope D)
  inFlight : List (ActionEnvelope D)
  nextClientSeq : Nat
  /-- The actions of the client since the last reconnect, in dispatch order. -/
  live : List (PendingAction D)
  client : AgentSubscription S D

inductive ChannelEvent (D : Type) where
  | dispatch (clientSeq : Nat) (action : StateAction D)
  | answer (envelope : ActionEnvelope D)
  | deliver
  /-- An envelope of another channel. -/
  | foreign (envelope : ActionEnvelope D)
  | snapshot (fromSeq : Nat)
  | reconnectSnapshot (fromSeq : Nat)

namespace World

variable (w : World S D)

def log : List (ActionEnvelope D) := w.missed ++ w.told ++ w.inFlight

/-- What the client knows of: answers it got or that a snapshot covered. -/
def seen : List (ActionEnvelope D) := w.missed ++ w.told

/-- The client subscribes, after some answers and with some numbers given away. -/
def start (kind : StateComponents) (uri clientId : String) (missed : List (ActionEnvelope D))
    (nextClientSeq : Nat) : World S D where
  missed := missed
  told := []
  inFlight := []
  nextClientSeq := nextClientSeq
  live := []
  client := AgentSubscription.create kind uri clientId

/-- The answers a snapshot brings along before they arrive leave the wire. -/
def covered (fromSeq : Nat) : World S D :=
  { w with
    told := w.told ++ w.inFlight.filter (·.serverSeq ≤ fromSeq)
    inFlight := w.inFlight.filter (fromSeq < ·.serverSeq) }

section Reducer

variable (reducer : S → StateAction D → S) (initial : S)

/-- The state a snapshot with `fromSeq` carries. -/
def snapshotState (w : World S D) (fromSeq : Nat) : S :=
  replay reducer initial (w.log.filter (·.serverSeq ≤ fromSeq))

def after (w : World S D) : ChannelEvent D → World S D
  | .dispatch clientSeq action =>
    { w with
      nextClientSeq := clientSeq + 1
      live := w.live ++ [⟨clientSeq, action⟩]
      client := w.client.applyOptimistic reducer clientSeq action }
  | .answer envelope => { w with inFlight := w.inFlight ++ [envelope] }
  | .deliver =>
    match w.inFlight with
    | [] => w
    | envelope :: rest =>
      { w with
        told := w.told ++ [envelope]
        inFlight := rest
        client := w.client.receiveEnvelope reducer envelope }
  | .foreign envelope => { w with client := w.client.receiveEnvelope reducer envelope }
  | .snapshot fromSeq =>
    { w.covered fromSeq with
      client := w.client.handleSnapshot reducer (w.snapshotState reducer initial fromSeq)
        fromSeq }
  | .reconnectSnapshot fromSeq =>
    { w.covered fromSeq with
      live := []
      client := w.client.applyReconnectSnapshot reducer
        (w.snapshotState reducer initial fromSeq) fromSeq }

end Reducer

/-- What can happen next. Numbers of the client are given away in ascending order, an answer
to one of its actions is the only one, a first snapshot reaches back to what the client
missed, and a reconnect snapshot covers whatever the client was told. -/
def Admissible : ChannelEvent D → Prop
  | .dispatch clientSeq action =>
    w.nextClientSeq ≤ clientSeq ∧ w.client.kind.isKind action = true
  | .answer envelope =>
    w.client.isRelevantEnvelope envelope = true ∧
      (∀ e ∈ w.log, e.serverSeq < envelope.serverSeq) ∧
      ∀ origin ∈ envelope.origin, origin.clientId = w.client.clientId →
        origin.clientSeq < w.nextClientSeq ∧ ∀ e ∈ w.log, e.origin ≠ some origin
  | .deliver => w.inFlight ≠ []
  | .foreign envelope => w.client.isRelevantEnvelope envelope = false
  | .snapshot fromSeq =>
    w.client.confirmedState = none ∧ ∀ e ∈ w.missed, e.serverSeq ≤ fromSeq
  | .reconnectSnapshot fromSeq => ∀ e ∈ w.seen, e.serverSeq ≤ fromSeq

/-- The steps that stay clear of the defects. An envelope is applied only if it is guarded;
the first snapshot must not cover an answer to a pending action; and before a reconnect
snapshot only a session may have something pending. -/
def Careful : ChannelEvent D → Prop
  | .deliver =>
    w.client.confirmedState ≠ none → ∀ e ∈ w.inFlight.head?,
      Guarded w.client.kind w.client.clientId w.client.pendingActions e
  | .snapshot fromSeq =>
    (∀ e ∈ w.log, e.serverSeq ≤ fromSeq → ∀ p ∈ w.client.pendingActions,
      p.answeredBy w.client.clientId e = false) ∧
    ∀ e ∈ w.client.bufferedEnvelopes, fromSeq < e.serverSeq →
      Guarded w.client.kind w.client.clientId w.client.pendingActions e
  | .reconnectSnapshot _ => w.client.kind = .session ∨ w.client.pendingActions = []
  | _ => True

instance (w : World S D) (event : ChannelEvent D) : Decidable (w.Admissible event) :=
  match event with
  | .dispatch _ _ => inferInstanceAs (Decidable (_ ∧ _))
  | .answer _ => inferInstanceAs (Decidable (_ ∧ _ ∧ _))
  | .deliver => inferInstanceAs (Decidable (¬ _ = _))
  | .foreign _ => inferInstanceAs (Decidable (_ = _))
  | .snapshot _ => inferInstanceAs (Decidable (_ ∧ _))
  | .reconnectSnapshot _ => inferInstanceAs (Decidable (∀ e ∈ _, _))

instance (w : World S D) (event : ChannelEvent D) : Decidable (w.Careful event) :=
  match event with
  | .dispatch _ _ => isTrue trivial
  | .answer _ => isTrue trivial
  | .deliver => inferInstanceAs (Decidable (_ → _))
  | .foreign _ => isTrue trivial
  | .snapshot _ => inferInstanceAs (Decidable (_ ∧ _))
  | .reconnectSnapshot _ => inferInstanceAs (Decidable (_ ∨ _))

/-- What the server answered before the client subscribed. -/
def Started : Prop :=
  ∃ kind uri clientId missed nextClientSeq,
    w = start kind uri clientId missed nextClientSeq ∧
    missed.Pairwise (fun e e' => e.serverSeq < e'.serverSeq) ∧
    AnsweredOnce clientId missed ∧
    ∀ e ∈ missed, ∀ origin ∈ e.origin, origin.clientId = clientId →
      origin.clientSeq < nextClientSeq

/-- The worlds the runs lead to whose steps meet a condition. -/
inductive Reached (reducer : S → StateAction D → S) (initial : S)
    (meets : World S D → ChannelEvent D → Prop) : World S D → Prop
  | start {w : World S D} (h : w.Started) : Reached reducer initial meets w
  | step {w : World S D} {event : ChannelEvent D} (h : Reached reducer initial meets w)
      (hadmissible : w.Admissible event) (hmeets : meets w event) :
      Reached reducer initial meets (w.after reducer initial event)

/-- After the first snapshot: the confirmed state is that of the accepted answers, the
pending actions are those without an answer, and the value puts them on top. -/
def Converged (reducer : S → StateAction D → S) (initial : S) (w : World S D) : Prop :=
  w.client.verifiedValue ≠ none →
    w.client.verifiedValue = some (replay reducer initial w.seen) ∧
    w.client.pendingActions = unanswered w.client.clientId w.seen w.live ∧
    w.client.value =
      some (predict reducer (replay reducer initial w.seen)
        (unanswered w.client.clientId w.seen w.live))

section Run

variable (reducer : S → StateAction D → S) (initial : S)

def run (w : World S D) (events : List (ChannelEvent D)) : World S D :=
  events.foldl (after reducer initial) w

def Runs (meets : World S D → ChannelEvent D → Prop) (w : World S D) :
    List (ChannelEvent D) → Prop
  | [] => True
  | event :: events =>
    w.Admissible event ∧ meets w event ∧ (w.after reducer initial event).Runs meets events

variable {reducer initial} {meets : World S D → ChannelEvent D → Prop}

theorem Reached.run {w : World S D} (h : Reached reducer initial meets w)
    {events : List (ChannelEvent D)} (hruns : w.Runs reducer initial meets events) :
    Reached reducer initial meets (w.run reducer initial events) := by
  induction events generalizing w with
  | nil => exact h
  | cons event events ih =>
    obtain ⟨hadmissible, hmeets, hrest⟩ := hruns
    exact ih (h.step hadmissible hmeets) hrest

end Run

end World

end CodeOss.AgentHost
