import Mathlib

/-! Subscriptions of an agent host client to a session, a changeset or the
annotations of a session: confirmed state, envelopes that arrive before the first
snapshot, and the client's own actions that are not yet answered. -/

namespace CodeOss.AgentHost

structure StateAction (D : Type) where
  type : String
  payload : D
deriving DecidableEq

structure ActionOrigin where
  clientId : String
  clientSeq : Nat
deriving DecidableEq

structure ActionEnvelope (D : Type) where
  channel : String
  action : StateAction D
  serverSeq : Nat
  origin : Option ActionOrigin
  rejectionReason : Option String
deriving DecidableEq

/-- The write-ahead kinds of `StateComponents` whose subscriptions are modelled. -/
inductive StateComponents where
  | session
  | changeset
  | annotations
deriving DecidableEq

def isSessionAction {D : Type} (action : StateAction D) : Bool :=
  action.type.startsWith "session/"

def isChangesetAction {D : Type} (action : StateAction D) : Bool :=
  action.type.startsWith "changeset/"

def isAnnotationsAction {D : Type} (action : StateAction D) : Bool :=
  action.type.startsWith "annotations/"

def StateComponents.isKind {D : Type} : StateComponents → StateAction D → Bool
  | session => isSessionAction
  | changeset => isChangesetAction
  | annotations => isAnnotationsAction

structure PendingAction (D : Type) where
  clientSeq : Nat
  action : StateAction D
deriving DecidableEq

variable {S D : Type}

/-- `!!envelope.rejectionReason`: the empty string counts as no reason. -/
def ActionEnvelope.rejected (envelope : ActionEnvelope D) : Bool :=
  match envelope.rejectionReason with
  | none => false
  | some reason => reason ≠ ""

structure AgentSubscription (S D : Type) where
  kind : StateComponents
  uri : String
  clientId : String
  confirmedState : Option S
  bufferedEnvelopes : List (ActionEnvelope D)
  pendingActions : List (PendingAction D)
  optimisticState : Option S

namespace AgentSubscription

def create (kind : StateComponents) (uri clientId : String) : AgentSubscription S D where
  kind := kind
  uri := uri
  clientId := clientId
  confirmedState := none
  bufferedEnvelopes := []
  pendingActions := []
  optimisticState := none

variable (sub : AgentSubscription S D)

/-- `value` of a subscription without an error. -/
def value : Option S :=
  sub.optimisticState <|> sub.confirmedState

def verifiedValue : Option S := sub.confirmedState

def isRelevantEnvelope (envelope : ActionEnvelope D) : Bool :=
  sub.kind.isKind envelope.action && envelope.channel = sub.uri

def isOwnAction (envelope : ActionEnvelope D) : Bool :=
  envelope.origin.map ActionOrigin.clientId = some sub.clientId

section Reducer

variable (reducer : S → StateAction D → S)

variable (sub : AgentSubscription S D)

def confirmedApply (action : StateAction D) : AgentSubscription S D :=
  { sub with confirmedState := sub.confirmedState.map fun state => reducer state action }

def recomputeOptimistic : AgentSubscription S D :=
  match sub.confirmedState with
  | none => { sub with optimisticState := none }
  | some confirmed =>
    if sub.pendingActions = [] then { sub with optimisticState := none }
    else
      { sub with
        optimisticState :=
          some (sub.pendingActions.foldl (fun state p => reducer state p.action) confirmed) }

/-- `findIndex` and `splice` of the pending action with the sequence number of the origin. -/
def splicePending (clientSeq : Nat) : AgentSubscription S D :=
  { sub with pendingActions := sub.pendingActions.eraseP (·.clientSeq = clientSeq) }

def hasPending (clientSeq : Nat) : Bool :=
  sub.pendingActions.any (·.clientSeq = clientSeq)

/-- `_reconcile` of the three classes. `apply` is what a class does with an envelope that
answers none of its pending actions. -/
def reconcileWith (apply : AgentSubscription S D → ActionEnvelope D → AgentSubscription S D)
    (sub : AgentSubscription S D) (envelope : ActionEnvelope D) : AgentSubscription S D :=
  match envelope.origin with
  | some origin =>
    if sub.isOwnAction envelope then
      if sub.hasPending origin.clientSeq then
        let applied :=
          if envelope.rejected then sub else sub.confirmedApply reducer envelope.action
        (applied.splicePending origin.clientSeq).recomputeOptimistic reducer
      else (apply sub envelope).recomputeOptimistic reducer
    else (apply sub envelope).recomputeOptimistic reducer
  | none => (apply sub envelope).recomputeOptimistic reducer

/-- `SessionStateSubscription._reconcile`: every branch is guarded. -/
def reconcileSession : AgentSubscription S D → ActionEnvelope D → AgentSubscription S D :=
  reconcileWith reducer fun sub envelope =>
    if envelope.rejected then sub else sub.confirmedApply reducer envelope.action

/-- `ChangesetStateSubscription._reconcile`: without a match the action is applied. -/
def reconcileChangeset : AgentSubscription S D → ActionEnvelope D → AgentSubscription S D :=
  reconcileWith reducer fun sub envelope => sub.confirmedApply reducer envelope.action

def reconcileAnnotations : AgentSubscription S D → ActionEnvelope D → AgentSubscription S D :=
  reconcileWith reducer fun sub envelope => sub.confirmedApply reducer envelope.action

def reconcile (envelope : ActionEnvelope D) : AgentSubscription S D :=
  match sub.kind with
  | .session => reconcileSession reducer sub envelope
  | .changeset => reconcileChangeset reducer sub envelope
  | .annotations => reconcileAnnotations reducer sub envelope

def receiveEnvelope (envelope : ActionEnvelope D) : AgentSubscription S D :=
  if !sub.isRelevantEnvelope envelope then sub
  else
    match sub.confirmedState with
    | none => { sub with bufferedEnvelopes := sub.bufferedEnvelopes ++ [envelope] }
    | some _ => sub.reconcile reducer envelope

/-- `_onSnapshotApplied`: the buffered envelopes behind the snapshot, then the pending
actions. -/
def onSnapshotApplied (fromSeq : Nat) : AgentSubscription S D :=
  ((sub.bufferedEnvelopes.filter (fromSeq < ·.serverSeq)).foldl (reconcile reducer)
    { sub with bufferedEnvelopes := [] }).recomputeOptimistic reducer

def handleSnapshot (state : S) (fromSeq : Nat) : AgentSubscription S D :=
  onSnapshotApplied reducer { sub with confirmedState := some state } fromSeq

def applyOptimistic (clientSeq : Nat) (action : StateAction D) : AgentSubscription S D :=
  { sub with
    pendingActions := sub.pendingActions ++ [⟨clientSeq, action⟩]
    optimisticState :=
      match sub.optimisticState <|> sub.verifiedValue with
      | some base => some (reducer base action)
      | none => sub.optimisticState }

def clearPending : AgentSubscription S D :=
  { sub with pendingActions := [], optimisticState := none }

/-- `AgentSubscriptionManager.applyReconnectSnapshot` on the entry of the resource: only
sessions drop what is pending. -/
def applyReconnectSnapshot (state : S) (fromSeq : Nat) : AgentSubscription S D :=
  match sub.kind with
  | .session => sub.clearPending.handleSnapshot reducer state fromSeq
  | .changeset => sub.handleSnapshot reducer state fromSeq
  | .annotations => sub.handleSnapshot reducer state fromSeq

end Reducer

end AgentSubscription

end CodeOss.AgentHost
