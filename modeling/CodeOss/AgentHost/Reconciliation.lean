import CodeOss.AgentHost.AgentSubscription

/-! What one envelope, and a list of buffered ones, does to a subscription: the
confirmed state takes the accepted actions in, the answered actions leave the pending
list, and the value is the pending actions on top of the confirmed state. -/

namespace CodeOss.AgentHost

variable {S D : Type}

def ActionEnvelope.accepted (envelope : ActionEnvelope D) : Bool :=
  envelope.rejectionReason.isNone

/-- The envelope is the answer to the action that the client sent as `pending`. -/
def PendingAction.answeredBy (clientId : String) (pending : PendingAction D)
    (envelope : ActionEnvelope D) : Bool :=
  envelope.origin = some ⟨clientId, pending.clientSeq⟩

variable (reducer : S → StateAction D → S)

/-- The state after the accepted ones of the envelopes. -/
def replay (state : S) (log : List (ActionEnvelope D)) : S :=
  (log.filter ActionEnvelope.accepted).foldl (fun state e => reducer state e.action) state

def predict (state : S) (pending : List (PendingAction D)) : S :=
  pending.foldl (fun state p => reducer state p.action) state

/-- The pending actions none of the envelopes answers. -/
def unanswered (clientId : String) (log : List (ActionEnvelope D))
    (pending : List (PendingAction D)) : List (PendingAction D) :=
  pending.filter fun p => log.all fun e => !p.answeredBy clientId e

/-- No two of the actions have one sequence number. -/
def DistinctSeqs (pending : List (PendingAction D)) : Prop :=
  pending.Pairwise fun p q => p.clientSeq ≠ q.clientSeq

/-- The envelope does not run into the missing guard: it has a reason if it is a rejection,
and the classes without the guard find the action it rejects among the pending ones. -/
def Guarded (kind : StateComponents) (clientId : String) (pending : List (PendingAction D))
    (envelope : ActionEnvelope D) : Prop :=
  envelope.rejectionReason ≠ some "" ∧
    (kind = .session ∨ envelope.accepted = true ∨
      ∃ p ∈ pending, p.answeredBy clientId envelope = true)

instance (kind : StateComponents) (clientId : String) (pending : List (PendingAction D))
    (envelope : ActionEnvelope D) : Decidable (Guarded kind clientId pending envelope) :=
  inferInstanceAs (Decidable (_ ∧ _))

theorem replay_append (state : S) (log log' : List (ActionEnvelope D)) :
    replay reducer state (log ++ log') = replay reducer (replay reducer state log) log' := by
  simp [replay, List.filter_append]

theorem predict_append (state : S) (pending : List (PendingAction D)) (p : PendingAction D) :
    predict reducer state (pending ++ [p]) = reducer (predict reducer state pending) p.action := by
  simp [predict]

theorem unanswered_append (clientId : String) (log log' : List (ActionEnvelope D))
    (pending : List (PendingAction D)) : unanswered clientId (log ++ log') pending =
    unanswered clientId log' (unanswered clientId log pending) := by
  simp only [unanswered, List.filter_filter, List.all_append]
  congr 1
  funext p
  exact Bool.and_comm _ _

variable {clientId : String} {pending : List (PendingAction D)}

theorem unanswered_eq_self {log : List (ActionEnvelope D)}
    (h : ∀ p ∈ pending, ∀ e ∈ log, p.answeredBy clientId e = false) :
    unanswered clientId log pending = pending := by
  rw [unanswered, List.filter_eq_self]
  intro p hp
  simpa using h p hp

theorem DistinctSeqs.unanswered {log : List (ActionEnvelope D)} (h : DistinctSeqs pending) :
    DistinctSeqs (unanswered clientId log pending) := h.filter _

theorem eraseP_eq_filter (h : DistinctSeqs pending) (clientSeq : Nat) : pending.eraseP (fun p =>
    p.clientSeq = clientSeq) = pending.filter fun p => !decide (p.clientSeq = clientSeq) := by
  induction pending with
  | nil => rfl
  | cons p rest ih =>
    obtain ⟨hp, hrest⟩ := List.pairwise_cons.mp h
    by_cases hseq : p.clientSeq = clientSeq
    · have hkeep : rest.filter (fun q => !decide (q.clientSeq = clientSeq)) = rest := by
        rw [List.filter_eq_self]
        intro q hq
        have := hp q hq
        simpa [← hseq] using this.symm
      simp [hseq, hkeep]
    · simp [hseq, ih hrest]

namespace AgentSubscription

variable (reducer : S → StateAction D → S) (sub : AgentSubscription S D)
  (envelope : ActionEnvelope D)

def setup : StateComponents × String × String × List (ActionEnvelope D) :=
  (sub.kind, sub.uri, sub.clientId, sub.bufferedEnvelopes)

@[simp] theorem recomputeOptimistic_confirmedState :
    (sub.recomputeOptimistic reducer).confirmedState = sub.confirmedState := by
  unfold recomputeOptimistic
  split
  · rfl
  · split <;> rfl

@[simp] theorem recomputeOptimistic_pendingActions :
    (sub.recomputeOptimistic reducer).pendingActions = sub.pendingActions := by
  unfold recomputeOptimistic
  split
  · rfl
  · split <;> rfl

@[simp] theorem recomputeOptimistic_setup :
    (sub.recomputeOptimistic reducer).setup = sub.setup := by
  unfold recomputeOptimistic
  split
  · rfl
  · split <;> rfl

theorem recomputeOptimistic_value : (sub.recomputeOptimistic reducer).value =
    sub.confirmedState.map fun state => predict reducer state sub.pendingActions := by
  unfold recomputeOptimistic
  cases sub.confirmedState with
  | none => simp [value]
  | some confirmed =>
    by_cases hp : sub.pendingActions = []
    · simp [value, hp, predict]
    · simp [value, hp, predict]

/-- What an envelope does to the confirmed state and the pending actions. -/
def reconciled : AgentSubscription S D :=
  { sub with
    confirmedState := sub.confirmedState.map fun state => replay reducer state [envelope]
    pendingActions := unanswered sub.clientId [envelope] sub.pendingActions }

theorem rejected_eq (h : envelope.rejectionReason ≠ some "") :
    envelope.rejected = !envelope.accepted := by
  cases hr : envelope.rejectionReason with
  | none => simp [ActionEnvelope.rejected, ActionEnvelope.accepted, hr]
  | some reason =>
    have : reason ≠ "" := fun he => h (by rw [hr, he])
    simp [ActionEnvelope.rejected, ActionEnvelope.accepted, hr, this]

theorem apply_accepted (h : envelope.rejectionReason ≠ some "") :
    (if envelope.rejected then sub else sub.confirmedApply reducer envelope.action) =
      { sub with
        confirmedState := sub.confirmedState.map fun state =>
          replay reducer state [envelope] } := by
  rw [rejected_eq envelope h]
  cases ha : envelope.accepted <;> simp [confirmedApply, replay, ha]

theorem unanswered_of_not_own
    (h : ∀ p ∈ sub.pendingActions, p.answeredBy sub.clientId envelope = false) :
    unanswered sub.clientId [envelope] sub.pendingActions = sub.pendingActions :=
  unanswered_eq_self fun p hp e he => by
    rw [List.mem_singleton.mp he]
    exact h p hp

variable {reducer sub envelope}

theorem reconcileWith_eq {apply : AgentSubscription S D → ActionEnvelope D → AgentSubscription S D}
    (hseqs : DistinctSeqs sub.pendingActions) (hreason : envelope.rejectionReason ≠ some "")
    (happly : (∀ p ∈ sub.pendingActions, p.answeredBy sub.clientId envelope = false) →
      apply sub envelope =
        { sub with
          confirmedState := sub.confirmedState.map fun state =>
            replay reducer state [envelope] }) :
    reconcileWith reducer apply sub envelope =
      (reconciled reducer sub envelope).recomputeOptimistic reducer := by
  have hother : (∀ p ∈ sub.pendingActions, p.answeredBy sub.clientId envelope = false) →
      (apply sub envelope).recomputeOptimistic reducer =
        (reconciled reducer sub envelope).recomputeOptimistic reducer := by
    intro hnone
    rw [happly hnone, reconciled, unanswered_of_not_own sub envelope hnone]
  unfold reconcileWith
  cases ho : envelope.origin with
  | none => exact hother fun p _ => by simp [PendingAction.answeredBy, ho]
  | some origin =>
    have hown : sub.isOwnAction envelope = decide (origin.clientId = sub.clientId) := by
      simp [isOwnAction, ho]
    have hanswers : ∀ p : PendingAction D, p.answeredBy sub.clientId envelope =
        (decide (origin.clientId = sub.clientId) && decide (p.clientSeq = origin.clientSeq)) := by
      intro p
      obtain ⟨clientId, clientSeq⟩ := origin
      simp only [PendingAction.answeredBy, ho, Option.some.injEq, ActionOrigin.mk.injEq,
        Bool.decide_and, eq_comm (a := p.clientSeq)]
    simp only [hown]
    by_cases hclient : origin.clientId = sub.clientId
    · rw [if_pos (by simpa using hclient)]
      cases hp : sub.hasPending origin.clientSeq with
      | true =>
        simp only [if_true]
        rw [apply_accepted reducer sub envelope hreason]
        congr 1
        simp only [splicePending, reconciled]
        congr 1
        rw [eraseP_eq_filter hseqs, unanswered]
        congr 1
        funext p
        simp [hanswers, hclient]
      | false =>
        simp only [Bool.false_eq_true, if_false]
        refine hother fun p hmem => ?_
        have hne : ¬ p.clientSeq = origin.clientSeq := by
          have := List.any_eq_false.mp hp p hmem
          simpa using this
        simp [hanswers, hne]
    · rw [if_neg (by simpa using hclient)]
      exact hother fun p _ => by simp [hanswers, hclient]

theorem reconcile_eq (reducer : S → StateAction D → S) (hseqs : DistinctSeqs sub.pendingActions)
    (hguard : Guarded sub.kind sub.clientId sub.pendingActions envelope) : sub.reconcile reducer
    envelope = (reconciled reducer sub envelope).recomputeOptimistic reducer := by
  obtain ⟨hreason, hguard⟩ := hguard
  have hplain : (∀ p ∈ sub.pendingActions, p.answeredBy sub.clientId envelope = false) →
      sub.kind ≠ .session →
      sub.confirmedApply reducer envelope.action =
        { sub with
          confirmedState := sub.confirmedState.map fun state =>
            replay reducer state [envelope] } := by
    intro hnone hkind
    have ha : envelope.accepted = true := by
      rcases hguard with h | h | ⟨p, hp, h⟩
      · exact absurd h hkind
      · exact h
      · rw [hnone p hp] at h
        exact absurd h Bool.false_ne_true
    simp [confirmedApply, replay, ha]
  cases hk : sub.kind with
  | session =>
    simp only [reconcile, hk]
    exact reconcileWith_eq hseqs hreason fun _ => apply_accepted reducer sub envelope hreason
  | changeset =>
    simp only [reconcile, hk]
    exact reconcileWith_eq hseqs hreason fun hnone => hplain hnone (by simp [hk])
  | annotations =>
    simp only [reconcile, hk]
    exact reconcileWith_eq hseqs hreason fun hnone => hplain hnone (by simp [hk])

variable {sub' : AgentSubscription S D}

theorem kind_of_setup (h : sub'.setup = sub.setup) :
    sub'.kind = sub.kind := congrArg Prod.fst h

theorem clientId_of_setup (h : sub'.setup = sub.setup) :
    sub'.clientId = sub.clientId := congrArg (fun s => s.2.2.1) h

theorem receiveEnvelope_spec (reducer : S → StateAction D → S) {state : S}
    (hrel : sub.isRelevantEnvelope envelope = true)
    (hstate : sub.confirmedState = some state) (hseqs : DistinctSeqs sub.pendingActions)
    (hguard : Guarded sub.kind sub.clientId sub.pendingActions envelope) :
    let sub' := sub.receiveEnvelope reducer envelope
    sub'.setup = sub.setup ∧
      sub'.confirmedState = some (replay reducer state [envelope]) ∧
      sub'.pendingActions = unanswered sub.clientId [envelope] sub.pendingActions ∧
      sub'.value =
        some (predict reducer (replay reducer state [envelope])
          (unanswered sub.clientId [envelope] sub.pendingActions)) := by
  intro sub'
  have hsub' : sub' = (reconciled reducer sub envelope).recomputeOptimistic reducer := by
    rw [← reconcile_eq reducer hseqs hguard]
    simp [sub', receiveEnvelope, hrel, hstate]
  have hconfirmed : (reconciled reducer sub envelope).confirmedState =
      some (replay reducer state [envelope]) := by
    simp [reconciled, hstate]
  refine ⟨?_, ?_, ?_, ?_⟩
  · rw [hsub', recomputeOptimistic_setup]
    rfl
  · rw [hsub', recomputeOptimistic_confirmedState, hconfirmed]
  · rw [hsub', recomputeOptimistic_pendingActions]
    rfl
  · rw [hsub', recomputeOptimistic_value, hconfirmed]
    rfl

end AgentSubscription

/-- No two envelopes answer one action of the client. -/
def AnsweredOnce (clientId : String) (log : List (ActionEnvelope D)) : Prop :=
  log.Pairwise fun e e' =>
    e.origin.map ActionOrigin.clientId = some clientId → e.origin ≠ e'.origin

theorem Guarded.of_answered {kind : StateComponents} {e e' : ActionEnvelope D}
    (h : Guarded kind clientId pending e')
    (hne : e.origin.map ActionOrigin.clientId = some clientId → e.origin ≠ e'.origin) :
    Guarded kind clientId (unanswered clientId [e] pending) e' := by
  refine ⟨h.1, ?_⟩
  rcases h.2 with hk | ha | ⟨p, hp, hpe⟩
  · exact .inl hk
  · exact .inr (.inl ha)
  · refine .inr (.inr ⟨p, List.mem_filter.mpr ⟨hp, ?_⟩, hpe⟩)
    have hpe' : e'.origin = some ⟨clientId, p.clientSeq⟩ := of_decide_eq_true hpe
    have hno : ¬ e.origin = some ⟨clientId, p.clientSeq⟩ := by
      intro he
      exact hne (by rw [he]; rfl) (he.trans hpe'.symm)
    simpa [PendingAction.answeredBy] using hno

namespace AgentSubscription

variable (reducer : S → StateAction D → S)

theorem foldl_reconcile {log : List (ActionEnvelope D)}
    {sub : AgentSubscription S D} (hseqs : DistinctSeqs sub.pendingActions)
    (hguard : ∀ e ∈ log, Guarded sub.kind sub.clientId sub.pendingActions e)
    (honce : AnsweredOnce sub.clientId log) : (log.foldl (reconcile reducer) sub).setup =
    sub.setup ∧ (log.foldl (reconcile reducer) sub).confirmedState = sub.confirmedState.map
    (fun state => replay reducer state log) ∧ (log.foldl (reconcile reducer) sub).pendingActions =
    unanswered sub.clientId log sub.pendingActions := by
  induction log generalizing sub with
  | nil =>
    refine ⟨rfl, ?_, (unanswered_eq_self fun p _ e he => by cases he).symm⟩
    cases hc : sub.confirmedState <;> simp [replay, hc]
  | cons e rest ih =>
    obtain ⟨hfirst, hrest⟩ := List.pairwise_cons.mp honce
    have hstep := reconcile_eq reducer hseqs
      (hguard e List.mem_cons_self)
    have hsetup : (sub.reconcile reducer e).setup = sub.setup := by
      rw [hstep, recomputeOptimistic_setup]
      rfl
    have hpending : (sub.reconcile reducer e).pendingActions =
        unanswered sub.clientId [e] sub.pendingActions := by
      rw [hstep, recomputeOptimistic_pendingActions]
      rfl
    have hconfirmed : (sub.reconcile reducer e).confirmedState =
        sub.confirmedState.map fun state => replay reducer state [e] := by
      rw [hstep, recomputeOptimistic_confirmedState]
      rfl
    have hclient := clientId_of_setup hsetup
    obtain ⟨h₁, h₂, h₃⟩ := @ih (sub.reconcile reducer e)
      (by rw [hpending]; exact hseqs.unanswered)
      (by
        intro e' he'
        rw [hpending, hclient, kind_of_setup hsetup]
        exact (hguard e' (List.mem_cons_of_mem _ he')).of_answered (hfirst e' he'))
      (by rw [hclient]; exact hrest)
    rw [List.foldl_cons]
    refine ⟨h₁.trans hsetup, ?_, ?_⟩
    · rw [h₂, hconfirmed, Option.map_map]
      congr 1
      funext state
      exact (replay_append reducer state [e] rest).symm
    · rw [h₃, hpending, hclient]
      exact (unanswered_append sub.clientId [e] rest sub.pendingActions).symm

theorem handleSnapshot_spec {sub : AgentSubscription S D} (state : S) (fromSeq : Nat)
    (hseqs : DistinctSeqs sub.pendingActions)
    (hguard : ∀ e ∈ sub.bufferedEnvelopes, fromSeq < e.serverSeq →
      Guarded sub.kind sub.clientId sub.pendingActions e)
    (honce : AnsweredOnce sub.clientId sub.bufferedEnvelopes) :
    let buffered := sub.bufferedEnvelopes.filter (fromSeq < ·.serverSeq)
    let sub' := sub.handleSnapshot reducer state fromSeq
    sub'.setup = (sub.kind, sub.uri, sub.clientId, []) ∧
      sub'.confirmedState = some (replay reducer state buffered) ∧
      sub'.pendingActions = unanswered sub.clientId buffered sub.pendingActions ∧
      sub'.value =
        some (predict reducer (replay reducer state buffered)
          (unanswered sub.clientId buffered sub.pendingActions)) := by
  intro buffered sub'
  obtain ⟨h₁, h₂, h₃⟩ := @foldl_reconcile S D reducer buffered
    { sub with confirmedState := some state, bufferedEnvelopes := [] } hseqs
    (by
      intro e he
      obtain ⟨hmem, hlt⟩ := List.mem_filter.mp he
      exact hguard e hmem (of_decide_eq_true hlt))
    (honce.filter _)
  have hsub' : sub' =
      (buffered.foldl (reconcile reducer)
        { sub with confirmedState := some state, bufferedEnvelopes := [] }).recomputeOptimistic
          reducer := rfl
  refine ⟨?_, ?_, ?_, ?_⟩
  · rw [hsub', recomputeOptimistic_setup, h₁]
    rfl
  · rw [hsub', recomputeOptimistic_confirmedState, h₂]
    rfl
  · rw [hsub', recomputeOptimistic_pendingActions, h₃]
  · rw [hsub', recomputeOptimistic_value, h₂, h₃]
    rfl

theorem applyOptimistic_value {sub : AgentSubscription S D} {state : S}
    (hvalue : sub.value = some (predict reducer state sub.pendingActions)) (clientSeq : Nat)
    (action : StateAction D) : (sub.applyOptimistic reducer clientSeq action).value =
    some (predict reducer state (sub.pendingActions ++ [⟨clientSeq, action⟩])) := by
  have hbase : (sub.optimisticState <|> sub.verifiedValue) =
      some (predict reducer state sub.pendingActions) := hvalue
  rw [predict_append]
  simp only [applyOptimistic, hbase, value]
  rfl

end AgentSubscription

end CodeOss.AgentHost
