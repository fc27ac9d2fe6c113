import CodeOss.AgentHost.AgentChannel

/-! The invariant behind convergence, kept by every careful step of a channel. -/

namespace CodeOss.AgentHost

open AgentSubscription List

variable {S D : Type}

section Ascending

variable {front back : List (ActionEnvelope D)} {n : Nat}

theorem filter_le_append_filter_lt (h : front.Pairwise fun e e' => e.serverSeq < e'.serverSeq) :
    front.filter (·.serverSeq ≤ n) ++ front.filter (n < ·.serverSeq) = front := by
  induction front with
  | nil => rfl
  | cons e rest ih =>
    obtain ⟨he, hrest⟩ := pairwise_cons.mp h
    by_cases hn : e.serverSeq ≤ n
    · simp [hn, ih hrest]
    · have hnone : rest.filter (fun e => decide (e.serverSeq ≤ n)) = [] := by
        rw [filter_eq_nil_iff]
        intro e' he'
        have := he e' he'
        simp only [decide_eq_true_eq]
        omega
      have hall : rest.filter (fun e => decide (n < e.serverSeq)) = rest := by
        rw [filter_eq_self]
        intro e' he'
        have := he e' he'
        simp only [decide_eq_true_eq]
        omega
      have hlt : n < e.serverSeq := by omega
      simp [hn, hlt, hnone, hall]

theorem covered_eq (h : (front ++ back).Pairwise fun e e' => e.serverSeq < e'.serverSeq) :
    (front ++ back).filter (·.serverSeq ≤ n) ++ front.filter (n < ·.serverSeq) =
    front ++ back.filter (·.serverSeq ≤ n) := by
  obtain ⟨hfront, hback, hcross⟩ := pairwise_append.mp h
  rw [filter_append]
  by_cases hall : ∀ e ∈ front, e.serverSeq ≤ n
  · have hnone : front.filter (fun e => decide (n < e.serverSeq)) = [] := by
      rw [filter_eq_nil_iff]
      intro e he
      have := hall e he
      simp only [decide_eq_true_eq]
      omega
    have hself : front.filter (fun e => decide (e.serverSeq ≤ n)) = front := by
      rw [filter_eq_self]
      intro e he
      simpa using hall e he
    rw [hnone, hself, append_nil]
  · obtain ⟨e, he, hlt⟩ : ∃ e ∈ front, n < e.serverSeq := by
      by_contra hcon
      refine hall fun e he => ?_
      by_contra hn
      exact hcon ⟨e, he, by omega⟩
    have hnone : back.filter (fun e => decide (e.serverSeq ≤ n)) = [] := by
      rw [filter_eq_nil_iff]
      intro e' he'
      have := hcross e he e' he'
      simp only [decide_eq_true_eq]
      omega
    rw [hnone, append_nil, append_nil]
    exact filter_le_append_filter_lt hfront

end Ascending

namespace World

variable (reducer : S → StateAction D → S) (initial : S)

structure Invariant (w : World S D) : Prop where
  ascending : w.log.Pairwise fun e e' => e.serverSeq < e'.serverSeq
  once : AnsweredOnce w.client.clientId w.log
  numbered : ∀ e ∈ w.log, ∀ origin ∈ e.origin, origin.clientId = w.client.clientId →
    origin.clientSeq < w.nextClientSeq
  fresh : ∀ p ∈ w.live, p.clientSeq < w.nextClientSeq
  distinct : DistinctSeqs w.live
  relevant : ∀ e ∈ w.inFlight, w.client.isRelevantEnvelope e = true
  waiting : w.client.confirmedState = none →
    w.client.optimisticState = none ∧ w.client.pendingActions = w.live ∧
      w.client.bufferedEnvelopes = w.told
  emptied : w.client.confirmedState ≠ none → w.client.bufferedEnvelopes = []
  converged : w.Converged reducer initial

variable {reducer initial} {w : World S D}

theorem Invariant.distinct_pending (h : w.Invariant reducer initial) :
    DistinctSeqs w.client.pendingActions := by
  by_cases hc : w.client.confirmedState = none
  · rw [(h.waiting hc).2.1]
    exact h.distinct
  · rw [(h.converged hc).2.1]
    exact h.distinct.unanswered

theorem isRelevantEnvelope_of_setup {sub sub' : AgentSubscription S D} (h : sub'.setup = sub.setup)
    (e : ActionEnvelope D) : sub'.isRelevantEnvelope e = sub.isRelevantEnvelope e := by
  have huri : sub'.uri = sub.uri := congrArg (fun s => s.2.1) h
  rw [isRelevantEnvelope, kind_of_setup h, huri]
  rfl

theorem invariant_start (h : w.Started) : w.Invariant reducer initial := by
  obtain ⟨kind, uri, clientId, missed, nextClientSeq, rfl, hasc, honce, hnum⟩ := h
  have hlog : (start kind uri clientId missed nextClientSeq : World S D).log = missed := by
    simp [log, start]
  refine ⟨by rwa [hlog], by rwa [hlog], by rwa [hlog], ?_, List.Pairwise.nil, ?_, ?_, ?_, ?_⟩
  · intro p hp
    cases hp
  · intro e he
    cases he
  · exact fun _ => ⟨rfl, rfl, rfl⟩
  · exact fun hne => absurd rfl hne
  · exact fun hne => absurd rfl hne

section

variable (h : w.Invariant reducer initial)
include h

theorem invariant_dispatch {clientSeq : Nat}
    (action : StateAction D) (hseq : w.nextClientSeq ≤ clientSeq) :
    (w.after reducer initial (.dispatch clientSeq action)).Invariant reducer initial := by
  have hnew : unanswered w.client.clientId w.seen [(⟨clientSeq, action⟩ : PendingAction D)] =
      [⟨clientSeq, action⟩] := by
    refine unanswered_eq_self fun p hp e he => ?_
    rw [mem_singleton.mp hp]
    have hne : ¬ e.origin = some ⟨w.client.clientId, clientSeq⟩ := by
      intro ho
      have hlt := h.numbered e (mem_append_left _ he) _ ho rfl
      have : clientSeq < w.nextClientSeq := hlt
      omega
    simpa [PendingAction.answeredBy] using hne
  have hlive : unanswered w.client.clientId w.seen (w.live ++ [⟨clientSeq, action⟩]) =
      unanswered w.client.clientId w.seen w.live ++ [⟨clientSeq, action⟩] := by
    rw [unanswered, filter_append]
    exact congrArg _ hnew
  refine ⟨h.ascending, h.once, ?_, ?_, ?_, h.relevant, ?_, h.emptied, ?_⟩
  · intro e he origin ho hid
    have := h.numbered e he origin ho hid
    exact Nat.lt_succ_of_lt (this.trans_le hseq)
  · intro p hp
    rcases List.mem_append.mp hp with hp | hp
    · exact Nat.lt_succ_of_lt ((h.fresh p hp).trans_le hseq)
    · rw [mem_singleton.mp hp]
      exact Nat.lt_succ_self _
  · refine pairwise_append.mpr ⟨h.distinct, pairwise_singleton _ _, ?_⟩
    intro p hp q hq
    rw [mem_singleton.mp hq]
    exact ((h.fresh p hp).trans_le hseq).ne
  · intro hc
    obtain ⟨ho, hp, hb⟩ := h.waiting hc
    refine ⟨?_, congrArg (· ++ [_]) hp, hb⟩
    simp only [after, applyOptimistic, verifiedValue, ho]
    rw [show w.client.confirmedState = none from hc]
    rfl
  · intro hc
    obtain ⟨hv, hp, hvalue⟩ := h.converged hc
    refine ⟨hv, ?_, ?_⟩
    · exact (congrArg (· ++ [_]) hp).trans hlive.symm
    · rw [← hp] at hvalue
      have := applyOptimistic_value reducer hvalue clientSeq action
      rw [hp, ← hlive] at this
      exact this

variable {envelope : ActionEnvelope D}

theorem invariant_answer (ha : w.Admissible (.answer envelope)) :
    (w.after reducer initial (.answer envelope)).Invariant reducer initial := by
  obtain ⟨hrelevant, hseq, hown⟩ := ha
  have hlog : (w.after reducer initial (.answer envelope)).log = w.log ++ [envelope] := by
    simp [log, after]
  refine ⟨?_, ?_, ?_, h.fresh, h.distinct, ?_, h.waiting, h.emptied, h.converged⟩
  · rw [hlog]
    refine pairwise_append.mpr ⟨h.ascending, pairwise_singleton _ _, ?_⟩
    intro e he e' he'
    rw [mem_singleton.mp he']
    exact hseq e he
  · rw [hlog]
    refine pairwise_append.mpr ⟨h.once, pairwise_singleton _ _, ?_⟩
    intro e he e' he' hid heq
    rw [mem_singleton.mp he'] at heq
    cases ho : e.origin with
    | none => simp [ho] at hid
    | some origin =>
      have hid' : e.origin.map ActionOrigin.clientId = some w.client.clientId := hid
      have hclient : origin.clientId = w.client.clientId := by simpa [ho] using hid'
      have henv : envelope.origin = some origin := heq.symm.trans ho
      exact (hown origin henv hclient).2 e he ho
  · rw [hlog]
    intro e he origin ho hid
    rcases List.mem_append.mp he with he | he
    · exact h.numbered e he origin ho hid
    · rw [mem_singleton.mp he] at ho
      exact (hown origin ho hid).1
  · intro e he
    rcases List.mem_append.mp he with he | he
    · exact h.relevant e he
    · rw [mem_singleton.mp he]
      exact hrelevant

theorem invariant_deliver (hcareful : w.Careful .deliver) :
    (w.after reducer initial .deliver).Invariant reducer initial := by
  cases hfl : w.inFlight with
  | nil =>
    have : w.after reducer initial .deliver = w := by simp [after, hfl]
    rwa [this]
  | cons envelope rest =>
    have hrel := h.relevant envelope (by rw [hfl]; exact mem_cons_self)
    have hafter : w.after reducer initial .deliver =
        { w with
          told := w.told ++ [envelope]
          inFlight := rest
          client := w.client.receiveEnvelope reducer envelope } := by
      simp [after, hfl]
    have hlog : (w.after reducer initial .deliver).log = w.log := by
      simp [log, hafter, hfl]
    have hseen : (w.after reducer initial .deliver).seen = w.seen ++ [envelope] := by
      simp [seen, hafter]
    by_cases hc : w.client.confirmedState = none
    · -- the envelope is buffered
      have hclient : w.client.receiveEnvelope reducer envelope =
          { w.client with
            bufferedEnvelopes := w.client.bufferedEnvelopes ++ [envelope] } := by
        simp [receiveEnvelope, hrel, hc]
      obtain ⟨ho, hp, hb⟩ := h.waiting hc
      rw [hclient] at hafter
      refine ⟨by rw [hlog]; exact h.ascending, ?_, ?_, ?_, ?_, ?_, ?_, ?_, ?_⟩
      · rw [hlog, hafter]
        exact h.once
      · rw [hlog, hafter]
        exact h.numbered
      · rw [hafter]
        exact h.fresh
      · rw [hafter]
        exact h.distinct
      · rw [hafter]
        exact fun e he => h.relevant e (by rw [hfl]; exact mem_cons_of_mem _ he)
      · rw [hafter]
        exact fun _ => ⟨ho, hp, congrArg (· ++ [envelope]) hb⟩
      · rw [hafter]
        exact fun hne => absurd hc hne
      · rw [hafter]
        exact fun hne => absurd hc hne
    · obtain ⟨hv, hp, -⟩ := h.converged hc
      obtain ⟨state, hstate⟩ := Option.ne_none_iff_exists'.mp hc
      have hguard := hcareful hc envelope (by rw [hfl]; rfl)
      obtain ⟨hsetup, hconfirmed, hpending, hvalue⟩ :=
        receiveEnvelope_spec reducer hrel hstate h.distinct_pending hguard
      have hid := clientId_of_setup hsetup
      have hreplay : replay reducer state [envelope] =
          replay reducer initial (w.seen ++ [envelope]) := by
        rw [replay_append, Option.some_inj.mp (hstate.symm.trans hv)]
      have hopen : unanswered w.client.clientId [envelope] w.client.pendingActions =
          unanswered w.client.clientId (w.seen ++ [envelope]) w.live := by
        rw [unanswered_append, hp]
      refine ⟨by rw [hlog]; exact h.ascending, ?_, ?_, ?_, ?_, ?_, ?_, ?_, ?_⟩
      · rw [hlog, hafter]
        simp only [hid]
        exact h.once
      · rw [hlog, hafter]
        simp only [hid]
        exact h.numbered
      · rw [hafter]
        exact h.fresh
      · rw [hafter]
        exact h.distinct
      · rw [hafter]
        intro e he
        have := h.relevant e (by rw [hfl]; exact mem_cons_of_mem _ he)
        rwa [isRelevantEnvelope_of_setup hsetup]
      · rw [hafter]
        intro hn
        exact absurd (hconfirmed.symm.trans hn) (by simp)
      · rw [hafter]
        intro _
        exact (congrArg (fun s => s.2.2.2) hsetup).trans (h.emptied hc)
      · intro _
        rw [hseen, hafter]
        simp only [hid]
        rw [← hreplay, ← hopen]
        exact ⟨hconfirmed, hpending, hvalue⟩

theorem invariant_foreign (ha : w.Admissible (.foreign envelope)) :
    (w.after reducer initial (.foreign envelope)).Invariant reducer initial := by
  have hsame : w.after reducer initial (.foreign envelope) = w := by
    have hfalse : w.client.isRelevantEnvelope envelope = false := ha
    simp [after, receiveEnvelope, hfalse]
  rwa [hsame]

end

theorem log_covered (fromSeq : Nat) (h : w.log.Pairwise fun e e' => e.serverSeq < e'.serverSeq) :
    (w.covered fromSeq).log = w.log := by
  have hfl : w.inFlight.Pairwise fun e e' => e.serverSeq < e'.serverSeq :=
    (pairwise_append.mp h).2.1
  simp only [log, covered, append_assoc]
  rw [filter_le_append_filter_lt hfl]

variable {fromSeq : Nat}

/-- With nothing of the missed part behind it, the state of a snapshot and the buffered
envelopes behind it are the state of all the client then knows. -/
theorem replay_covered (reducer : S → StateAction D → S)
    (initial : S) (h : w.log.Pairwise fun e e' => e.serverSeq < e'.serverSeq)
    (hmissed : ∀ e ∈ w.missed, e.serverSeq ≤ fromSeq) :
    replay reducer (w.snapshotState reducer initial fromSeq)
    (w.told.filter (fromSeq < ·.serverSeq)) = replay reducer initial (w.covered fromSeq).seen := by
  have hself : w.missed.filter (fun e => decide (e.serverSeq ≤ fromSeq)) = w.missed := by
    rw [filter_eq_self]
    intro e he
    simpa using hmissed e he
  have hrest : (w.told ++ w.inFlight).Pairwise fun e e' => e.serverSeq < e'.serverSeq := by
    rw [log, append_assoc] at h
    exact (pairwise_append.mp h).2.1
  rw [snapshotState, ← replay_append, log, append_assoc, filter_append, hself,
    append_assoc, covered_eq hrest]
  simp [seen, covered]

section

variable (h : w.Invariant reducer initial)
include h

theorem Invariant.covered (live : List
    (PendingAction D)) (client : AgentSubscription S D) (hlive : live.Sublist w.live) (hsetup :
    client.setup = (w.client.kind, w.client.uri, w.client.clientId, [])) (hconfirmed :
    client.confirmedState ≠ none) (hconverged : ({ w.covered fromSeq with live, client } : World S
    D).Converged reducer initial) : ({ w.covered fromSeq with live, client } : World S D).Invariant
    reducer initial := by
  have hlog := log_covered fromSeq h.ascending
  have hid : client.clientId = w.client.clientId := congrArg (fun s => s.2.2.1) hsetup
  refine ⟨?_, ?_, ?_, ?_, ?_, ?_, ?_, ?_, hconverged⟩
  · exact hlog ▸ h.ascending
  · simp only [hid]
    exact hlog ▸ h.once
  · simp only [hid]
    exact hlog ▸ h.numbered
  · exact fun p hp => h.fresh p (hlive.subset hp)
  · exact h.distinct.sublist hlive
  · intro e he
    have hmem : e ∈ w.inFlight := (mem_filter.mp he).1
    have := h.relevant e hmem
    simp only [isRelevantEnvelope] at this ⊢
    rw [show client.kind = w.client.kind from congrArg Prod.fst hsetup,
      show client.uri = w.client.uri from congrArg (fun s => s.2.1) hsetup]
    exact this
  · exact fun hn => absurd hn hconfirmed
  · exact fun _ => congrArg (fun s => s.2.2.2) hsetup

theorem invariant_snapshot
    (ha : w.Admissible (.snapshot fromSeq)) (hcareful : w.Careful (.snapshot fromSeq)) :
    (w.after reducer initial (.snapshot fromSeq)).Invariant reducer initial := by
  obtain ⟨hc, hmissed⟩ := ha
  obtain ⟨hopen, hguard⟩ := hcareful
  obtain ⟨-, hp, hb⟩ := h.waiting hc
  have hsub : w.told.Sublist w.log :=
    (sublist_append_right _ _).trans (sublist_append_left _ _)
  obtain ⟨hsetup, hconfirmed, hpending, hvalue⟩ :=
    handleSnapshot_spec reducer
      (w.snapshotState reducer initial fromSeq) fromSeq h.distinct_pending hguard
      (by rw [hb]; exact h.once.sublist hsub)
  have hreplay := replay_covered reducer initial h.ascending hmissed
  -- what the snapshot covers answers nothing that is pending
  have hunanswered :
      unanswered w.client.clientId (w.told.filter (fromSeq < ·.serverSeq)) w.live =
        unanswered w.client.clientId (w.covered fromSeq).seen w.live := by
    refine filter_congr fun p hpmem => ?_
    have hlow : ∀ e ∈ w.log, e.serverSeq ≤ fromSeq →
        p.answeredBy w.client.clientId e = false := fun e he hle =>
      hopen e he hle p (hp ▸ hpmem)
    rw [Bool.eq_iff_iff, all_eq_true, all_eq_true]
    constructor
    · intro hall e he
      by_cases hle : e.serverSeq ≤ fromSeq
      · have : e ∈ w.log := by
          rw [← log_covered fromSeq h.ascending]
          exact mem_append_left _ he
        rw [hlow e this hle]
        rfl
      · refine hall e (mem_filter.mpr ⟨?_, by simpa using Nat.lt_of_not_le hle⟩)
        rcases List.mem_append.mp he with he | he
        · exact absurd (hmissed e he) hle
        · rcases List.mem_append.mp he with he | he
          · exact he
          · exact absurd (of_decide_eq_true (mem_filter.mp he).2) hle
    · intro hall e he
      exact hall e (mem_append_right _ (mem_append_left _ (mem_filter.mp he).1))
  rw [hb, hreplay] at hconfirmed hvalue
  rw [hb, hp, hunanswered] at hpending
  rw [hp, hunanswered] at hvalue
  have hid := congrArg (fun s => s.2.2.1) hsetup
  refine h.covered w.live _ (List.Sublist.refl _) hsetup ?_ ?_
  · rw [hconfirmed]
    simp
  · intro _
    have hid' : (w.client.handleSnapshot reducer (w.snapshotState reducer initial fromSeq)
        fromSeq).clientId = w.client.clientId := hid
    simp only [hid']
    exact ⟨hconfirmed, hpending, hvalue⟩

omit h in
theorem applyReconnectSnapshot_eq (reducer : S → StateAction D → S) (sub : AgentSubscription S D)
    (state : S) (fromSeq : Nat) (h : sub.kind = .session ∨ sub.pendingActions = []) : ∃ sub' :
    AgentSubscription S D, sub'.pendingActions = [] ∧ sub'.kind = sub.kind ∧ sub'.uri = sub.uri ∧
    sub'.clientId = sub.clientId ∧ sub'.bufferedEnvelopes = sub.bufferedEnvelopes ∧
    sub.applyReconnectSnapshot reducer state fromSeq =
    sub'.handleSnapshot reducer state fromSeq := by
  cases hk : sub.kind with
  | session =>
    exact ⟨sub.clearPending, rfl, hk, rfl, rfl, rfl, by
      simp only [applyReconnectSnapshot, hk]⟩
  | changeset =>
    have hp := h.resolve_left (by simp [hk])
    exact ⟨sub, hp, hk, rfl, rfl, rfl, by
      simp only [applyReconnectSnapshot, hk]⟩
  | annotations =>
    have hp := h.resolve_left (by simp [hk])
    exact ⟨sub, hp, hk, rfl, rfl, rfl, by
      simp only [applyReconnectSnapshot, hk]⟩

theorem invariant_reconnect (ha : w.Admissible (.reconnectSnapshot fromSeq))
    (hcareful : w.Careful (.reconnectSnapshot fromSeq)) :
    (w.after reducer initial (.reconnectSnapshot fromSeq)).Invariant reducer initial := by
  have htold : ∀ e ∈ w.told, e.serverSeq ≤ fromSeq := fun e he =>
    ha e (mem_append_right _ he)
  have hbuffered : ∀ e ∈ w.client.bufferedEnvelopes, e.serverSeq ≤ fromSeq := by
    intro e he
    by_cases hc : w.client.confirmedState = none
    · exact htold e ((h.waiting hc).2.2 ▸ he)
    · rw [h.emptied hc] at he
      cases he
  obtain ⟨sub, hp, hkind, huri, hclientId, hb, heq⟩ :=
    applyReconnectSnapshot_eq reducer w.client
      (w.snapshotState reducer initial fromSeq) fromSeq hcareful
  have hnone : sub.bufferedEnvelopes.filter (fun e => decide (fromSeq < e.serverSeq)) = [] := by
    rw [hb, filter_eq_nil_iff]
    intro e he
    have := hbuffered e he
    simp only [decide_eq_true_eq]
    omega
  obtain ⟨hsetup, hconfirmed, hpending, hvalue⟩ :=
    @AgentSubscription.handleSnapshot_spec S D reducer sub
      (w.snapshotState reducer initial fromSeq) fromSeq (by rw [hp]; exact List.Pairwise.nil)
      (by
        intro e he hlt
        rw [hb] at he
        exact absurd (hbuffered e he) (by omega))
      (by
        rw [hb, hclientId]
        by_cases hc : w.client.confirmedState = none
        · rw [(h.waiting hc).2.2]
          exact h.once.sublist ((sublist_append_right _ _).trans (sublist_append_left _ _))
        · rw [h.emptied hc]
          exact List.Pairwise.nil)
  have hreplay := replay_covered reducer initial h.ascending
    fun e he => ha e (mem_append_left _ he)
  have htoldnone : w.told.filter (fun e => decide (fromSeq < e.serverSeq)) = [] := by
    rw [filter_eq_nil_iff]
    intro e he
    have := htold e he
    simp only [decide_eq_true_eq]
    omega
  rw [htoldnone] at hreplay
  rw [hnone, hreplay] at hconfirmed
  rw [hnone, hp] at hpending
  rw [hnone, hreplay, hp] at hvalue
  rw [hkind, huri, hclientId] at hsetup
  rw [hclientId] at hpending hvalue
  rw [← heq] at hsetup hconfirmed hpending hvalue
  refine h.covered [] _ (nil_sublist _) hsetup ?_ ?_
  · rw [hconfirmed]
    simp
  · intro _
    exact ⟨hconfirmed, hpending, hvalue⟩

theorem invariant_after {event : ChannelEvent D}
    (ha : w.Admissible event) (hcareful : w.Careful event) :
    (w.after reducer initial event).Invariant reducer initial := by
  cases event with
  | dispatch clientSeq action => exact invariant_dispatch h action ha.1
  | answer envelope => exact invariant_answer h ha
  | deliver => exact invariant_deliver h hcareful
  | foreign envelope => exact invariant_foreign h ha
  | snapshot fromSeq => exact invariant_snapshot h ha hcareful
  | reconnectSnapshot fromSeq => exact invariant_reconnect h ha hcareful

end

theorem invariant_reached (h : Reached reducer initial Careful w) :
    w.Invariant reducer initial := by
  induction h with
  | start hw => exact invariant_start hw
  | step _ ha hcareful ih => exact invariant_after ih ha hcareful

/-- In every run of careful steps the client agrees with the server after each step. -/
theorem careful_runs_converge (reducer : S → StateAction D → S) (initial : S) (w : World S D)
    (h : Reached reducer initial Careful w) : w.Converged reducer initial :=
  (invariant_reached h).converged

def listing (state : List String) (action : StateAction String) : List String :=
  state ++ [action.payload]

def review (payload : String) : StateAction String := ⟨"changeset/review", payload⟩

/-- A review of another client is buffered, one of the own ones is rejected after the
snapshot, and one is still open. -/
def reviewEvents : List (ChannelEvent String) :=
  [.dispatch 1 (review "a"),
    .answer ⟨"c:/s", review "b", 5, some ⟨"you", 1⟩, none⟩, .deliver, .snapshot 4,
    .answer ⟨"c:/s", review "a", 6, some ⟨"me", 1⟩, some "stale"⟩, .dispatch 3 (review "d"),
    .deliver]

theorem careful_runs_converge_review :
    ((start .changeset "c:/s" "me" [] 1).run listing [] reviewEvents).Converged listing [] :=
  careful_runs_converge listing [] _
    (Reached.run (.start ⟨.changeset, "c:/s", "me", [], 1, rfl, .nil, .nil, by simp⟩)
      (by
        refine ⟨?_, ?_, ?_, ?_, ?_, ?_, ?_, ?_, ?_, ?_, ?_, ?_, ?_, ?_, trivial⟩ <;>
          decide +kernel))

/-- A changeset takes in a review the server rejected for another client, and a session keeps
an action pending that the first snapshot covers. -/
theorem agent_state_diverges :
    (∃ w : World (List String) String,
      Reached listing [] (fun _ _ => True) w ∧ w.client.kind = .changeset ∧
        ¬ w.Converged listing []) ∧
    ∃ w : World (List String) String,
      Reached listing [] (fun _ _ => True) w ∧ w.client.kind = .session ∧
        ¬ w.Converged listing [] := by
  refine ⟨⟨(start .changeset "c:/s" "me" [] 1).run listing []
      [.snapshot 0, .answer ⟨"c:/s", review "b", 1, some ⟨"you", 1⟩, some "stale"⟩, .deliver],
      ?_, by decide +kernel, ?_⟩,
    ⟨(start .session "s:/s" "me" [] 1).run listing [] [.dispatch 1 ⟨"session/rename", "a"⟩,
        .answer ⟨"s:/s", ⟨"session/rename", "a"⟩, 1, some ⟨"me", 1⟩, none⟩, .deliver,
        .snapshot 1], ?_, by decide +kernel, ?_⟩⟩
  · refine Reached.run (.start ⟨.changeset, "c:/s", "me", [], 1, rfl, .nil, .nil, by simp⟩) ?_
    refine ⟨?_, trivial, ?_, trivial, ?_, trivial, trivial⟩ <;> decide +kernel
  · intro h
    exact absurd (h (by decide +kernel)).1 (by decide +kernel)
  · refine Reached.run (.start ⟨.session, "s:/s", "me", [], 1, rfl, .nil, .nil, by simp⟩) ?_
    refine ⟨?_, trivial, ?_, trivial, ?_, trivial, ?_, trivial, trivial⟩ <;> decide +kernel
  · intro h
    exact absurd (h (by decide +kernel)).2.1 (by decide +kernel)

end World

end CodeOss.AgentHost
