import CodeOss.Ipc.ChannelServerRuns

/-! What careful steps keep. A step is careful when the requests it hands over were not
ended before and a flush finds the timers of its pending requests as they were set. -/

namespace CodeOss.Ipc

open List

variable {Channel Arg Data : Type}

open Occurrence

/-- The pending requests a flush gets to: all of them, or up to the first listen request
the channel throws on. -/
def reached (listen : Nat → ListenOutcome Data) :
    List (PendingRequest Arg) → List (PendingRequest Arg)
  | [] => []
  | p :: rest =>
    match p.request.type, listen p.request.id with
    | .EventListen, .throws => [p]
    | _, _ => p :: reached listen rest

/-- The request was not ended, and its timer still runs; a listen request may have seen
its timer expire, which sends nothing. -/
def Intact (run : ServerRun Channel Arg Data) (p : PendingRequest Arg) : Prop :=
  ¬ Seen ends run.history p.request.id ∧
    ∃ state request, run.server.timers p.timeoutTimer = some (state, request) ∧
      (state = .running ∨ state = .expired ∧ request.type = .EventListen)

variable (listen : Nat → ListenOutcome Data)

theorem reached_subset (requests : List (PendingRequest Arg)) :
    reached listen requests ⊆ requests := by
  induction requests with
  | nil => exact List.Subset.refl _
  | cons p rest ih =>
    rw [reached]
    split
    · exact cons_subset_cons _ (nil_subset _)
    · exact cons_subset_cons _ ih

theorem head_reached (p : PendingRequest Arg)
    (rest : List (PendingRequest Arg)) : p ∈ reached listen (p :: rest) := by
  rw [reached]
  split <;> exact mem_cons_self

theorem reached_of_not_threw (server : ChannelServer Channel Arg)
    {p : PendingRequest Arg} {channel : Channel} (listen : Nat → ListenOutcome Data)
    (hchannel : server.channels.get p.request.channelName = some channel)
    (hthrew : ¬ (server.onRequest p.request (listen p.request.id)).threw = true)
    (rest : List (PendingRequest Arg)) : reached listen (p :: rest) = p :: reached listen rest := by
  rw [reached]
  rcases ChannelServer.onRequest_cases (listen p.request.id) hchannel with
    ⟨htype, -⟩ | ⟨-, -, he⟩ | ⟨htype, immediate, hlisten, -⟩
  · simp only [htype]
  · exact absurd (by rw [he]) hthrew
  · simp only [htype, hlisten]

/-- What a step that hands requests over has to find. -/
def Careful (run : ServerRun Channel Arg Data) : ServerAction Channel Arg Data → Prop
  | .request request _ =>
    run.server.channels.has request.channelName = true → ¬ Seen ends run.history request.id
  | .flush index listen =>
    ∀ channelName, run.server.flushes[index]? = some channelName →
      ∀ requests, run.server.pendingRequests.get channelName = some requests →
        ∀ p ∈ reached listen requests, Intact run p
  | _ => True

/-- What careful steps keep: every table entry belongs to one request, and the history
does not yet exclude what the entry can still lead to. -/
structure Sound (run : ServerRun Channel Arg Data) : Prop where
  once : OnceOnly run.history
  received : ∀ id, Seen hands run.history id ∨ Seen answers run.history id →
    Seen receives run.history id
  waiting : ∀ timer state request, run.server.timers timer = some (state, request) →
    Seen receives run.history request.id ∧
      (state = .running ∨ state = .expired ∧ request.type = .EventListen →
        ¬ Seen hands run.history request.id ∧ ¬ Seen answers run.history request.id)
  oneTimer : ∀ timer timer' state state' request request',
    run.server.timers timer = some (state, request) →
    run.server.timers timer' = some (state', request') → request.id = request'.id → timer = timer'
  distinct : ∀ channelName requests,
    run.server.pendingRequests.get channelName = some requests →
    (requests.map PendingRequest.timeoutTimer).Nodup
  calls : ∀ handle call, run.server.calls handle = some call →
    Seen hands run.history call.requestId ∧
      (call.stage = .running → ¬ Seen answers run.history call.requestId)
  oneCall : ∀ handle handle' call call', run.server.calls handle = some call →
    run.server.calls handle' = some call' → call.requestId = call'.requestId → handle = handle'
  subscriptions : ∀ handle id, run.server.subscriptions handle = some ⟨id, true⟩ →
    Seen hands run.history id ∧ ¬ Seen ends run.history id ∧
      run.server.activeRequests.get id = some (.subscription handle) ∧
      ∀ handle' call, run.server.calls handle' = some call → call.requestId ≠ id

namespace Sound

variable {run : ServerRun Channel Arg Data}

theorem new (timeoutDelay : Nat) :
    Sound (ServerRun.new timeoutDelay : ServerRun Channel Arg Data) where
  once := pairwise_singleton _ _
  received id h := by simp [ServerRun.new, Occurrence.hands, Occurrence.answers,
    RawResponse.answers] at h
  waiting _ _ _ h := absurd h (by simp [ServerRun.new, ChannelServer.new])
  oneTimer _ _ _ _ _ _ h := absurd h (by simp [ServerRun.new, ChannelServer.new])
  distinct _ _ h := absurd h (by simp [ServerRun.new, ChannelServer.new])
  calls _ _ h := absurd h (by simp [ServerRun.new, ChannelServer.new])
  oneCall _ _ _ _ h := absurd h (by simp [ServerRun.new, ChannelServer.new])
  subscriptions _ _ h := absurd h (by simp [ServerRun.new, ChannelServer.new])

theorem lengthen (h : Sound run) {later : List (Occurrence Channel Arg Data)}
    (honce : OnceOnly (run.history ++ later)) (hhands : ∀ id, ¬ Seen hands later id)
    (hanswers : ∀ id, ¬ Seen answers later id) (hends : ∀ id, ¬ Seen ends later id) :
    Sound ⟨run.server, run.history ++ later⟩ := by
  have hh : ∀ id, Seen hands (run.history ++ later) id ↔ Seen hands run.history id := fun id => by
    rw [seen_append, or_iff_left (hhands id)]
  have ha : ∀ id, Seen answers (run.history ++ later) id ↔ Seen answers run.history id :=
    fun id => by rw [seen_append, or_iff_left (hanswers id)]
  have he : ∀ id, Seen ends (run.history ++ later) id ↔ Seen ends run.history id := fun id => by
    rw [seen_append, or_iff_left (hends id)]
  refine ⟨honce, ?_, ?_, h.oneTimer, h.distinct, ?_, h.oneCall, ?_⟩
  · intro id hid
    rw [hh, ha] at hid
    exact (seen_append _ _ _).2 (.inl (h.received id hid))
  · intro timer state request htimer
    rw [hh, ha]
    exact ⟨(seen_append _ _ _).2 (.inl (h.waiting timer state request htimer).1),
      (h.waiting timer state request htimer).2⟩
  · intro handle call hcall
    rw [hh, ha]
    exact h.calls handle call hcall
  · intro handle id hsub
    rw [hh, he]
    exact h.subscriptions handle id hsub

theorem receive (h : Sound run) (request : RawRequest Arg) :
    Sound ⟨run.server, run.history ++ [.received request]⟩ :=
  h.lengthen
    (onceOnly_snoc h.once (by simp [Occurrence.answers]) (by simp [Occurrence.hands])
      (by simp [Occurrence.fires]))
    (by simp [Occurrence.hands]) (by simp [Occurrence.answers]) (by simp [Occurrence.ends])

variable {id : Nat} {request : RawRequest Arg}

variable (h : Sound run)
include h

theorem fire {handle : Nat}
    (hlive : run.server.subscriptions handle = some ⟨id, true⟩) (data : Data) :
    Sound ⟨run.server, run.history ++ [.sent (.EventFire id data)]⟩ := by
  refine h.lengthen (onceOnly_snoc h.once (by simp [Occurrence.answers, RawResponse.answers])
    (by simp [Occurrence.hands]) ?_) (by simp [Occurrence.hands])
    (by simp [Occurrence.answers, RawResponse.answers]) (by simp [Occurrence.ends])
  intro k hk
  obtain rfl : id = k := Option.some.inj hk
  exact (h.subscriptions handle id hlive).2.1

theorem collect (htracked : Tracked run) (hreceived : Seen receives run.history request.id)
    (hhands : ¬ Seen hands run.history request.id)
    (hanswers : ¬ Seen answers run.history request.id)
    (hnone : ∀ timer state r, run.server.timers timer = some (state, r) → r.id ≠ request.id) :
    Sound ⟨run.server.collectPendingRequest request, run.history⟩ := by
  refine ⟨h.once, h.received, ?_, ?_, ?_, h.calls, h.oneCall, h.subscriptions⟩
  · intro timer state r htimer
    simp only [ChannelServer.collectPendingRequest, Function.update_apply] at htimer
    split at htimer
    · obtain ⟨rfl, rfl⟩ := Prod.mk.inj (Option.some.inj htimer)
      exact ⟨hreceived, fun _ => ⟨hhands, hanswers⟩⟩
    · exact h.waiting timer state r htimer
  · intro timer timer' state state' r r' htimer htimer' hid
    simp only [ChannelServer.collectPendingRequest, Function.update_apply] at htimer htimer'
    split at htimer <;> split at htimer'
    · next he he' => rw [he, he']
    · obtain ⟨-, rfl⟩ := Prod.mk.inj (Option.some.inj htimer)
      exact absurd hid.symm (hnone timer' state' r' htimer')
    · obtain ⟨-, rfl⟩ := Prod.mk.inj (Option.some.inj htimer')
      exact absurd hid (hnone timer state r htimer)
    · exact h.oneTimer timer timer' state state' r r' htimer htimer' hid
  · intro channelName requests hget
    simp only [ChannelServer.collectPendingRequest, JsMap.get_set] at hget
    split at hget
    · obtain rfl := Option.some.inj hget
      cases hold : run.server.pendingRequests.get request.channelName with
      | none => simp
      | some requests' =>
        rw [Option.getD_some, map_append, map_singleton, nodup_append]
        refine ⟨h.distinct _ requests' hold, nodup_singleton _, ?_⟩
        intro a ha b hb hab
        obtain ⟨p, hp, rfl⟩ := mem_map.1 ha
        rw [mem_singleton] at hb
        obtain ⟨-, state, hstate⟩ := htracked.pending _ requests' hold p hp
        rw [hab, hb, htracked.fresh _ le_rfl] at hstate
        cases hstate
    · exact h.distinct channelName requests hget

theorem clear (timer : Nat) : Sound ⟨run.server.clearTimeout timer, run.history⟩ := by
  have hback : ∀ t state request,
      (run.server.clearTimeout timer).timers t = some (state, request) →
        ∃ state', run.server.timers t = some (state', request) ∧ (t ≠ timer → state' = state) ∧
          (t = timer → state = .cleared) := by
    intro t state request ht
    simp only [ChannelServer.clearTimeout, Function.update_apply] at ht
    split at ht
    · next he =>
        obtain ⟨⟨state', r⟩, hr, hpair⟩ := Option.map_eq_some_iff.1 ht
        obtain ⟨hstate, rfl⟩ := Prod.mk.inj hpair
        exact ⟨state', he ▸ hr, fun hne => absurd he hne, fun _ => hstate.symm⟩
    · next hne => exact ⟨state, ht, fun _ => rfl, fun he => absurd he hne⟩
  refine ⟨h.once, h.received, ?_, ?_, h.distinct, h.calls, h.oneCall, h.subscriptions⟩
  · intro t state request ht
    obtain ⟨state', ht', hother, hself⟩ := hback t state request ht
    refine ⟨(h.waiting t state' request ht').1, fun hstate => ?_⟩
    by_cases he : t = timer
    · rw [hself he] at hstate
      simp at hstate
    · exact (h.waiting t state' request ht').2 (hother he ▸ hstate)
  · intro t t' state state' r r' ht ht' hid
    obtain ⟨_, ht, -⟩ := hback t state r ht
    obtain ⟨_, ht', -⟩ := hback t' state' r' ht'
    exact h.oneTimer t t' _ _ r r' ht ht' hid

theorem handed (channel : Channel) (hreceived : Seen receives run.history request.id)
    (hhands : ¬ Seen hands run.history request.id)
    (hanswers : ¬ Seen answers run.history request.id) (hends : ¬ Seen ends run.history request.id)
    (htimers : ∀ timer state r, run.server.timers timer = some (state, r) → r.id = request.id →
    state = .cleared) :
    Sound ⟨run.server, run.history ++ [.handed channel request]⟩ := by
  refine ⟨?_, ?_, ?_, h.oneTimer, h.distinct, ?_, h.oneCall, ?_⟩
  · refine onceOnly_snoc h.once (by simp [Occurrence.answers]) ?_ (by simp [Occurrence.fires])
    intro id hid
    obtain rfl : request.id = id := Option.some.inj hid
    exact ⟨hanswers, hhands, hends⟩
  · intro id hid
    simp only [seen_append, seen_cons, seen_nil, Occurrence.hands, Occurrence.answers, or_false,
      reduceCtorEq, Option.some.injEq] at hid ⊢
    refine .inl ?_
    rcases hid with (hid | rfl) | hid
    · exact h.received id (.inl hid)
    · exact hreceived
    · exact h.received id (.inr hid)
  · intro timer state r htimer
    obtain ⟨hr, hwaiting⟩ := h.waiting timer state r htimer
    simp only [seen_append, seen_cons, seen_nil, Occurrence.hands, Occurrence.answers, or_false,
      reduceCtorEq, Option.some.injEq]
    refine ⟨.inl hr, fun hstate => ⟨?_, (hwaiting hstate).2⟩⟩
    rintro (hseen | hid)
    · exact (hwaiting hstate).1 hseen
    · rw [htimers timer state r htimer hid.symm] at hstate
      simp at hstate
  · intro handle call hcall
    obtain ⟨hhanded, hrunning⟩ := h.calls handle call hcall
    simp only [seen_append, seen_cons, seen_nil, Occurrence.answers, or_false, reduceCtorEq]
    exact ⟨.inl hhanded, hrunning⟩
  · intro handle id hsub
    obtain ⟨hhanded, hended, hactive⟩ := h.subscriptions handle id hsub
    simp only [seen_append, seen_cons, seen_nil, Occurrence.ends, or_false, reduceCtorEq]
    exact ⟨.inl hhanded, hended, hactive⟩

theorem addCall (hhands : Seen hands run.history id) (hanswers : ¬ Seen answers run.history id)
    (hcalls : ∀ handle call, run.server.calls handle = some call → call.requestId ≠ id)
    (hsubs : ∀ handle id', run.server.subscriptions handle = some ⟨id', true⟩ → id' ≠ id) :
    Sound ⟨run.server.addCall id, run.history⟩ := by
  refine ⟨h.once, h.received, h.waiting, h.oneTimer, h.distinct, ?_, ?_, ?_⟩
  · intro handle call hcall
    simp only [ChannelServer.addCall, Function.update_apply] at hcall
    split at hcall
    · obtain rfl := Option.some.inj hcall
      exact ⟨hhands, fun _ => hanswers⟩
    · exact h.calls handle call hcall
  · intro handle handle' call call' hcall hcall' hid
    simp only [ChannelServer.addCall, Function.update_apply] at hcall hcall'
    split at hcall <;> split at hcall'
    · next he he' => rw [he, he']
    · obtain rfl := Option.some.inj hcall
      exact absurd hid.symm (hcalls handle' call' hcall')
    · obtain rfl := Option.some.inj hcall'
      exact absurd hid (hcalls handle call hcall)
    · exact h.oneCall handle handle' call call' hcall hcall' hid
  · intro handle id' hsub
    obtain ⟨hhanded, hended, hactive, hcalls'⟩ := h.subscriptions handle id' hsub
    refine ⟨hhanded, hended, ?_, ?_⟩
    · simp only [ChannelServer.addCall]
      rw [JsMap.get_set_of_ne (hsubs handle id' hsub), hactive]
    · intro handle' call hcall
      simp only [ChannelServer.addCall, Function.update_apply] at hcall
      split at hcall
      · obtain rfl := Option.some.inj hcall
        exact (hsubs handle id' hsub).symm
      · exact hcalls' handle' call hcall

theorem addSubscription (hhands : Seen hands run.history id) (hends : ¬ Seen ends run.history id)
    (hcalls : ∀ handle call, run.server.calls handle = some call → call.requestId ≠ id)
    (hsubs : ∀ handle id', run.server.subscriptions handle = some ⟨id', true⟩ → id' ≠ id) :
    Sound ⟨run.server.addSubscription id, run.history⟩ := by
  refine ⟨h.once, h.received, h.waiting, h.oneTimer, h.distinct, h.calls, h.oneCall, ?_⟩
  intro handle id' hsub
  simp only [ChannelServer.addSubscription, Function.update_apply] at hsub ⊢
  split at hsub
  · next he =>
      obtain rfl : id = id' := congrArg Subscription.requestId (Option.some.inj hsub)
      exact ⟨hhands, hends, by rw [JsMap.get_set_self, he], hcalls⟩
  · obtain ⟨hhanded, hended, hactive, hcalls'⟩ := h.subscriptions handle id' hsub
    exact ⟨hhanded, hended, by rw [JsMap.get_set_of_ne (hsubs handle id' hsub), hactive], hcalls'⟩

theorem hand {channel : Channel} (listen : ListenOutcome Data)
    (hchannel : run.server.channels.get request.channelName = some channel)
    (hreceived : Seen receives run.history request.id)
    (hhands : ¬ Seen hands run.history request.id)
    (hanswers : ¬ Seen answers run.history request.id) (hends : ¬ Seen ends run.history request.id)
    (htimers : ∀ timer state r, run.server.timers timer = some (state, r) → r.id = request.id →
    state = .cleared) :
    let outcome := run.server.onRequest request listen
    Sound ⟨outcome.server, run.history ++ outcome.occurrences⟩ := by
  have hhanded := h.handed channel hreceived hhands hanswers hends htimers
  have hseen : Seen hands (run.history ++ [.handed channel request]) request.id := by
    simp [Occurrence.hands]
  have hcalls : ∀ handle call, run.server.calls handle = some call →
      call.requestId ≠ request.id := fun handle call hcall he =>
    hhands (he ▸ (h.calls handle call hcall).1)
  have hsubs : ∀ handle id', run.server.subscriptions handle = some ⟨id', true⟩ →
      id' ≠ request.id := fun handle id' hsub he =>
    hhands (he ▸ (h.subscriptions handle id' hsub).1)
  have hended : ¬ Seen ends (run.history ++ [.handed channel request]) request.id := by
    simpa [Occurrence.ends] using hends
  rcases ChannelServer.onRequest_cases listen hchannel with
    ⟨-, he⟩ | ⟨-, -, he⟩ | ⟨-, immediate, -, he⟩
  all_goals
    dsimp only
    rw [he]
  · refine hhanded.addCall hseen ?_ hcalls hsubs
    simpa [Occurrence.answers] using hanswers
  · exact hhanded
  · rw [← singleton_append, ← append_assoc]
    refine (hhanded.addSubscription hseen hended hcalls hsubs).lengthen ?_ ?_ ?_ ?_
    · refine onceOnly_append hhanded.once ?_ ?_ ?_ ?_
      · rw [OnceOnly, pairwise_map]
        exact pairwise_of_forall fun _ _ => by
          simp [Clash, Occurrence.answers, RawResponse.answers, Occurrence.hands, Occurrence.ends]
      · exact fun id _ => ⟨seen_events _ _ (fun _ => rfl) id, seen_events _ _ (fun _ => rfl) id⟩
      · exact fun id _ => seen_events _ _ (fun _ => rfl) id
      · intro id hid
        refine ⟨seen_events _ _ (fun _ => rfl) id, ?_⟩
        rintro ⟨occurrence, hmem, hfires⟩
        obtain ⟨data, -, rfl⟩ := mem_map.1 hmem
        obtain rfl : request.id = id := Option.some.inj hfires
        exact hended hid
    · exact fun id => seen_events _ _ (fun _ => rfl) id
    · exact fun id => seen_events _ _ (fun _ => rfl) id
    · exact fun id => seen_events _ _ (fun _ => rfl) id

theorem clear_hand {p : PendingRequest Arg} {state : TimerState}
    {channel : Channel} (listen : ListenOutcome Data)
    (htimer : run.server.timers p.timeoutTimer = some (state, p.request))
    (hchannel : run.server.channels.get p.request.channelName = some channel)
    (hintact : Intact run p) :
    let outcome := (run.server.clearTimeout p.timeoutTimer).onRequest p.request listen
    Sound ⟨outcome.server, run.history ++ outcome.occurrences⟩ := by
  obtain ⟨hends, state', request', htimer', hstate⟩ := hintact
  obtain ⟨rfl, rfl⟩ := Prod.mk.inj (Option.some.inj (htimer.symm.trans htimer'))
  obtain ⟨hreceived, hwaiting⟩ := h.waiting _ _ _ htimer
  obtain ⟨hhands, hanswers⟩ := hwaiting hstate
  have hcleared : (run.server.clearTimeout p.timeoutTimer).timers p.timeoutTimer =
      some (.cleared, p.request) := by
    simp [ChannelServer.clearTimeout, htimer]
  refine (h.clear p.timeoutTimer).hand listen hchannel hreceived hhands hanswers hends ?_
  intro timer state' r hr hid
  obtain rfl := (h.clear p.timeoutTimer).oneTimer _ _ _ _ _ _ hr hcleared hid
  exact (Prod.mk.inj (Option.some.inj (hr.symm.trans hcleared))).1

theorem flushLoop (htracked : Tracked run) (listen : Nat → ListenOutcome Data)
    (requests : List (PendingRequest Arg))
    (hnodup : (requests.map PendingRequest.timeoutTimer).Nodup)
    (htimers : ∀ p ∈ requests, ∃ state, run.server.timers p.timeoutTimer = some (state, p.request))
    (hchannels : ∀ p ∈ requests,
      ∃ channel, run.server.channels.get p.request.channelName = some channel)
    (hintact : ∀ p ∈ reached listen requests, Intact run p) :
    let outcome := run.server.flushLoop listen requests
    Sound ⟨outcome.server, run.history ++ outcome.occurrences⟩ := by
  induction requests generalizing run with
  | nil =>
    simp only [ChannelServer.flushLoop, append_nil]
    exact h
  | cons p rest ih =>
    obtain ⟨state, htimer⟩ := htimers p mem_cons_self
    obtain ⟨channel, hchannel⟩ := hchannels p mem_cons_self
    have hfirst := h.clear_hand (listen p.request.id) htimer hchannel
      (hintact p (head_reached listen p rest))
    have htracked' := htracked.clear_hand (listen p.request.id) htimer hchannel
    obtain ⟨htimers', -, -, -, hchannels', -⟩ :=
      ChannelServer.clearTimeout_onRequest (listen p.request.id) htimer hchannel
    obtain ⟨hfresh, hrest⟩ := nodup_cons.1 hnodup
    simp only [ChannelServer.flushLoop]
    split
    · exact hfirst
    · next hthrew =>
        have hreached := reached_of_not_threw (run.server.clearTimeout p.timeoutTimer) listen
          hchannel hthrew rest
        rw [← append_assoc]
        refine ih hfirst htracked' hrest ?_ ?_ ?_
        · intro q hq
          simp only [htimers']
          exact update_keeps_request htimer .cleared (htimers q (mem_cons_of_mem _ hq))
        · intro q hq
          simp only [hchannels']
          exact hchannels q (mem_cons_of_mem _ hq)
        · intro q hq
          obtain ⟨hends, hstate⟩ := hintact q (hreached ▸ mem_cons_of_mem _ hq)
          have hne : q.timeoutTimer ≠ p.timeoutTimer := fun he =>
            hfresh (he ▸ mem_map_of_mem (reached_subset listen rest hq))
          refine ⟨?_, by simpa only [htimers', Function.update_of_ne hne] using hstate⟩
          rw [seen_append]
          rintro (hseen | hseen)
          · exact hends hseen
          · exact ChannelServer.onRequest_unseen (fun _ _ => rfl) (fun _ _ => rfl) _ _ _ _ hseen

theorem deletePending (channelName : String) :
    Sound ⟨{ run.server with
      pendingRequests := run.server.pendingRequests.delete channelName }, run.history⟩ := by
  refine ⟨h.once, h.received, h.waiting, h.oneTimer, ?_, h.calls, h.oneCall, h.subscriptions⟩
  intro name requests hget
  rw [JsMap.get_delete] at hget
  split at hget
  · cases hget
  · exact h.distinct name requests hget

theorem flushPendingRequests (htracked : Tracked run) {channelName : String}
    (listen : Nat → ListenOutcome Data)
    (hchannel : run.server.channels.has channelName = true)
    (hintact : ∀ requests, run.server.pendingRequests.get channelName = some requests →
      ∀ p ∈ reached listen requests, Intact run p) :
    let outcome := run.server.flushPendingRequests channelName listen
    Sound ⟨outcome.server, run.history ++ outcome.occurrences⟩ := by
  simp only [ChannelServer.flushPendingRequests]
  split
  · simp only [append_nil]
    exact h
  · next requests hget =>
      obtain ⟨channel, hget'⟩ := JsMap.has_eq_true.1 hchannel
      have hloop := h.flushLoop htracked listen requests (h.distinct channelName requests hget)
        (fun p hp => (htracked.pending channelName requests hget p hp).2)
        (fun p hp => ⟨channel, by rw [(htracked.pending channelName requests hget p hp).1, hget']⟩)
        (hintact requests hget)
      split
      · exact hloop
      · exact hloop.deletePending channelName

theorem answer {response : RawResponse Data}
    (hresponse : response.answers = some id) (hreceived : Seen receives run.history id)
    (hanswers : ¬ Seen answers run.history id)
    (hwaiting : ∀ timer state r, run.server.timers timer = some (state, r) → r.id = id →
    ¬ (state = .running ∨ state = .expired ∧ r.type = .EventListen))
    (hcalls : ∀ handle call, run.server.calls handle = some call → call.requestId = id →
    call.stage ≠ .running) :
    Sound ⟨run.server, run.history ++ [.sent response]⟩ := by
  have hfires : fires (.sent response : Occurrence Channel Arg Data) = none := by
    cases response <;> first | rfl | simp [RawResponse.answers] at hresponse
  refine ⟨?_, ?_, ?_, h.oneTimer, h.distinct, ?_, h.oneCall, ?_⟩
  · refine onceOnly_snoc h.once ?_ (by simp [Occurrence.hands]) (by simp [hfires])
    intro k hk
    obtain rfl : id = k := Option.some.inj (hresponse.symm.trans hk)
    exact hanswers
  · intro k hk
    simp only [seen_append, seen_cons, seen_nil, Occurrence.hands, Occurrence.answers, or_false,
      reduceCtorEq, hresponse, Option.some.injEq] at hk ⊢
    refine .inl ?_
    rcases hk with hk | hk | rfl
    · exact h.received k (.inl hk)
    · exact h.received k (.inr hk)
    · exact hreceived
  · intro timer state r htimer
    obtain ⟨hr, hnone⟩ := h.waiting timer state r htimer
    simp only [seen_append, seen_cons, seen_nil, Occurrence.hands, Occurrence.answers, or_false,
      reduceCtorEq, hresponse, Option.some.injEq]
    refine ⟨.inl hr, fun hstate => ⟨(hnone hstate).1, ?_⟩⟩
    rintro (hseen | rfl)
    · exact (hnone hstate).2 hseen
    · exact hwaiting timer state r htimer rfl hstate
  · intro handle call hcall
    obtain ⟨hhanded, hrunning⟩ := h.calls handle call hcall
    simp only [seen_append, seen_cons, seen_nil, Occurrence.hands, Occurrence.answers, or_false,
      reduceCtorEq, hresponse, Option.some.injEq]
    refine ⟨hhanded, fun hstage => ?_⟩
    rintro (hseen | hid)
    · exact hrunning hstage hseen
    · exact hcalls handle call hcall hid.symm hstage
  · intro handle k hsub
    simp only [seen_append, seen_cons, seen_nil, Occurrence.hands, Occurrence.ends, or_false,
      reduceCtorEq]
    exact h.subscriptions handle k hsub

theorem expire {timer : Nat} (htimer : run.server.timers timer = some (.running, request)) :
    Sound ⟨{ run.server with
      timers := Function.update run.server.timers timer (some (.expired, request)) },
      run.history⟩ := by
  have hback : ∀ t state r,
      Function.update run.server.timers timer (some (.expired, request)) t = some (state, r) →
        ∃ state', run.server.timers t = some (state', r) ∧
          (state = .running ∨ state = .expired ∧ r.type = .EventListen →
            state' = .running ∨ state' = .expired ∧ r.type = .EventListen) := by
    intro t state r ht
    rw [Function.update_apply] at ht
    split at ht
    · next he =>
        obtain ⟨-, rfl⟩ := Prod.mk.inj (Option.some.inj ht)
        exact ⟨.running, he ▸ htimer, fun _ => .inl rfl⟩
    · exact ⟨state, ht, id⟩
  refine ⟨h.once, h.received, ?_, ?_, h.distinct, h.calls, h.oneCall, h.subscriptions⟩
  · intro t state r ht
    obtain ⟨state', ht', hstate⟩ := hback t state r ht
    obtain ⟨hr, hnone⟩ := h.waiting t state' r ht'
    exact ⟨hr, fun hs => hnone (hstate hs)⟩
  · intro t t' state state' r r' ht ht' hid
    obtain ⟨_, ht, -⟩ := hback t state r ht
    obtain ⟨_, ht', -⟩ := hback t' state' r' ht'
    exact h.oneTimer t t' _ _ r r' ht ht' hid

theorem timeout (timer : Nat) :
    let outcome : Outcome Channel Arg Data := run.server.timeout timer
    Sound ⟨outcome.server, run.history ++ outcome.occurrences⟩ := by
  simp only [ChannelServer.timeout]
  split
  · next request htimer =>
      obtain ⟨hreceived, hnone⟩ := h.waiting timer _ request htimer
      have hexpired := h.expire htimer
      by_cases htype : request.type = .Promise
      · simp only [htype, if_true]
        refine hexpired.answer rfl hreceived (hnone (.inl rfl)).2 ?_ ?_
        · intro t state r ht hid hstate
          obtain rfl := hexpired.oneTimer t timer _ _ r request ht (Function.update_self _ _ _) hid
          obtain ⟨rfl, rfl⟩ := Prod.mk.inj (Option.some.inj
            (ht.symm.trans (Function.update_self _ _ _)))
          simp [htype] at hstate
        · intro handle call hcall hid
          exact absurd (hid ▸ (h.calls handle call hcall).1) (hnone (.inl rfl)).1
      · simp only [htype, if_false, append_nil]
        exact hexpired
  · simp only [append_nil]
    exact h

theorem updateCall {handle : Nat} {call : Call} (next : Option Call)
    (hcall : run.server.calls handle = some call)
    (hnext : ∀ call' ∈ next, call'.requestId = call.requestId ∧
      (call'.stage = .running → call.stage = .running)) :
    Sound ⟨{ run.server with calls := Function.update run.server.calls handle next },
      run.history⟩ := by
  have hback : ∀ k c, Function.update run.server.calls handle next k = some c →
      ∃ c', run.server.calls k = some c' ∧ c.requestId = c'.requestId ∧
        (c.stage = .running → c'.stage = .running) := by
    intro k c hk
    rw [Function.update_apply] at hk
    split at hk
    · next he => exact ⟨call, he ▸ hcall, hnext c hk⟩
    · exact ⟨c, hk, rfl, id⟩
  refine ⟨h.once, h.received, h.waiting, h.oneTimer, h.distinct, ?_, ?_, ?_⟩
  · intro k c hk
    obtain ⟨c', hk', hid, hstage⟩ := hback k c hk
    obtain ⟨hhanded, hrunning⟩ := h.calls k c' hk'
    rw [hid]
    exact ⟨hhanded, fun hs => hrunning (hstage hs)⟩
  · intro k k' c c' hk hk' he
    obtain ⟨d, hd, hid, -⟩ := hback k c hk
    obtain ⟨d', hd', hid', -⟩ := hback k' c' hk'
    exact h.oneCall k k' d d' hd hd' (by rw [← hid, ← hid', he])
  · intro k id hsub
    obtain ⟨hhanded, hended, hactive, hcalls⟩ := h.subscriptions k id hsub
    refine ⟨hhanded, hended, hactive, ?_⟩
    intro k' c hk'
    obtain ⟨c', hc', hid, -⟩ := hback k' c hk'
    rw [hid]
    exact hcalls k' c' hc'

theorem settle (handle : Nat) (settlement : Settlement Data) :
    let outcome := run.server.settle handle settlement
    Sound ⟨outcome.server, run.history ++ outcome.occurrences⟩ := by
  simp only [ChannelServer.settle]
  split
  · next requestId tokenCancelled hcall =>
      obtain ⟨hhanded, hrunning⟩ := h.calls handle _ hcall
      have hsettled := h.updateCall (some ⟨requestId, .settled, tokenCancelled⟩) hcall (by
        intro call' hcall'
        obtain rfl := Option.some.inj hcall'
        exact ⟨rfl, fun hstage => absurd hstage (by simp)⟩)
      refine hsettled.answer (by cases settlement <;> rfl) (h.received requestId (.inl hhanded))
        (hrunning rfl) ?_ ?_
      · intro timer state r htimer hid hstate
        exact ((h.waiting timer state r htimer).2 hstate).1 (hid ▸ hhanded)
      · intro k c hk hid
        obtain rfl := hsettled.oneCall k handle c _ hk (Function.update_self _ _ _) hid
        obtain rfl := Option.some.inj (hk.symm.trans (Function.update_self _ _ _))
        simp
  · simp only [append_nil]
    exact h

theorem deleteActive
    (hsubs : ∀ handle id', run.server.subscriptions handle = some ⟨id', true⟩ → id' ≠ id) :
    Sound ⟨{ run.server with activeRequests := run.server.activeRequests.delete id },
      run.history⟩ := by
  refine ⟨h.once, h.received, h.waiting, h.oneTimer, h.distinct, h.calls, h.oneCall, ?_⟩
  intro handle id' hsub
  obtain ⟨hhanded, hended, hactive, hcalls⟩ := h.subscriptions handle id' hsub
  refine ⟨hhanded, hended, ?_, hcalls⟩
  rw [JsMap.get_delete, if_neg (hsubs handle id' hsub), hactive]

theorem settled (handle : Nat) : Sound ⟨run.server.settled handle, run.history⟩ := by
  simp only [ChannelServer.settled]
  split
  · next requestId tokenCancelled hcall =>
      have hremoved := h.updateCall none hcall (by simp)
      refine hremoved.deleteActive ?_
      intro k id' hsub he
      exact (h.subscriptions k id' hsub).2.2.2 handle _ hcall he.symm
  · exact h

theorem disposeActiveRequest (id : Nat) :
    Sound ⟨run.server.disposeActiveRequest id, run.history⟩ ∧ ∀ handle id',
    (run.server.disposeActiveRequest id).subscriptions handle = some ⟨id', true⟩ → id' ≠ id := by
  simp only [ChannelServer.disposeActiveRequest]
  split
  · next hnone =>
      refine ⟨h, fun handle id' hsub he => ?_⟩
      rw [← he, (h.subscriptions handle id' hsub).2.2.1] at hnone
      cases hnone
  · next disposable hactive =>
      cases disposable with
      | call handle =>
        have hsubs : ∀ k id', run.server.subscriptions k = some ⟨id', true⟩ → id' ≠ id := by
          intro k id' hsub he
          have hother := (h.subscriptions k id' hsub).2.2.1
          rw [he, hactive] at hother
          cases hother
        refine ⟨?_, hsubs⟩
        cases hcall : run.server.calls handle with
        | none =>
          have hsame : Function.update run.server.calls handle none = run.server.calls := by
            rw [← hcall, Function.update_eq_self]
          simp only [ChannelServer.dispose, hcall, Option.map_none, hsame]
          exact h.deleteActive hsubs
        | some call =>
          simp only [ChannelServer.dispose, hcall, Option.map_some]
          refine (h.updateCall _ hcall ?_).deleteActive hsubs
          intro call' hcall'
          obtain rfl := Option.some.inj hcall'
          exact ⟨rfl, fun hstage => hstage⟩
      | subscription handle =>
        have hback : ∀ k id', (run.server.dispose (.subscription handle)).subscriptions k =
            some ⟨id', true⟩ → k ≠ handle ∧ run.server.subscriptions k = some ⟨id', true⟩ := by
          intro k id' hsub
          simp only [ChannelServer.dispose, Function.update_apply] at hsub
          split at hsub
          · obtain ⟨subscription, -, hdead⟩ := Option.map_eq_some_iff.1 hsub
            cases hdead
          · next hne => exact ⟨hne, hsub⟩
        have hsubs : ∀ k id', (run.server.dispose (.subscription handle)).subscriptions k =
            some ⟨id', true⟩ → id' ≠ id := by
          intro k id' hsub he
          obtain ⟨hne, hsub⟩ := hback k id' hsub
          have hother := (h.subscriptions k id' hsub).2.2.1
          rw [he, hactive] at hother
          exact hne (Disposable.subscription.inj (Option.some.inj hother)).symm
        have hdisposed : Sound ⟨run.server.dispose (.subscription handle), run.history⟩ :=
          ⟨h.once, h.received, h.waiting, h.oneTimer, h.distinct, h.calls, h.oneCall,
            fun k id' hsub => h.subscriptions k id' (hback k id' hsub).2⟩
        exact ⟨hdisposed.deleteActive hsubs, hsubs⟩

theorem cancel (id : Nat) :
    Sound ⟨run.server.disposeActiveRequest id, run.history ++ [.ended id]⟩ := by
  obtain ⟨hdisposed, hsubs⟩ := h.disposeActiveRequest id
  refine ⟨?_, ?_, ?_, hdisposed.oneTimer, hdisposed.distinct, ?_, hdisposed.oneCall, ?_⟩
  · exact onceOnly_snoc h.once (by simp [Occurrence.answers]) (by simp [Occurrence.hands])
      (by simp [Occurrence.fires])
  · intro k hk
    simp only [seen_append, seen_cons, seen_nil, Occurrence.hands, Occurrence.answers, or_false,
      reduceCtorEq] at hk ⊢
    exact .inl (h.received k hk)
  · intro timer state r htimer
    obtain ⟨hr, hnone⟩ := hdisposed.waiting timer state r htimer
    simp only [seen_append, seen_cons, seen_nil, Occurrence.hands, Occurrence.answers, or_false,
      reduceCtorEq]
    exact ⟨.inl hr, hnone⟩
  · intro handle call hcall
    simp only [seen_append, seen_cons, seen_nil, Occurrence.hands, Occurrence.answers, or_false,
      reduceCtorEq]
    exact hdisposed.calls handle call hcall
  · intro handle id' hsub
    obtain ⟨hhanded, hended, hactive⟩ := hdisposed.subscriptions handle id' hsub
    simp only [seen_append, seen_cons, seen_nil, Occurrence.hands, Occurrence.ends, or_false,
      reduceCtorEq, Option.some.injEq]
    refine ⟨hhanded, ?_, hactive⟩
    rintro (hseen | he)
    · exact hended hseen
    · exact hsubs handle id' hsub he.symm

theorem step (htracked : Tracked run) (action : ServerAction Channel Arg Data)
    (hfresh : ∀ id, action.requestId = some id → ¬ Seen receives run.history id)
    (hcareful : Careful run action) : Sound (run.step action) := by
  cases action with
  | request request listen =>
    have hnew := hfresh request.id rfl
    have hreceived := h.receive request
    have hhands : ¬ Seen hands (run.history ++ [.received request]) request.id := by
      simp only [seen_append, seen_cons, seen_nil, Occurrence.hands, or_false, reduceCtorEq]
      exact fun hseen => hnew (h.received _ (.inl hseen))
    have hanswers : ¬ Seen answers (run.history ++ [.received request]) request.id := by
      simp only [seen_append, seen_cons, seen_nil, Occurrence.answers, or_false, reduceCtorEq]
      exact fun hseen => hnew (h.received _ (.inr hseen))
    have hnone : ∀ timer state r, run.server.timers timer = some (state, r) →
        r.id ≠ request.id := fun timer state r htimer he =>
      hnew (he ▸ (h.waiting timer state r htimer).1)
    simp only [ServerRun.step]
    rw [← singleton_append, ← append_assoc]
    cases hchannel : run.server.channels.get request.channelName with
    | none =>
      rw [ChannelServer.onRequest_unregistered listen hchannel, append_nil]
      exact hreceived.collect (htracked.lengthen _) (by simp [Occurrence.receives]) hhands
        hanswers hnone
    | some channel =>
      refine hreceived.hand listen hchannel (by simp [Occurrence.receives]) hhands hanswers ?_
        (fun timer state r htimer he => absurd he (hnone timer state r htimer))
      simp only [seen_append, seen_cons, seen_nil, Occurrence.ends, or_false, reduceCtorEq]
      exact hcareful (JsMap.has_eq_true.2 ⟨channel, hchannel⟩)
  | cancel id => exact h.cancel id
  | registerChannel channelName channel =>
    exact ⟨h.once, h.received, h.waiting, h.oneTimer, h.distinct, h.calls, h.oneCall,
      h.subscriptions⟩
  | timeout timer => exact h.timeout timer
  | flush index listen =>
    simp only [ServerRun.step]
    split
    · exact h
    · next channelName hindex =>
        have hrest : Sound ⟨{ run.server with flushes := run.server.flushes.eraseIdx index },
            run.history⟩ :=
          ⟨h.once, h.received, h.waiting, h.oneTimer, h.distinct, h.calls, h.oneCall,
            h.subscriptions⟩
        have htracked' : Tracked
            ⟨{ run.server with flushes := run.server.flushes.eraseIdx index }, run.history⟩ :=
          htracked.same rfl rfl le_rfl fun name hname =>
            htracked.flushes name (mem_of_mem_eraseIdx hname)
        exact hrest.flushPendingRequests htracked' listen
          (htracked.flushes channelName (mem_of_getElem? hindex))
          (hcareful channelName hindex)
  | settle handle settlement => exact h.settle handle settlement
  | settled handle => exact h.settled handle
  | fire handle data =>
    simp only [ServerRun.step, ChannelServer.fire]
    split
    · next id hlive => exact h.fire hlive data
    · simp only [append_nil]
      exact h

end Sound

end CodeOss.Ipc
