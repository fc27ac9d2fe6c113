import CodeOss.Ipc.ChannelServerSound

/-! Each request is answered and handed to a channel at most once, and not at all once it
was cancelled or disposed, exactly in the runs whose flushes find the pending
requests as they were collected. -/

namespace CodeOss.Ipc

open ChannelServer List

variable {Channel Arg Data : Type}

open Occurrence

theorem reached_handed (listen : Nat → ListenOutcome Data) (requests : List (PendingRequest Arg))
    {server : ChannelServer Channel Arg}
    (hchannels : ∀ p ∈ requests, ∃ channel, server.channels.get p.request.channelName = some
    channel)
    {p : PendingRequest Arg} (hp : p ∈ reached listen requests) :
    Seen hands (server.flushLoop listen requests).occurrences p.request.id := by
  induction requests generalizing server with
  | nil => exact absurd hp not_mem_nil
  | cons q rest ih =>
    obtain ⟨channel, hchannel⟩ := hchannels q mem_cons_self
    have hchannel' : (server.clearTimeout q.timeoutTimer).channels.get q.request.channelName =
        some channel := hchannel
    have hfirst : Seen hands ((server.clearTimeout q.timeoutTimer).onRequest q.request
        (listen q.request.id)).occurrences q.request.id := by
      rcases onRequest_cases (listen q.request.id) hchannel' with
        ⟨-, he⟩ | ⟨-, -, he⟩ | ⟨-, immediate, -, he⟩
      all_goals
        rw [he]
        exact (seen_cons _ _ _).2 (.inl rfl)
    simp only [flushLoop]
    split
    · next hthrew =>
        rcases onRequest_cases (listen q.request.id) hchannel' with
          ⟨-, he⟩ | ⟨htype, hlisten, -⟩ | ⟨-, immediate, -, he⟩
        · rw [he] at hthrew
          cases hthrew
        · rw [reached, htype, hlisten, mem_singleton] at hp
          rwa [hp]
        · rw [he] at hthrew
          cases hthrew
    · next hthrew =>
        rw [reached_of_not_threw _ listen hchannel' hthrew] at hp
        rw [seen_append]
        rcases mem_cons.1 hp with rfl | hp
        · exact .inl hfirst
        · refine .inr (ih ?_ hp)
          intro r hr
          rw [onRequest_channels]
          exact hchannels r (mem_cons_of_mem _ hr)

theorem not_onceOnly {history later : List (Occurrence Channel Arg Data)} {id : Nat}
    (hseen : Seen ends history id ∨ Seen answers history id ∨ Seen hands history id)
    (hhands : Seen hands later id) : ¬ OnceOnly (history ++ later) := by
  intro honce
  obtain ⟨b, hb, hlater⟩ := hhands
  have hclash := (pairwise_append.1 honce).2.2
  rcases hseen with ⟨a, ha, he⟩ | ⟨a, ha, he⟩ | ⟨a, ha, he⟩
  · exact hclash a ha b hb ⟨id, .inr (.inr ⟨he, .inl hlater⟩)⟩
  · exact hclash a ha b hb ⟨id, .inl ⟨he, .inr hlater⟩⟩
  · exact hclash a ha b hb ⟨id, .inr (.inl ⟨he, hlater⟩)⟩

variable {run : ServerRun Channel Arg Data}

theorem Tracked.not_intact (h : Tracked run) {p : PendingRequest Arg}
    {state : TimerState} (htimer : run.server.timers p.timeoutTimer = some (state, p.request))
    (hintact : ¬ Intact run p) : Seen ends run.history p.request.id ∨
    Seen answers run.history p.request.id ∨ Seen hands run.history p.request.id := by
  by_cases hends : Seen ends run.history p.request.id
  · exact .inl hends
  · cases state with
    | running => exact absurd ⟨hends, _, _, htimer, .inl rfl⟩ hintact
    | expired =>
      cases htype : p.request.type with
      | Promise => exact .inr (.inl (h.expired _ _ htimer htype))
      | EventListen => exact absurd ⟨hends, _, _, htimer, .inr ⟨rfl, htype⟩⟩ hintact
    | cleared => exact .inr (.inr (h.cleared _ _ htimer))

theorem Tracked.careless (h : Tracked run)
    {action : ServerAction Channel Arg Data} (hcareless : ¬ Careful run action) :
    ¬ OnceOnly (run.step action).history := by
  cases action with
  | request request listen =>
    obtain ⟨hhas, hends⟩ := Classical.not_imp.1 hcareless
    obtain ⟨channel, hchannel⟩ := JsMap.has_eq_true.1 hhas
    refine not_onceOnly (.inl (not_not.1 hends)) ((seen_cons _ _ _).2 (.inr ?_))
    rcases onRequest_cases listen hchannel with
      ⟨-, he⟩ | ⟨-, -, he⟩ | ⟨-, immediate, -, he⟩
    all_goals
      rw [he]
      exact (seen_cons _ _ _).2 (.inl rfl)
  | flush index listen =>
    simp only [Careful, not_forall] at hcareless
    obtain ⟨channelName, hindex, requests, hget, p, hp, hintact⟩ := hcareless
    obtain ⟨hname, state, htimer⟩ := h.pending channelName requests hget p
      (reached_subset listen requests hp)
    obtain ⟨channel, hchannel⟩ := JsMap.has_eq_true.1
      (h.flushes channelName (mem_of_getElem? hindex))
    simp only [ServerRun.step, hindex]
    refine not_onceOnly (h.not_intact htimer hintact) ?_
    have hget' : ({ run.server with flushes := run.server.flushes.eraseIdx index
        } : ChannelServer Channel Arg).pendingRequests.get channelName = some requests := hget
    rw [flushPendingRequests_occurrences _ listen hget']
    refine reached_handed listen requests ?_ hp
    intro q hq
    exact ⟨channel, by rw [(h.pending channelName requests hget q hq).1]; exact hchannel⟩
  | _ => exact absurd trivial hcareless

def CarefulRun (run : ServerRun Channel Arg Data) : List (ServerAction Channel Arg Data) → Prop
  | [] => True
  | action :: rest => Careful run action ∧ CarefulRun (run.step action) rest

namespace ServerRun

theorem history_prefix (run : ServerRun Channel Arg Data) (action : ServerAction Channel Arg Data) :
    run.history <+: (run.step action).history := by
  cases action with
  | flush index listen =>
    simp only [step]
    split
    · exact prefix_refl _
    · exact prefix_append _ _
  | registerChannel channelName channel => exact prefix_refl _
  | settled handle => exact prefix_refl _
  | _ => exact prefix_append _ _

theorem history_prefix_after (run : ServerRun Channel Arg Data)
    (actions : List (ServerAction Channel Arg Data)) :
    run.history <+: (run.after actions).history := by
  induction actions generalizing run with
  | nil => exact prefix_refl _
  | cons action rest ih => exact (run.history_prefix action).trans (ih (run.step action))

variable {run : ServerRun Channel Arg Data}

theorem receives_step {action : ServerAction Channel Arg Data}
    {id : Nat} (h : Seen receives (run.step action).history id) :
    Seen receives run.history id ∨ action.requestId = some id := by
  cases action with
  | request request listen =>
    rcases (seen_append _ _ _).1 h with h | h
    · exact .inl h
    · rcases (seen_cons _ _ _).1 h with h | h
      · exact .inr h
      · exact absurd h (onRequest_unseen (fun _ _ => rfl) (fun _ _ => rfl) _ _ _ _)
  | cancel id' =>
    simp only [step, seen_append, seen_cons, seen_nil, Occurrence.receives, reduceCtorEq,
      or_false] at h
    exact .inl h
  | registerChannel channelName channel => exact .inl h
  | timeout timer =>
    rcases (seen_append _ _ _).1 h with h | h
    · exact .inl h
    · simp only [ChannelServer.timeout] at h
      split at h
      · split at h <;> simp [Occurrence.receives] at h
      · exact absurd h (seen_nil id)
  | flush index listen =>
    simp only [step] at h
    split at h
    · exact .inl h
    · rcases (seen_append _ _ _).1 h with h | h
      · exact .inl h
      · simp only [flushPendingRequests] at h
        split at h
        · exact absurd h (seen_nil id)
        · split at h <;>
            exact absurd h
              (flushLoop_unseen (fun _ _ => rfl) (fun _ _ => rfl) _ _ _ _)
  | settle handle settlement =>
    rcases (seen_append _ _ _).1 h with h | h
    · exact .inl h
    · simp only [ChannelServer.settle] at h
      split at h <;> simp [Occurrence.receives] at h
  | settled handle => exact .inl h
  | fire handle data =>
    rcases (seen_append _ _ _).1 h with h | h
    · exact .inl h
    · simp only [ChannelServer.fire] at h
      split at h <;> simp [Occurrence.receives] at h

theorem onceOnly_after (hsound : Sound run)
    (htracked : Tracked run) (actions : List (ServerAction Channel Arg Data))
    (hdistinct : (actions.filterMap ServerAction.requestId).Nodup)
    (hnew : ∀ id ∈ actions.filterMap ServerAction.requestId, ¬ Seen receives run.history id) :
    OnceOnly (run.after actions).history ↔ CarefulRun run actions := by
  induction actions generalizing run with
  | nil => exact iff_of_true hsound.once trivial
  | cons action rest ih =>
    have hmem : ∀ id, action.requestId = some id →
        id ∈ (action :: rest).filterMap ServerAction.requestId := fun id hid =>
      mem_filterMap.2 ⟨action, mem_cons_self, hid⟩
    have hsub : ∀ id ∈ rest.filterMap ServerAction.requestId,
        id ∈ (action :: rest).filterMap ServerAction.requestId := fun id hid =>
      List.Sublist.subset ((sublist_cons_self action rest).filterMap _) hid
    by_cases hcareful : Careful run action
    · rw [CarefulRun, and_iff_right hcareful]
      refine ih (hsound.step htracked action (fun id hid => hnew id (hmem id hid)) hcareful)
        (htracked.step action) (hdistinct.sublist
          ((sublist_cons_self action rest).filterMap _)) ?_
      intro id hid hseen
      rcases receives_step hseen with hseen | haction
      · exact hnew id (hsub id hid) hseen
      · rw [filterMap_cons_some haction, nodup_cons] at hdistinct
        exact hdistinct.1 hid
    · refine iff_of_false ?_ fun hrun => hcareful hrun.1
      intro honce
      exact htracked.careless hcareful
        (honce.sublist ((run.step action).history_prefix_after rest).sublist)

/-- A run with distinct request ids answers and hands over each request at most once, and
none after its end, exactly when all its steps are careful. -/
theorem onceOnly_iff_careful (timeoutDelay : Nat) (actions : List (ServerAction Channel Arg Data))
    (hdistinct : (actions.filterMap ServerAction.requestId).Nodup) :
    OnceOnly ((new timeoutDelay).after actions).history ↔
      CarefulRun (new timeoutDelay) actions :=
  onceOnly_after (Sound.new timeoutDelay) (Tracked.new timeoutDelay) actions hdistinct
    fun id _ => by simp [new, Occurrence.receives]

/-- A request that waits for its channel, is flushed, settles and is cancelled afterwards. -/
theorem onceOnly_flushed :
    let request : RawRequest Unit := ⟨.Promise, 1, "c", "f", ()⟩
    OnceOnly ((new 1000 : ServerRun Unit Unit Unit).after
      [.request request .throws, .registerChannel "c" (), .flush 0 (fun _ => .throws),
        .settle 1 (.resolved ()), .settled 1, .cancel 1]).history := by
  intro request
  refine (onceOnly_iff_careful 1000 _ (by decide)).2 ⟨?_, trivial, ?_, trivial, trivial, trivial,
    trivial⟩
  · intro h
    exact absurd h (by decide)
  · intro channelName hname requests hget p hp
    obtain rfl : "c" = channelName := Option.some.inj hname
    obtain rfl : [⟨request, 0⟩] = requests := Option.some.inj hget
    obtain rfl : p = ⟨request, 0⟩ := List.mem_singleton.1 hp
    refine ⟨?_, .running, request, rfl, .inl rfl⟩
    rintro ⟨occurrence, hmem, hends⟩
    have hhistory : occurrence ∈ [.sent .Initialize, .received request] := hmem
    simp only [List.mem_cons, List.not_mem_nil, or_false] at hhistory
    rcases hhistory with rfl | rfl <;> cases hends

/-- The timer of a pending request answers it, and the flush after a late registration
hands it over all the same: the request is answered twice. -/
theorem onceOnly_fails_after_timeout :
    let request : RawRequest Unit := ⟨.Promise, 1, "c", "f", ()⟩
    ¬ OnceOnly ((new 1000 : ServerRun Unit Unit Unit).after
      [.request request .throws, .timeout 0, .registerChannel "c" (),
        .flush 0 (fun _ => .throws), .settle 1 (.resolved ())]).history := by
  intro request
  have hhistory : ((new 1000 : ServerRun Unit Unit Unit).after
      [.request request .throws, .timeout 0, .registerChannel "c" (),
        .flush 0 (fun _ => .throws), .settle 1 (.resolved ())]).history =
      [.sent .Initialize, .received request, .sent (.PromiseError 1
        ((ChannelServer.new 1000 : ChannelServer Unit Unit).timeoutMessage request))] ++
      [.handed () request, .sent (.PromiseSuccess 1 ())] := rfl
  rw [hhistory]
  exact not_onceOnly
    (.inr (.inl ⟨_, List.mem_cons_of_mem _ (List.mem_cons_of_mem _ List.mem_cons_self), rfl⟩))
    ⟨_, List.mem_cons_self, rfl⟩

end ServerRun

end CodeOss.Ipc
