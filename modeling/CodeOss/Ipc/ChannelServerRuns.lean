import CodeOss.Ipc.ChannelServer

/-! Runs of a channel server: messages, registrations, timers, flushes, settlements and
events in any order, and the history they leave. A history is in order when nothing in
it comes after something that excludes it. -/

open List

namespace CodeOss.Ipc

variable {Channel Arg Data : Type}

namespace Occurrence

def receives : Occurrence Channel Arg Data → Option Nat
  | .received request => some request.id
  | _ => none

def ends : Occurrence Channel Arg Data → Option Nat
  | .ended id => some id
  | _ => none

def hands : Occurrence Channel Arg Data → Option Nat
  | .handed _ request => some request.id
  | _ => none

def answers : Occurrence Channel Arg Data → Option Nat
  | .sent response => response.answers
  | _ => none

def fires : Occurrence Channel Arg Data → Option Nat
  | .sent (.EventFire id _) => some id
  | _ => none

/-- What may not follow: an answer or a handing over after an answer, a second handing
over, and a handing over or an event after the request was ended. -/
def Clash (earlier later : Occurrence Channel Arg Data) : Prop :=
  ∃ id, (earlier.answers = some id ∧ (later.answers = some id ∨ later.hands = some id)) ∨
    (earlier.hands = some id ∧ later.hands = some id) ∨
    (earlier.ends = some id ∧ (later.hands = some id ∨ later.fires = some id))

end Occurrence

open Occurrence

def OnceOnly (history : List (Occurrence Channel Arg Data)) : Prop :=
  history.Pairwise fun earlier later => ¬ Clash earlier later

/-- Some occurrence of the history is of this kind for request `id`. -/
def Seen (kind : Occurrence Channel Arg Data → Option Nat)
    (history : List (Occurrence Channel Arg Data)) (id : Nat) : Prop :=
  ∃ occurrence ∈ history, kind occurrence = some id

section seen

variable {kind : Occurrence Channel Arg Data → Option Nat}

@[simp] theorem seen_nil (id : Nat) : ¬ Seen kind [] id := by
  rintro ⟨_, hmem, _⟩
  exact absurd hmem not_mem_nil

@[simp] theorem seen_cons (occurrence : Occurrence Channel Arg Data)
    (rest : List (Occurrence Channel Arg Data)) (id : Nat) :
    Seen kind (occurrence :: rest) id ↔ kind occurrence = some id ∨ Seen kind rest id := by
  simp [Seen]

@[simp] theorem seen_append (first rest : List (Occurrence Channel Arg Data)) (id : Nat) :
    Seen kind (first ++ rest) id ↔ Seen kind first id ∨ Seen kind rest id := by
  simp [Seen, or_and_right, exists_or]

end seen

theorem seen_events (id : Nat) (immediate : List Data)
    {kind : Occurrence Channel Arg Data → Option Nat}
    (hkind : ∀ data, kind (.sent (.EventFire id data)) = none) (k : Nat) :
    ¬ Seen kind (immediate.map fun data => .sent (.EventFire id data)) k := by
  rintro ⟨occurrence, hmem, hk⟩
  obtain ⟨data, -, rfl⟩ := mem_map.1 hmem
  rw [hkind data] at hk
  cases hk

theorem onceOnly_append {history later : List (Occurrence Channel Arg Data)}
    (hhistory : OnceOnly history) (hlater : OnceOnly later)
    (hanswered : ∀ id, Seen answers history id → ¬ Seen answers later id ∧ ¬ Seen hands later id)
    (hhanded : ∀ id, Seen hands history id → ¬ Seen hands later id)
    (hended : ∀ id, Seen ends history id → ¬ Seen hands later id ∧ ¬ Seen fires later id) :
    OnceOnly (history ++ later) := by
  refine pairwise_append.2 ⟨hhistory, hlater, ?_⟩
  rintro a ha b hb ⟨id, ⟨hea, hlb⟩ | ⟨hea, hlb⟩ | ⟨hea, hlb⟩⟩
  · rcases hlb with hlb | hlb
    · exact (hanswered id ⟨a, ha, hea⟩).1 ⟨b, hb, hlb⟩
    · exact (hanswered id ⟨a, ha, hea⟩).2 ⟨b, hb, hlb⟩
  · exact hhanded id ⟨a, ha, hea⟩ ⟨b, hb, hlb⟩
  · rcases hlb with hlb | hlb
    · exact (hended id ⟨a, ha, hea⟩).1 ⟨b, hb, hlb⟩
    · exact (hended id ⟨a, ha, hea⟩).2 ⟨b, hb, hlb⟩

theorem onceOnly_snoc {history : List (Occurrence Channel Arg Data)}
    {later : Occurrence Channel Arg Data} (hhistory : OnceOnly history)
    (hanswers : ∀ id, later.answers = some id → ¬ Seen answers history id)
    (hhands : ∀ id, later.hands = some id → ¬ Seen answers history id ∧ ¬ Seen hands history id ∧
    ¬ Seen ends history id) (hfires : ∀ id, later.fires = some id → ¬ Seen ends history id) :
    OnceOnly (history ++ [later]) := by
  refine onceOnly_append hhistory (pairwise_singleton _ _) ?_ ?_ ?_
  · intro id hid
    simp only [seen_cons, seen_nil, or_false]
    exact ⟨fun h => hanswers id h hid, fun h => (hhands id h).1 hid⟩
  · intro id hid
    simp only [seen_cons, seen_nil, or_false]
    exact fun h => (hhands id h).2.1 hid
  · intro id hid
    simp only [seen_cons, seen_nil, or_false]
    exact ⟨fun h => (hhands id h).2.2 hid, fun h => hfires id h hid⟩

/-- One turn of the event loop. The runtime's choices ride along: how the channel takes
a listen request, how a promise settles, which deferred flush runs. -/
inductive ServerAction (Channel Arg Data : Type)
  | request (request : RawRequest Arg) (listen : ListenOutcome Data)
  | cancel (id : Nat)
  | registerChannel (channelName : String) (channel : Channel)
  | timeout (timer : Nat)
  | flush (index : Nat) (listen : Nat → ListenOutcome Data)
  | settle (handle : Nat) (settlement : Settlement Data)
  | settled (handle : Nat)
  | fire (handle : Nat) (data : Data)

def ServerAction.requestId : ServerAction Channel Arg Data → Option Nat
  | .request r _ => some r.id
  | _ => none

/-- A server and everything that happened so far, oldest first. -/
structure ServerRun (Channel Arg Data : Type) where
  server : ChannelServer Channel Arg
  history : List (Occurrence Channel Arg Data)

namespace ServerRun

def new (timeoutDelay : Nat) : ServerRun Channel Arg Data :=
  ⟨.new timeoutDelay, [.sent .Initialize]⟩

def step (run : ServerRun Channel Arg Data) :
    ServerAction Channel Arg Data → ServerRun Channel Arg Data
  | .request request listen =>
    let outcome := run.server.onRequest request listen
    ⟨outcome.server, run.history ++ .received request :: outcome.occurrences⟩
  | .cancel id => ⟨run.server.disposeActiveRequest id, run.history ++ [.ended id]⟩
  | .registerChannel channelName channel =>
    ⟨run.server.registerChannel channelName channel, run.history⟩
  | .timeout timer =>
    let outcome := run.server.timeout timer
    ⟨outcome.server, run.history ++ outcome.occurrences⟩
  | .flush index listen =>
    match run.server.flushes[index]? with
    | none => run
    | some channelName =>
      let outcome := { run.server with flushes := run.server.flushes.eraseIdx index
        }.flushPendingRequests channelName listen
      ⟨outcome.server, run.history ++ outcome.occurrences⟩
  | .settle handle settlement =>
    let outcome := run.server.settle handle settlement
    ⟨outcome.server, run.history ++ outcome.occurrences⟩
  | .settled handle => ⟨run.server.settled handle, run.history⟩
  | .fire handle data => ⟨run.server, run.history ++ run.server.fire handle data⟩

def after (run : ServerRun Channel Arg Data) (actions : List (ServerAction Channel Arg Data)) :
    ServerRun Channel Arg Data :=
  actions.foldl step run

end ServerRun

end CodeOss.Ipc

/-! What the tables of a channel server say about its history, in every run: how a
request is handed over, and what the state of its timer tells. -/

namespace CodeOss.Ipc

variable {Channel Arg Data : Type}

open Occurrence

variable {server : ChannelServer Channel Arg} {request : RawRequest Arg}

variable (listen : ListenOutcome Data)

theorem ChannelServer.onRequest_cases {channel : Channel}
    (h : server.channels.get request.channelName = some channel) :
    (request.type = .Promise ∧ server.onRequest request listen = ⟨server.addCall request.id,
    [.handed channel request], false⟩) ∨ (request.type = .EventListen ∧ listen =
    .throws ∧ server.onRequest request listen = ⟨server, [.handed channel request], true⟩) ∨
    (request.type = .EventListen ∧ ∃ immediate, listen = .listens immediate ∧
    server.onRequest request listen = ⟨server.addSubscription request.id, .handed
    channel request :: immediate.map fun data => .sent (.EventFire request.id data), false⟩) := by
  cases htype : request.type with
  | Promise => exact .inl ⟨rfl, by simp [onRequest, htype, onPromise, h]⟩
  | EventListen =>
    cases listen with
    | throws => exact .inr (.inl ⟨rfl, rfl, by simp [onRequest, htype, onEventListen, h]⟩)
    | listens immediate =>
      exact .inr (.inr ⟨rfl, immediate, rfl, by simp [onRequest, htype, onEventListen, h]⟩)

theorem ChannelServer.onRequest_unregistered (h : server.channels.get request.channelName = none) :
    server.onRequest request listen = ⟨server.collectPendingRequest request, [], false⟩ := by
  cases htype : request.type <;> simp [onRequest, htype, onPromise, onEventListen, h]

theorem ChannelServer.onRequest_channels (server : ChannelServer Channel Arg)
    (request : RawRequest Arg) (listen : ListenOutcome Data) :
    (server.onRequest request listen).server.channels = server.channels := by
  cases hchannel : server.channels.get request.channelName with
  | none => rw [onRequest_unregistered listen hchannel, collectPendingRequest]
  | some channel =>
    rcases onRequest_cases listen hchannel with ⟨-, he⟩ | ⟨-, -, he⟩ | ⟨-, immediate, -, he⟩
    all_goals rw [he]
    · rfl
    · rfl

variable {kind : Occurrence Channel Arg Data → Option Nat}

/-- A handed request lets out a handing over and events only. -/
theorem ChannelServer.onRequest_unseen
    (hhanded : ∀ channel request, kind (.handed channel request) = none)
    (hevent : ∀ id data, kind (.sent (.EventFire id data)) = none)
    (server : ChannelServer Channel Arg) (request : RawRequest Arg) (listen : ListenOutcome Data)
    (id : Nat) : ¬ Seen kind (server.onRequest request listen).occurrences id := by
  cases hchannel : server.channels.get request.channelName with
  | none =>
    rw [onRequest_unregistered listen hchannel]
    exact seen_nil id
  | some channel =>
    rcases onRequest_cases listen hchannel with ⟨-, he⟩ | ⟨-, -, he⟩ | ⟨-, immediate, -, he⟩
    all_goals
      rw [he]
      simp only [seen_cons, seen_nil, hhanded, reduceCtorEq, false_or, not_false_eq_true]
    exact seen_events _ _ (hevent request.id) id

theorem ChannelServer.flushLoop_unseen
    (hhanded : ∀ channel request, kind (.handed channel request) = none)
    (hevent : ∀ id data, kind (.sent (.EventFire id data)) = none)
    (listen : Nat → ListenOutcome Data) (requests : List (PendingRequest Arg))
    (server : ChannelServer Channel Arg) (id : Nat) :
    ¬ Seen kind (server.flushLoop listen requests).occurrences id := by
  induction requests generalizing server with
  | nil => exact seen_nil id
  | cons p rest ih =>
    have hfirst := onRequest_unseen hhanded hevent (server.clearTimeout p.timeoutTimer) p.request
      (listen p.request.id) id
    rw [flushLoop]
    dsimp only
    split
    · exact hfirst
    · rw [seen_append]
      exact not_or.2 ⟨hfirst, ih _⟩

theorem ChannelServer.flushPendingRequests_occurrences
    (server : ChannelServer Channel Arg) {channelName : String}
    {requests : List (PendingRequest Arg)} (listen : Nat → ListenOutcome Data)
    (hget : server.pendingRequests.get channelName = some requests) : (server.flushPendingRequests
    channelName listen).occurrences = (server.flushLoop listen requests).occurrences := by
  rw [flushPendingRequests, hget]
  dsimp only
  split <;> rfl

theorem ChannelServer.clearTimeout_onRequest {p : PendingRequest Arg} {state : TimerState}
    {channel : Channel}
    (htimer : server.timers p.timeoutTimer = some (state, p.request))
    (hchannel : server.channels.get p.request.channelName = some channel) :
    let outcome := (server.clearTimeout p.timeoutTimer).onRequest p.request listen
    outcome.server.timers =
        Function.update server.timers p.timeoutTimer (some (.cleared, p.request)) ∧
      outcome.server.pendingRequests = server.pendingRequests ∧
      server.nextHandle ≤ outcome.server.nextHandle ∧
      outcome.server.flushes = server.flushes ∧
      outcome.server.channels = server.channels ∧
      Seen hands outcome.occurrences p.request.id := by
  intro outcome
  have hclear : (server.clearTimeout p.timeoutTimer).timers =
      Function.update server.timers p.timeoutTimer (some (.cleared, p.request)) := by
    rw [clearTimeout, htimer, Option.map_some]
  have hchannel' : (server.clearTimeout p.timeoutTimer).channels.get p.request.channelName =
      some channel := hchannel
  rcases onRequest_cases listen hchannel' with ⟨-, he⟩ | ⟨-, -, he⟩ | ⟨-, _, -, he⟩
  all_goals
    simp only [outcome, he, seen_cons, Occurrence.hands, true_or, and_true]
  · exact ⟨hclear, rfl, Nat.le_succ _, rfl, rfl⟩
  · exact ⟨hclear, rfl, le_rfl, rfl, rfl⟩
  · exact ⟨hclear, rfl, Nat.le_succ _, rfl, rfl⟩

theorem update_keeps_request {timers : Nat → Option (TimerState × RawRequest Arg)} {timer t : Nat}
    {state : TimerState} {r : RawRequest Arg} (htimer : timers timer = some (state, request))
    (next : TimerState) (ht : ∃ state, timers t = some (state, r)) :
    ∃ state, Function.update timers timer (some (next, request)) t = some (state, r) := by
  obtain ⟨state', hstate'⟩ := ht
  rw [Function.update_apply]
  split
  · next he =>
      rw [he, htimer] at hstate'
      obtain ⟨-, rfl⟩ := Prod.mk.inj (Option.some.inj hstate')
      exact ⟨next, rfl⟩
  · exact ⟨state', hstate'⟩

/-- What the tables say about the history, whatever the order of steps. -/
structure Tracked (run : ServerRun Channel Arg Data) : Prop where
  expired : ∀ timer request, run.server.timers timer = some (.expired, request) →
    request.type = .Promise → Seen answers run.history request.id
  cleared : ∀ timer request, run.server.timers timer = some (.cleared, request) →
    Seen hands run.history request.id
  pending : ∀ channelName requests, run.server.pendingRequests.get channelName = some requests →
    ∀ p ∈ requests, p.request.channelName = channelName ∧
      ∃ state, run.server.timers p.timeoutTimer = some (state, p.request)
  fresh : ∀ timer, run.server.nextHandle ≤ timer → run.server.timers timer = none
  flushes : ∀ channelName ∈ run.server.flushes, run.server.channels.has channelName = true

namespace Tracked

variable {run : ServerRun Channel Arg Data}

section

variable (h : Tracked run)
include h

theorem lengthen (later : List (Occurrence Channel Arg Data)) :
    Tracked ⟨run.server, run.history ++ later⟩ where
  expired timer request htimer htype :=
    (seen_append _ _ _).2 (.inl (h.expired timer request htimer htype))
  cleared timer request htimer := (seen_append _ _ _).2 (.inl (h.cleared timer request htimer))
  pending := h.pending
  fresh := h.fresh
  flushes := h.flushes

theorem same {server : ChannelServer Channel Arg} (htimers : server.timers = run.server.timers)
    (hpending : server.pendingRequests = run.server.pendingRequests)
    (hhandle : run.server.nextHandle ≤ server.nextHandle)
    (hflushes : ∀ channelName ∈ server.flushes, server.channels.has channelName = true) :
    Tracked ⟨server, run.history⟩ where
  expired timer request htimer := h.expired timer request (htimers ▸ htimer)
  cleared timer request htimer := h.cleared timer request (htimers ▸ htimer)
  pending channelName requests hget p hp := by
    rw [htimers]
    exact h.pending channelName requests (hpending ▸ hget) p hp
  fresh timer ht := htimers ▸ h.fresh timer (hhandle.trans ht)
  flushes := hflushes

theorem collect (request : RawRequest Arg) :
    Tracked ⟨run.server.collectPendingRequest request, run.history⟩ := by
  have hnone := h.fresh _ le_rfl
  constructor
  · intro timer r htimer
    simp only [ChannelServer.collectPendingRequest, Function.update_apply] at htimer
    split at htimer
    · cases htimer
    · exact h.expired timer r htimer
  · intro timer r htimer
    simp only [ChannelServer.collectPendingRequest, Function.update_apply] at htimer
    split at htimer
    · cases htimer
    · exact h.cleared timer r htimer
  · intro channelName requests hget p hp
    simp only [ChannelServer.collectPendingRequest, JsMap.get_set] at hget ⊢
    have hold : ∀ requests', run.server.pendingRequests.get channelName = some requests' →
        p ∈ requests' → p.request.channelName = channelName ∧ ∃ state,
          Function.update run.server.timers run.server.nextHandle (some (.running, request))
            p.timeoutTimer = some (state, p.request) := by
      intro requests' hget' hp'
      obtain ⟨hname, state, hstate⟩ := h.pending channelName requests' hget' p hp'
      have hne : p.timeoutTimer ≠ run.server.nextHandle := fun he => by
        rw [he, hnone] at hstate
        cases hstate
      exact ⟨hname, state, by rw [Function.update_of_ne hne, hstate]⟩
    split at hget
    · next hname =>
        obtain rfl := Option.some.inj hget
        rcases List.mem_append.1 hp with hp | hp
        · cases hget' : run.server.pendingRequests.get request.channelName with
          | none => simp [hget'] at hp
          | some requests' =>
            rw [hget', Option.getD_some] at hp
            exact hold requests' (hname ▸ hget') hp
        · obtain rfl := mem_singleton.1 hp
          exact ⟨hname.symm, .running, Function.update_self _ _ _⟩
    · exact hold requests hget hp
  · intro timer htimer
    simp only [ChannelServer.collectPendingRequest] at htimer ⊢
    rw [Function.update_of_ne (by omega)]
    exact h.fresh timer (by omega)
  · exact h.flushes

theorem hand {request : RawRequest Arg} {channel : Channel} (listen : ListenOutcome Data)
    (hchannel : run.server.channels.get request.channelName = some channel) :
    Tracked ⟨(run.server.onRequest request listen).server,
      run.history ++ (run.server.onRequest request listen).occurrences⟩ := by
  rcases ChannelServer.onRequest_cases listen hchannel with ⟨-, he⟩ | ⟨-, -, he⟩ | ⟨-, _, -, he⟩
  all_goals rw [he]
  · exact (h.lengthen _).same rfl rfl (Nat.le_succ _) h.flushes
  · exact h.lengthen _
  · exact (h.lengthen _).same rfl rfl (Nat.le_succ _) h.flushes

theorem clear_hand {p : PendingRequest Arg} {state : TimerState}
    {channel : Channel} (listen : ListenOutcome Data)
    (htimer : run.server.timers p.timeoutTimer = some (state, p.request))
    (hchannel : run.server.channels.get p.request.channelName = some channel) :
    let outcome := (run.server.clearTimeout p.timeoutTimer).onRequest p.request listen
    Tracked ⟨outcome.server, run.history ++ outcome.occurrences⟩ := by
  have hsame := ChannelServer.clearTimeout_onRequest listen htimer hchannel
  dsimp only at hsame ⊢
  generalize (run.server.clearTimeout p.timeoutTimer).onRequest p.request listen = outcome
    at hsame ⊢
  obtain ⟨htimers, hpending, hhandle, hflushes, hchannels, hhands⟩ := hsame
  constructor
  · intro timer request hget htype
    simp only [htimers, Function.update_apply] at hget
    split at hget
    · cases hget
    · exact (seen_append _ _ _).2 (.inl (h.expired timer request hget htype))
  · intro timer request hget
    simp only [htimers, Function.update_apply] at hget
    split at hget
    · cases hget
      exact (seen_append _ _ _).2 (.inr hhands)
    · exact (seen_append _ _ _).2 (.inl (h.cleared timer request hget))
  · intro channelName requests hget q hq
    obtain ⟨hname, hstate⟩ := h.pending channelName requests (hpending ▸ hget) q hq
    simp only [htimers]
    exact ⟨hname, update_keeps_request htimer .cleared hstate⟩
  · intro timer ht
    have hle : run.server.nextHandle ≤ timer := hhandle.trans ht
    have hne : timer ≠ p.timeoutTimer := fun he => by
      rw [← he, h.fresh timer hle] at htimer
      cases htimer
    simp only [htimers, Function.update_of_ne hne]
    exact h.fresh timer hle
  · simp only [hflushes, hchannels]
    exact h.flushes

theorem flushLoop (listen : Nat → ListenOutcome Data) (requests : List (PendingRequest Arg))
    (htimers : ∀ p ∈ requests, ∃ state, run.server.timers p.timeoutTimer = some (state, p.request))
    (hchannels : ∀ p ∈ requests,
      ∃ channel, run.server.channels.get p.request.channelName = some channel) :
    let outcome := run.server.flushLoop listen requests
    Tracked ⟨outcome.server, run.history ++ outcome.occurrences⟩ := by
  induction requests generalizing run with
  | nil => exact h.lengthen []
  | cons p rest ih =>
    obtain ⟨state, htimer⟩ := htimers p mem_cons_self
    obtain ⟨channel, hchannel⟩ := hchannels p mem_cons_self
    have hfirst := h.clear_hand (listen p.request.id) htimer hchannel
    obtain ⟨htimers', -, -, -, hchannels', -⟩ :=
      ChannelServer.clearTimeout_onRequest (listen p.request.id) htimer hchannel
    simp only [ChannelServer.flushLoop]
    split
    · exact hfirst
    · rw [← append_assoc]
      refine ih hfirst ?_ ?_
      · intro q hq
        simp only [htimers']
        exact update_keeps_request htimer .cleared (htimers q (mem_cons_of_mem _ hq))
      · intro q hq
        simp only [hchannels']
        exact hchannels q (mem_cons_of_mem _ hq)

theorem deletePending (channelName : String) :
    Tracked ⟨{ run.server with
      pendingRequests := run.server.pendingRequests.delete channelName }, run.history⟩ where
  expired := h.expired
  cleared := h.cleared
  pending name requests hget := by
    rw [JsMap.get_delete] at hget
    split at hget
    · cases hget
    · exact h.pending name requests hget
  fresh := h.fresh
  flushes := h.flushes

theorem flushPendingRequests {channelName : String} (listen : Nat → ListenOutcome Data)
    (hchannel : run.server.channels.has channelName = true) :
    let outcome := run.server.flushPendingRequests channelName listen
    Tracked ⟨outcome.server, run.history ++ outcome.occurrences⟩ := by
  simp only [ChannelServer.flushPendingRequests]
  split
  · exact h.lengthen []
  · next requests hget =>
      obtain ⟨channel, hget'⟩ := JsMap.has_eq_true.1 hchannel
      have hloop := h.flushLoop listen requests
        (fun p hp => (h.pending channelName requests hget p hp).2)
        (fun p hp => ⟨channel, by rw [(h.pending channelName requests hget p hp).1, hget']⟩)
      split
      · exact hloop
      · exact hloop.deletePending channelName

end

theorem new (timeoutDelay : Nat) :
    Tracked (ServerRun.new timeoutDelay : ServerRun Channel Arg Data) where
  expired _ _ h := absurd h (by simp [ServerRun.new, ChannelServer.new])
  cleared _ _ h := absurd h (by simp [ServerRun.new, ChannelServer.new])
  pending _ _ h := absurd h (by simp [ServerRun.new, ChannelServer.new])
  fresh _ _ := rfl
  flushes _ h := absurd h (by simp [ServerRun.new, ChannelServer.new])

theorem step (h : Tracked run) (action : ServerAction Channel Arg Data) :
    Tracked (run.step action) := by
  cases action with
  | request request listen =>
    have hreceived := h.lengthen [.received request]
    simp only [ServerRun.step]
    rw [← singleton_append, ← append_assoc]
    cases hchannel : run.server.channels.get request.channelName with
    | none =>
      rw [ChannelServer.onRequest_unregistered listen hchannel, append_nil]
      exact hreceived.collect request
    | some channel => exact hreceived.hand listen hchannel
  | cancel id =>
    refine (h.lengthen [.ended id]).same ?_ ?_ ?_ ?_
    all_goals
      simp only [ChannelServer.disposeActiveRequest]
      split
      · first | rfl | exact le_rfl | exact h.flushes
      · next disposable _ =>
          cases disposable <;> first | rfl | exact le_rfl | exact h.flushes
  | registerChannel channelName channel =>
    refine h.same rfl rfl le_rfl ?_
    intro name hname
    simp only [ChannelServer.registerChannel, JsMap.has_set, Bool.or_eq_true,
      decide_eq_true_iff] at hname ⊢
    rcases List.mem_append.1 hname with hname | hname
    · exact .inr (h.flushes name hname)
    · exact .inl (mem_singleton.1 hname)
  | timeout timer =>
    simp only [ServerRun.step, ChannelServer.timeout]
    split
    · next request htimer =>
        refine ⟨?_, ?_, ?_, ?_, h.flushes⟩
        · intro t r hget htype
          simp only [Function.update_apply] at hget
          split at hget
          · obtain ⟨-, rfl⟩ := Prod.mk.inj (Option.some.inj hget)
            simp [htype, Occurrence.answers, RawResponse.answers]
          · exact (seen_append _ _ _).2 (.inl (h.expired t r hget htype))
        · intro t r hget
          simp only [Function.update_apply] at hget
          split at hget
          · cases hget
          · exact (seen_append _ _ _).2 (.inl (h.cleared t r hget))
        · intro channelName requests hget p hp
          obtain ⟨hname, hstate⟩ := h.pending channelName requests hget p hp
          exact ⟨hname, update_keeps_request htimer .expired hstate⟩
        · intro t ht
          have hne : t ≠ timer := fun he => by
            rw [← he, h.fresh t ht] at htimer
            cases htimer
          simp only [Function.update_of_ne hne]
          exact h.fresh t ht
    · exact h.lengthen []
  | flush index listen =>
    simp only [ServerRun.step]
    split
    · exact h
    · next channelName hindex =>
        have hmem : channelName ∈ run.server.flushes := mem_of_getElem? hindex
        have hrest : Tracked ⟨{ run.server with flushes := run.server.flushes.eraseIdx index },
            run.history⟩ :=
          h.same rfl rfl le_rfl fun name hname => h.flushes name (mem_of_mem_eraseIdx hname)
        exact hrest.flushPendingRequests listen (h.flushes channelName hmem)
  | settle handle settlement =>
    simp only [ServerRun.step, ChannelServer.settle]
    split
    · exact (h.lengthen _).same rfl rfl le_rfl h.flushes
    · exact h.lengthen []
  | settled handle =>
    simp only [ServerRun.step, ChannelServer.settled]
    split
    · exact h.same rfl rfl le_rfl h.flushes
    · exact h
  | fire handle data => exact h.lengthen _

end Tracked

end CodeOss.Ipc
