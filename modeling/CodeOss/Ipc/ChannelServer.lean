import CodeOss.Base.JsMap

/-! The server side of the channel protocol, with the run-time it leans on: timers,
deferred flushes, promises a channel has not settled yet and event subscriptions.
Every step says what it let the outside see, in order. -/

namespace CodeOss.Ipc

variable {Channel Arg Data : Type}

inductive RequestType
  | Promise
  | EventListen
  deriving DecidableEq

structure RawRequest (Arg : Type) where
  type : RequestType
  id : Nat
  channelName : String
  name : String
  arg : Arg
  deriving DecidableEq

structure ErrorData where
  name : String
  message : String
  stack : Option (List String)
  deriving DecidableEq

inductive RawResponse (Data : Type)
  | Initialize
  | PromiseSuccess (id : Nat) (data : Data)
  | PromiseError (id : Nat) (data : ErrorData)
  | PromiseErrorObj (id : Nat) (data : Data)
  | EventFire (id : Nat) (data : Data)
  deriving DecidableEq

def RawResponse.answers : RawResponse Data → Option Nat
  | .PromiseSuccess id _ | .PromiseError id _ | .PromiseErrorObj id _ => some id
  | .Initialize | .EventFire _ _ => none

/-- What passes between the server and its surroundings. `handed` is `channel.call` or
`channel.listen`, `ended` an incoming `PromiseCancel` or `EventDispose`. -/
inductive Occurrence (Channel Arg Data : Type)
  | received (request : RawRequest Arg)
  | ended (id : Nat)
  | handed (channel : Channel) (request : RawRequest Arg)
  | sent (response : RawResponse Data)
  deriving DecidableEq

inductive TimerState
  | running
  | expired
  | cleared
  deriving DecidableEq

/-- A promise returned by `channel.call`; `settled` until its `finally` has run. -/
inductive CallStage
  | running
  | settled
  deriving DecidableEq

structure Call where
  requestId : Nat
  stage : CallStage
  tokenCancelled : Bool

structure Subscription where
  requestId : Nat
  live : Bool

/-- The `IDisposable`s kept in `activeRequests`. -/
inductive Disposable
  | call (handle : Nat)
  | subscription (handle : Nat)
  deriving DecidableEq

structure PendingRequest (Arg : Type) where
  request : RawRequest Arg
  timeoutTimer : Nat

structure ChannelServer (Channel Arg : Type) where
  channels : JsMap String Channel
  activeRequests : JsMap Nat Disposable
  pendingRequests : JsMap String (List (PendingRequest Arg))
  timeoutDelay : Nat
  timers : Nat → Option (TimerState × RawRequest Arg)
  calls : Nat → Option Call
  subscriptions : Nat → Option Subscription
  flushes : List String
  nextHandle : Nat

/-- How `channel.listen` takes a request: it throws, or the new listener is called with
these values before the call returns. -/
inductive ListenOutcome (Data : Type)
  | throws
  | listens (immediate : List Data)
  deriving DecidableEq

/-- How the promise of `channel.call` ends. -/
inductive Settlement (Data : Type)
  | resolved (data : Data)
  | rejectedError (message name : String) (stack : Option String)
  | rejectedOther (err : Data)
  deriving DecidableEq

def Settlement.response (id : Nat) : Settlement Data → RawResponse Data
  | .resolved data => .PromiseSuccess id data
  | .rejectedError message name stack =>
    .PromiseError id { name, message, stack := stack.bind fun s =>
      if s = "" then none else some (s.splitOn "\n") }
  | .rejectedOther err => .PromiseErrorObj id err

/-- The outcome of a method: the server, what it let out, and whether it threw. -/
structure Outcome (Channel Arg Data : Type) where
  server : ChannelServer Channel Arg
  occurrences : List (Occurrence Channel Arg Data)
  threw : Bool

namespace ChannelServer

def new (timeoutDelay : Nat) : ChannelServer Channel Arg :=
  { channels := .empty, activeRequests := .empty, pendingRequests := .empty, timeoutDelay
    timers := fun _ => none, calls := fun _ => none, subscriptions := fun _ => none
    flushes := [], nextHandle := 0 }

variable (server : ChannelServer Channel Arg)

def registerChannel (channelName : String) (channel : Channel) : ChannelServer Channel Arg :=
  { server with
    channels := server.channels.set channelName channel
    flushes := server.flushes ++ [channelName] }

variable (request : RawRequest Arg)

def collectPendingRequest : ChannelServer Channel Arg :=
  let pendingRequests := (server.pendingRequests.get request.channelName).getD []
  let timer := server.nextHandle
  { server with
    pendingRequests :=
      server.pendingRequests.set request.channelName (pendingRequests ++ [⟨request, timer⟩])
    timers := Function.update server.timers timer (some (.running, request))
    nextHandle := server.nextHandle + 1 }

/-- A promise of `channel.call` and its entry in `activeRequests`. -/
def addCall (id : Nat) : ChannelServer Channel Arg :=
  let call := server.nextHandle
  { server with
    calls := Function.update server.calls call (some ⟨id, .running, false⟩)
    activeRequests := server.activeRequests.set id (.call call)
    nextHandle := server.nextHandle + 1 }

/-- A listener on the event of `channel.listen` and its entry in `activeRequests`. -/
def addSubscription (id : Nat) : ChannelServer Channel Arg :=
  let subscription := server.nextHandle
  { server with
    subscriptions := Function.update server.subscriptions subscription (some ⟨id, true⟩)
    activeRequests := server.activeRequests.set id (.subscription subscription)
    nextHandle := server.nextHandle + 1 }

/-- A channel that throws from `call` counts as a promise that is rejected later. -/
def onPromise : Outcome Channel Arg Data :=
  match server.channels.get request.channelName with
  | none => ⟨server.collectPendingRequest request, [], false⟩
  | some channel => ⟨server.addCall request.id, [.handed channel request], false⟩

def onEventListen (listen : ListenOutcome Data) : Outcome Channel Arg Data :=
  match server.channels.get request.channelName with
  | none => ⟨server.collectPendingRequest request, [], false⟩
  | some channel =>
    match listen with
    | .throws => ⟨server, [.handed channel request], true⟩
    | .listens immediate =>
      ⟨server.addSubscription request.id,
        .handed channel request :: immediate.map fun data => .sent (.EventFire request.id data),
        false⟩

/-- `onPromise` or `onEventListen`, by the type of the request. -/
def onRequest (listen : ListenOutcome Data) : Outcome Channel Arg Data :=
  match request.type with
  | .Promise => server.onPromise request
  | .EventListen => server.onEventListen request listen

def dispose : Disposable → ChannelServer Channel Arg
  | .call handle =>
    { server with
      calls := Function.update server.calls handle
        ((server.calls handle).map fun call => { call with tokenCancelled := true }) }
  | .subscription handle =>
    { server with
      subscriptions := Function.update server.subscriptions handle
        ((server.subscriptions handle).map fun subscription =>
          { subscription with live := false }) }

def disposeActiveRequest (id : Nat) : ChannelServer Channel Arg :=
  match server.activeRequests.get id with
  | none => server
  | some disposable =>
    let disposed := server.dispose disposable
    { disposed with activeRequests := server.activeRequests.delete id }

def clearTimeout (timer : Nat) : ChannelServer Channel Arg :=
  { server with
    timers := Function.update server.timers timer
      ((server.timers timer).map fun entry => (.cleared, entry.2)) }

/-- The loop of `flushPendingRequests`; `listen` says how the channel takes each listen
request, and the first one that throws ends it. -/
def flushLoop (listen : Nat → ListenOutcome Data) (server : ChannelServer Channel Arg) :
    List (PendingRequest Arg) → Outcome Channel Arg Data
  | [] => ⟨server, [], false⟩
  | pending :: rest =>
    let first := (server.clearTimeout pending.timeoutTimer).onRequest pending.request
      (listen pending.request.id)
    if first.threw then first
    else
      let others := flushLoop listen first.server rest
      ⟨others.server, first.occurrences ++ others.occurrences, others.threw⟩

def flushPendingRequests (channelName : String)
    (listen : Nat → ListenOutcome Data) : Outcome Channel Arg Data :=
  match server.pendingRequests.get channelName with
  | none => ⟨server, [], false⟩
  | some requests =>
    let flushed := flushLoop listen server requests
    if flushed.threw then flushed
    else
      { flushed with server := { flushed.server with
          pendingRequests := flushed.server.pendingRequests.delete channelName } }

def timeoutMessage : ErrorData :=
  { name := "Unknown channel"
    message := "Channel name '" ++ request.channelName ++ "' timed out after "
      ++ toString server.timeoutDelay ++ "ms"
    stack := none }

/-- The callback of the timer that `collectPendingRequest` starts. -/
def timeout (timer : Nat) : Outcome Channel Arg Data :=
  match server.timers timer with
  | some (.running, request) =>
    ⟨{ server with timers := Function.update server.timers timer (some (.expired, request)) },
      if request.type = .Promise then
        [.sent (.PromiseError request.id (server.timeoutMessage request))] else [],
      false⟩
  | _ => ⟨server, [], false⟩

/-- The `then` of a promise a channel returned. -/
def settle (handle : Nat) (settlement : Settlement Data) : Outcome Channel Arg Data :=
  match server.calls handle with
  | some ⟨requestId, .running, tokenCancelled⟩ =>
    ⟨{ server with
        calls := Function.update server.calls handle (some ⟨requestId, .settled, tokenCancelled⟩) },
      [.sent (settlement.response requestId)], false⟩
  | _ => ⟨server, [], false⟩

def settled (handle : Nat) : ChannelServer Channel Arg :=
  match server.calls handle with
  | some ⟨requestId, .settled, _⟩ =>
    { server with
      calls := Function.update server.calls handle none
      activeRequests := server.activeRequests.delete requestId }
  | _ => server

/-- An event reaches the listener of a subscription that is not disposed. -/
def fire (handle : Nat) (data : Data) : List (Occurrence Channel Arg Data) :=
  match server.subscriptions handle with
  | some ⟨requestId, true⟩ => [.sent (.EventFire requestId data)]
  | _ => []

end ChannelServer

end CodeOss.Ipc
