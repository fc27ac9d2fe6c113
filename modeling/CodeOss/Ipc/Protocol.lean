import CodeOss.Ipc.ChunkStream
import CodeOss.Library.StreamMachine

/-! Protocol messages on a stream: the writer that groups them into buffers, and the reader that
takes the stream apart again. -/

namespace CodeOss

open Uint8Array

namespace ProtocolMessageType

def None : Nat := 0
def Regular : Nat := 1
def Control : Nat := 2
def Ack : Nat := 3
def Disconnect : Nat := 5
def ReplayRequest : Nat := 6
def Pause : Nat := 7
def Resume : Nat := 8
def KeepAlive : Nat := 9

end ProtocolMessageType

def ProtocolConstants.HeaderLength : Nat := 13

open ProtocolConstants

structure ProtocolMessage where
  type : Nat
  id : Nat
  ack : Nat
  data : Uint8Array
deriving DecidableEq, Repr

namespace ProtocolMessage

/-- The fields of a message have room in its header. -/
structure Fits (msg : ProtocolMessage) : Prop where
  type : msg.type < 2 ^ 8
  id : msg.id < 2 ^ 32
  ack : msg.ack < 2 ^ 32
  size : msg.data.length < 2 ^ 32

variable (msg : ProtocolMessage)

def header : Uint8Array :=
  let header := List.replicate HeaderLength 0
  let header := writeUInt8 header msg.type 0
  let header := writeUInt32BE header msg.id 1
  let header := writeUInt32BE header msg.ack 5
  writeUInt32BE header msg.data.length 9

def encode : Uint8Array := msg.header ++ msg.data

def encodeAll (msgs : List ProtocolMessage) : Uint8Array := msgs.flatMap encode

@[simp] theorem length_header : msg.header.length = HeaderLength := rfl

theorem length_encode : msg.encode.length = HeaderLength + msg.data.length := by
  rw [encode, List.length_append, length_header]

@[simp] theorem encodeAll_nil : encodeAll [] = [] := rfl

@[simp] theorem encodeAll_cons (msgs : List ProtocolMessage) :
    encodeAll (msg :: msgs) = msg.encode ++ encodeAll msgs := rfl

@[simp] theorem encodeAll_append (msgs msgs' : List ProtocolMessage) :
    encodeAll (msgs ++ msgs') = encodeAll msgs ++ encodeAll msgs' := List.flatMap_append

end ProtocolMessage

/-- `written` are the buffers given to the socket so far, `writeNowTimeout` says that the timer
is set. -/
structure ProtocolWriter where
  isDisposed : Bool
  isPaused : Bool
  data : List Uint8Array
  totalLength : Nat
  writeNowTimeout : Bool
  written : List Uint8Array
  total_eq : totalLength = data.flatten.length

namespace ProtocolWriter

theorem total_nil : 0 = ([] : List Uint8Array).flatten.length := rfl

def new : ProtocolWriter := ⟨false, false, [], 0, false, [], total_nil⟩

variable (w : ProtocolWriter)

def bufferTake : Uint8Array × ProtocolWriter :=
  (w.data.flatten, { w with data := [], totalLength := 0, total_eq := total_nil })

def writeNow : ProtocolWriter :=
  if w.totalLength = 0 then w
  else if w.isPaused then w
  else
    let (data, w) := w.bufferTake
    { w with written := w.written ++ [data] }

def timeout : ProtocolWriter :=
  if w.writeNowTimeout then writeNow { w with writeNowTimeout := false } else w

def scheduleWriting : ProtocolWriter := { w with writeNowTimeout := true }

def bufferAdd (head body : Uint8Array) : Bool × ProtocolWriter :=
  (w.totalLength = 0,
    { w with
      data := w.data ++ [head, body], totalLength := w.totalLength + (head.length + body.length)
      total_eq := by simp [w.total_eq] })

def writeSoon (header data : Uint8Array) : ProtocolWriter :=
  let (wasEmpty, w) := w.bufferAdd header data
  if wasEmpty then w.scheduleWriting else w

def write (msg : ProtocolMessage) : ProtocolWriter :=
  if w.isDisposed then w else w.writeSoon msg.header msg.data

def flush : ProtocolWriter := w.writeNow

def pause : ProtocolWriter := { w with isPaused := true }

def resume : ProtocolWriter := scheduleWriting { w with isPaused := false }

def dispose : ProtocolWriter := { w.flush with isDisposed := true }

end ProtocolWriter

/-- What the reader reads next. A header is always of the same length. -/
structure ReadState where
  readHead : Bool
  readLen : Nat
  messageType : Nat
  id : Nat
  ack : Nat
  head_len : readHead = true → readLen = HeaderLength

namespace ReadState

def start : ReadState := ⟨true, HeaderLength, ProtocolMessageType.None, 0, 0, fun _ => rfl⟩

/-- `buff` is the header or the body. The reads of a whole header are never `undefined`. -/
def accept (s : ReadState) (buff : Uint8Array) : ReadState × List ProtocolMessage :=
  if s.readHead then
    (⟨false, (readUInt32BE buff 9).getD 0, (readUInt8 buff 0).getD 0, (readUInt32BE buff 1).getD 0,
      (readUInt32BE buff 5).getD 0, nofun⟩, [])
  else (start, [⟨s.messageType, s.id, s.ack, buff⟩])

def rank (s : ReadState) : Nat := if s.readHead then 0 else 1

theorem rank_accept (s : ReadState) (buff : Uint8Array) :
    (s.accept buff).1.rank < s.rank + 2 * s.readLen := by
  rcases hread : s.readHead with _ | _
  · simp [accept, rank, hread, start]
  · simp [accept, rank, hread, s.head_len hread, HeaderLength]

def machine : StreamMachine UInt8 ReadState ProtocolMessage where
  need := readLen
  used := readLen
  step := accept
  weight := 2
  rank := rank
  used_le _ := le_rfl
  progress := rank_accept

end ReadState

structure ProtocolReader where
  incomingData : ChunkStream
  state : ReadState

namespace ProtocolReader

def new : ProtocolReader := ⟨.empty, .start⟩

/-- The loop of `acceptChunk`, with the messages it fires. -/
def readMessages (r : ProtocolReader) : ProtocolReader × List ProtocolMessage :=
  if r.incomingData.totalLength ≥ r.state.readLen then
    match _h : r.incomingData.read r.state.readLen true with
    | none => (r, [])
    | some (buff, incomingData) =>
      let accepted := r.state.accept buff
      let rest := readMessages ⟨incomingData, accepted.1⟩
      (rest.1, accepted.2 ++ rest.2)
  else (r, [])
termination_by 2 * r.incomingData.totalLength + r.state.rank
decreasing_by
  have hread := ChunkStream.read_decreases _h
  rw [if_pos rfl] at hread
  have hrank := r.state.rank_accept buff
  omega

def acceptChunk (r : ProtocolReader) : Option Uint8Array → ProtocolReader × List ProtocolMessage
  | none => (r, [])
  | some data =>
    if data.length = 0 then (r, [])
    else readMessages { r with incomingData := r.incomingData.acceptChunk data }

def acceptChunks (r : ProtocolReader) : List Uint8Array → ProtocolReader × List ProtocolMessage
  | [] => (r, [])
  | data :: chunks =>
    let first := r.acceptChunk (some data)
    let rest := first.1.acceptChunks chunks
    (rest.1, first.2 ++ rest.2)

theorem readMessages_eq (r : ProtocolReader) :
    r.readMessages.1.state = (ReadState.machine.run r.state r.incomingData.bytes).1 ∧
    r.readMessages.1.incomingData.bytes = (ReadState.machine.run r.state r.incomingData.bytes).2.1 ∧
    r.readMessages.2 = (ReadState.machine.run r.state r.incomingData.bytes).2.2 := by
  have hlen := r.incomingData.length_bytes
  induction r using readMessages.induct with
  | case1 r hge hnone =>
    obtain ⟨s, hs, -⟩ := r.incomingData.read_spec true hge
    exact absurd (hs.symm.trans hnone) (Option.some_ne_none _)
  | case2 r hge buff s hread accepted ih =>
    obtain ⟨t, ht, hbytes⟩ := r.incomingData.read_spec true hge
    have hrun := ReadState.machine.run_step
      (show ReadState.machine.need r.state ≤ r.incomingData.bytes.length from hlen ▸ hge)
    have hread' := hread
    rw [ht, Option.some.injEq, Prod.mk.injEq] at hread'
    obtain ⟨hbuff, hstream⟩ := hread'
    rw [if_pos rfl, hstream] at hbytes
    obtain ⟨hstate, hdata, hfired⟩ := ih s.length_bytes
    have hloop : r.readMessages = ((readMessages ⟨s, accepted.1⟩).1,
        accepted.2 ++ (readMessages ⟨s, accepted.1⟩).2) := by
      rw [readMessages, if_pos hge]
      split
      · next h => exact absurd (hread.symm.trans h) (Option.some_ne_none _)
      · next h =>
        obtain ⟨rfl, rfl⟩ := Prod.mk.inj (Option.some.inj (hread.symm.trans h))
        rfl
    simp only [hbytes] at hstate hdata hfired
    rw [hloop, hrun, hstate, hdata, hfired]
    simp only [accepted, ← hbuff]
    exact ⟨rfl, rfl, rfl⟩
  | case3 r hlt =>
    rw [readMessages, if_neg hlt]
    rw [ReadState.machine.run_wait]
    · exact ⟨rfl, rfl, rfl⟩
    · rw [hlen]
      exact not_le.1 hlt

end ProtocolReader

end CodeOss
