import CodeOss.Ipc.ChunkStream
import CodeOss.Library.StreamMachine

/-! A socket that speaks WebSocket frames, without the deflate extension. -/

namespace CodeOss

open Uint8Array

namespace WebSocketConstants

def MinHeaderByteSize : Nat := 2
def MaxWebSocketMessageLength : Nat := 256 * 1024

end WebSocketConstants

open WebSocketConstants

/-- `a ^ b`, a signed number of 32 bits. -/
def bitXor (a b : Nat) : Int := (BitVec.ofNat 32 a ^^^ BitVec.ofNat 32 b).toInt

def unmask (buffer : Uint8Array) (mask : Nat) : Uint8Array :=
  if mask = 0 then buffer
  else
    let cnt := buffer.length / 4
    let buffer := (List.range cnt).foldl (fun buffer i =>
      let v := (readUInt32BE buffer (i * 4)).getD 0
      writeUInt32BE buffer (bitXor v mask) (i * 4)) buffer
    let offset := cnt * 4
    let bytesLeft := buffer.length - offset
    let m3 := mask >>> 24 &&& 255
    let m2 := mask >>> 16 &&& 255
    let m1 := mask >>> 8 &&& 255
    let buffer := if bytesLeft ≥ 1 then
      writeUInt8 buffer (bitXor ((readUInt8 buffer offset).getD 0) m3) offset else buffer
    let buffer := if bytesLeft ≥ 2 then
      writeUInt8 buffer (bitXor ((readUInt8 buffer (offset + 1)).getD 0) m2) (offset + 1) else buffer
    if bytesLeft ≥ 3 then
      writeUInt8 buffer (bitXor ((readUInt8 buffer (offset + 2)).getD 0) m1) (offset + 2) else buffer

structure FrameOptions where
  compressed : Bool
  opcode : Nat
deriving DecidableEq, Repr

structure FrameInfo where
  data : Uint8Array
  isCompressed : Bool
  isLastFrameOfMessage : Bool
deriving DecidableEq, Repr

inductive FlowCall
  | acceptFrame (frameInfo : FrameInfo)
  | writeMessage (data : Uint8Array) (options : FrameOptions)
deriving DecidableEq, Repr

inductive WebSocketPhase
  | PeekHeader
  | ReadHeader
  | ReadBody
deriving DecidableEq, Repr

/-- A header has two bytes at least. -/
structure WebSocketState where
  state : WebSocketPhase
  readLen : Nat
  fin : Nat
  compressed : Bool
  firstFrameOfMessage : Bool
  mask : Nat
  opcode : Nat
  header_le : state = .ReadHeader → MinHeaderByteSize ≤ readLen

namespace WebSocketState

def start : WebSocketState := ⟨.PeekHeader, MinHeaderByteSize, 0, false, true, 0, 0, nofun⟩

def byteAt (header : Uint8Array) (offset : Nat) : Nat := (readUInt8 header offset).getD 0

variable (s : WebSocketState)

def peekHeader (peeked : Uint8Array) : WebSocketState :=
  let firstByte := byteAt peeked 0
  let finBit := (firstByte &&& 0b10000000) >>> 7
  let rsv1Bit := (firstByte &&& 0b01000000) >>> 6
  let opcode := firstByte &&& 0b00001111
  let secondByte := byteAt peeked 1
  let hasMask := (secondByte &&& 0b10000000) >>> 7
  let len := secondByte &&& 0b01111111
  { state := .ReadHeader
    readLen := MinHeaderByteSize + (if hasMask ≠ 0 then 4 else 0) + (if len = 126 then 2 else 0) +
      (if len = 127 then 8 else 0)
    fin := finBit
    -- The RSV1 bit is set only for the first frame of a message.
    compressed := if s.firstFrameOfMessage then rsv1Bit ≠ 0 else s.compressed
    firstFrameOfMessage := finBit ≠ 0
    mask := 0
    opcode := opcode
    header_le := fun _ => by omega }

def readHeader (header : Uint8Array) : WebSocketState :=
  let secondByte := byteAt header 1
  let hasMask := (secondByte &&& 0b10000000) >>> 7
  let len := secondByte &&& 0b01111111
  let offset := if len = 126 then 3 else if len = 127 then 9 else 1
  let len :=
    if len = 126 then byteAt header 2 * 2 ^ 8 + byteAt header 3
    else if len = 127 then
      byteAt header 2 * 0 + byteAt header 3 * 0 + byteAt header 4 * 0 + byteAt header 5 * 0 +
        byteAt header 6 * 2 ^ 24 + byteAt header 7 * 2 ^ 16 + byteAt header 8 * 2 ^ 8 +
        byteAt header 9
    else len
  let mask :=
    if hasMask ≠ 0 then
      byteAt header (offset + 1) * 2 ^ 24 + byteAt header (offset + 2) * 2 ^ 16 +
        byteAt header (offset + 3) * 2 ^ 8 + byteAt header (offset + 4)
    else 0
  { s with state := .ReadBody, readLen := len, mask := mask, header_le := nofun }

def readBody (body : Uint8Array) : WebSocketState × List FlowCall :=
  let body := unmask body s.mask
  let calls :=
    -- A continuation, a text or a binary frame.
    if s.opcode ≤ 0x02 then [.acceptFrame ⟨body, s.compressed, s.fin ≠ 0⟩]
    -- A ping, answered by a pong.
    else if s.opcode = 0x09 then [.writeMessage body ⟨false, 0x0A⟩]
    else []
  ({ s with state := .PeekHeader, readLen := MinHeaderByteSize, mask := 0, header_le := nofun },
    calls)

/-- One round of the loop of `_acceptChunk` with the bytes it reads. -/
def accept (buff : Uint8Array) : WebSocketState × List FlowCall :=
  match s.state with
  | .PeekHeader => (s.peekHeader buff, [])
  | .ReadHeader => (s.readHeader buff, [])
  | .ReadBody => s.readBody buff

/-- The header is only looked at first. -/
def used : Nat := if s.state = .PeekHeader then 0 else s.readLen

def rank : Nat :=
  match s.state with
  | .ReadHeader => 0
  | .PeekHeader => 1
  | .ReadBody => 2

theorem rank_accept (buff : Uint8Array) : (s.accept buff).1.rank < s.rank + 3 * s.used := by
  have hheader := s.header_le
  rcases hstate : s.state with _ | _ | _
  · simp [accept, rank, used, hstate, peekHeader]
  · have := hheader hstate
    simp only [MinHeaderByteSize] at this
    simp only [accept, rank, used, hstate, readHeader, reduceCtorEq, if_false]
    omega
  · simp [accept, rank, hstate, readBody]
    omega

def machine : StreamMachine UInt8 WebSocketState FlowCall where
  need := readLen
  used := used
  step := accept
  weight := 3
  rank := rank
  used_le s := by
    unfold used
    split_ifs <;> omega
  progress := rank_accept

end WebSocketState

structure WebSocketFlowManager where
  writeQueue : List (Uint8Array × FrameOptions)
  readQueue : List FrameInfo

/-- `written` are the buffers the underlying socket was given, `accepted` the frames of
`acceptFrame`, and `fired` the buffers of `onData`. -/
structure WebSocketNodeSocket where
  incomingData : ChunkStream
  state : WebSocketState
  flowManager : WebSocketFlowManager
  enableMessageSplitting : Bool
  isEnded : Bool
  written : List Uint8Array
  accepted : List FrameInfo
  fired : List Uint8Array

namespace WebSocketNodeSocket

def new (enableMessageSplitting : Bool) : WebSocketNodeSocket :=
  ⟨.empty, .start, ⟨[], []⟩, enableMessageSplitting, false, [], [], []⟩

def frameHeader (byteLength : Nat) (options : FrameOptions) : Uint8Array :=
  let compressedFlag := if options.compressed then 0b01000000 else 0
  let opcodeFlag := options.opcode &&& 0b00001111
  let byte (shift : Nat) : UInt8 := toUint8 ((byteLength % 2 ^ 32) >>> shift &&& 0b11111111 : Nat)
  toUint8 (0b10000000 ||| compressedFlag ||| opcodeFlag : Nat) ::
    if byteLength < 126 then [toUint8 byteLength]
    else if byteLength < 2 ^ 16 then [126, byte 8, byte 0]
    else [127, 0, 0, 0, 0, byte 24, byte 16, byte 8, byte 0]

variable (s : WebSocketNodeSocket)

def writeFrame (buffer : Uint8Array) (options : FrameOptions) : WebSocketNodeSocket :=
  -- A write after the end is an error.
  if s.isEnded then s
  else { s with written := s.written ++ [frameHeader buffer.length options ++ buffer] }

/-- Without a deflate stream every message is written as it is. -/
def processWriteQueue : WebSocketNodeSocket :=
  let s' := { s with flowManager := { s.flowManager with writeQueue := [] } }
  s.flowManager.writeQueue.foldl (fun s' (data, options) =>
    s'.writeFrame data { options with compressed := false }) s'

def writeMessage (data : Uint8Array) (options : FrameOptions) : WebSocketNodeSocket :=
  let writeQueue := s.flowManager.writeQueue ++ [(data, options)]
  processWriteQueue { s with flowManager := { s.flowManager with writeQueue } }

/-- Without an inflate stream every frame is fired as it is. -/
def processReadQueue : WebSocketNodeSocket :=
  { s with
    flowManager := { s.flowManager with readQueue := [] }
    fired := s.fired ++ s.flowManager.readQueue.map FrameInfo.data }

def acceptFrame (frameInfo : FrameInfo) : WebSocketNodeSocket :=
  let readQueue := s.flowManager.readQueue ++ [frameInfo]
  processReadQueue
    { s with
      flowManager := { s.flowManager with readQueue }
      accepted := s.accepted ++ [frameInfo] }

def perform : FlowCall → WebSocketNodeSocket
  | .acceptFrame frameInfo => s.acceptFrame frameInfo
  | .writeMessage data options => s.writeMessage data options

def performAll (calls : List FlowCall) : WebSocketNodeSocket :=
  calls.foldl perform s

/-- `s` reads at the same place as `t`. -/
def SameReader (s t : WebSocketNodeSocket) : Prop :=
  s.incomingData = t.incomingData ∧ s.state = t.state

theorem sameReader_writeMessage (data : Uint8Array)
    (options : FrameOptions) : (s.writeMessage data options).SameReader s := by
  have hfold : ∀ (queue : List (Uint8Array × FrameOptions)) (t : WebSocketNodeSocket),
      (queue.foldl (fun s' (data, options) =>
        s'.writeFrame data { options with compressed := false }) t).SameReader t := by
    intro queue
    induction queue with
    | nil => exact fun t => ⟨rfl, rfl⟩
    | cons message queue ih =>
      intro t
      obtain ⟨hdata, hstate⟩ := ih (t.writeFrame message.1 { message.2 with compressed := false })
      refine ⟨hdata.trans ?_, hstate.trans ?_⟩ <;> unfold writeFrame <;> split_ifs <;> rfl
  exact hfold _ _

theorem sameReader_performAll (calls : List FlowCall) : (s.performAll calls).SameReader s := by
  induction calls generalizing s with
  | nil => exact ⟨rfl, rfl⟩
  | cons call calls ih =>
    obtain ⟨hdata, hstate⟩ := ih (s.perform call)
    have hcall : (s.perform call).SameReader s := by
      cases call with
      | acceptFrame frameInfo => exact ⟨rfl, rfl⟩
      | writeMessage data options => exact s.sameReader_writeMessage data options
    exact ⟨hdata.trans hcall.1, hstate.trans hcall.2⟩

/-- The loop of `_acceptChunk`. -/
def readFrames (s : WebSocketNodeSocket) : WebSocketNodeSocket :=
  if s.incomingData.totalLength ≥ s.state.readLen then
    match _h : s.incomingData.read s.state.readLen (s.state.state ≠ .PeekHeader) with
    | none => s
    | some (buff, incomingData) =>
      let accepted := s.state.accept buff
      readFrames ({ s with incomingData, state := accepted.1 }.performAll accepted.2)
  else s
termination_by 3 * s.incomingData.totalLength + s.state.rank
decreasing_by
  have hread := s.incomingData.read_decreases _h
  have hrank := s.state.rank_accept buff
  obtain ⟨hdata, hstate⟩ := sameReader_performAll
    { s with incomingData, state := (s.state.accept buff).1 } (s.state.accept buff).2
  rw [hdata, hstate]
  change 3 * incomingData.totalLength + (s.state.accept buff).1.rank < _
  simp only [WebSocketState.used] at hrank
  split_ifs at hrank with hpeek <;> simp [hpeek] at hread <;> omega

def acceptChunk (data : Uint8Array) : WebSocketNodeSocket :=
  if data.length = 0 then s
  else readFrames { s with incomingData := s.incomingData.acceptChunk data }

def acceptChunks (chunks : List Uint8Array) : WebSocketNodeSocket :=
  chunks.foldl acceptChunk s

/-- The loop of `write`. -/
def writeFrom (s : WebSocketNodeSocket) (buffer : Uint8Array) (start : Nat) : WebSocketNodeSocket :=
  if start < buffer.length then
    if s.enableMessageSplitting then
      let stop := min (start + MaxWebSocketMessageLength) buffer.length
      writeFrom (s.writeMessage ((buffer.drop start).take (stop - start)) ⟨true, 0x02⟩) buffer
        (start + MaxWebSocketMessageLength)
    else
      -- The messages are as long as they come: the next start is `Infinity`.
      s.writeMessage (buffer.drop start) ⟨true, 0x02⟩
  else s
termination_by buffer.length - start
decreasing_by
  simp only [MaxWebSocketMessageLength]
  omega

def write (buffer : Uint8Array) : WebSocketNodeSocket :=
  s.writeFrom buffer 0

def endSocket : WebSocketNodeSocket := { s with isEnded := true }

end WebSocketNodeSocket

end CodeOss
