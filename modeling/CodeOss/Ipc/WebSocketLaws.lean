import CodeOss.Ipc.WebSocketFrames

/-! What a socket makes of a stream of frames, however it is cut into chunks. -/

namespace CodeOss

open Uint8Array WebSocketConstants List

namespace WebSocketState

theorem minHeader_le : WebSocketPhase.PeekHeader = .ReadHeader →
    MinHeaderByteSize ≤ MinHeaderByteSize := fun _ => Nat.le_refl _

def between (fin : Nat) (compressed firstFrameOfMessage : Bool) (opcode : Nat) : WebSocketState :=
  ⟨.PeekHeader, MinHeaderByteSize, fin, compressed, firstFrameOfMessage, 0, opcode, minHeader_le⟩

def flagOf (compressed firstFrameOfMessage : Bool) (f : Frame) : Bool :=
  if firstFrameOfMessage then f.rsv1 else compressed

/-- What the reader asks for at the end of a frame. -/
def callsOf (compressed : Bool) (f : Frame) : List FlowCall :=
  match f.opcode with
  | .continuation | .text | .binary => [.acceptFrame ⟨f.payload, compressed, f.fin⟩]
  | .ping => [.writeMessage f.payload ⟨false, 0x0A⟩]
  | .close | .pong => []

theorem peekHeader_header (fin opcode : Nat) (compressed first : Bool) (f : Frame) :
    (between fin compressed first opcode).peekHeader (f.header.take MinHeaderByteSize) =
      ⟨.ReadHeader, f.header.length, f.fin.toNat, flagOf compressed first f, f.fin, 0,
        f.opcode.code, fun _ => by rw [f.header_length]; omega⟩ := by
  obtain ⟨hfin, hrsv1, hcode⟩ := f.firstByte_bits
  obtain ⟨hmask, hlen⟩ := f.secondByte_bits
  have hfirst : byteAt (f.header.take MinHeaderByteSize) 0 = f.firstByte.toNat := rfl
  have hsecond : byteAt (f.header.take MinHeaderByteSize) 1 = f.secondByte.toNat := rfl
  have hlength := f.header_length
  simp only [peekHeader, hfirst, hsecond, hfin, hrsv1, hcode, hmask, hlen, ← hlength,
    WebSocketState.mk.injEq, flagOf, between, true_and, and_true]
  cases f.fin <;> cases f.rsv1 <;> simp

@[simp] theorem byteAt_zero (x : UInt8) (xs : Uint8Array) : byteAt (x :: xs) 0 = x.toNat := rfl

@[simp] theorem byteAt_succ (x : UInt8) (xs : Uint8Array) (i : Nat) :
    byteAt (x :: xs) (i + 1) = byteAt xs i := by
  simp [byteAt, readUInt8]

theorem byteAt_key {f : Frame} {front : Uint8Array} {offset : Nat}
    (hheader : f.header = front ++ f.keyBytes) (hoffset : offset + 1 = front.length) :
    (if f.key.isSome.toNat ≠ 0 then
      byteAt f.header (offset + 1) * 2 ^ 24 + byteAt f.header (offset + 2) * 2 ^ 16 +
        byteAt f.header (offset + 3) * 2 ^ 8 + byteAt f.header (offset + 4)
    else 0) = f.maskValue := by
  have hbyte : ∀ i, byteAt f.header (offset + 1 + i) = byteAt f.keyBytes i := by
    intro i
    rw [hheader, hoffset, byteAt, readUInt8, getElem?_append_right (Nat.le_add_right _ _),
      Nat.add_sub_cancel_left]
    rfl
  have h0 := hbyte 0
  have h1 := hbyte 1
  have h2 := hbyte 2
  have h3 := hbyte 3
  rw [Nat.add_zero] at h0
  rw [h0, h1, h2, h3]
  unfold Frame.keyBytes Frame.maskValue
  cases f.key <;> simp [MaskingKey.bytes, MaskingKey.value, word]

theorem readHeader_header (s : WebSocketState) (f : Frame) :
    s.readHeader f.header = { s with
      state := .ReadBody, readLen := f.payload.length, mask := f.maskValue, header_le := nofun
    } := by
  obtain ⟨hmask, hlen⟩ := f.secondByte_bits
  have hsecond : byteAt f.header 1 = f.secondByte.toNat := rfl
  have hsize := f.size
  simp only [readHeader, hsecond, hmask, hlen, WebSocketState.mk.injEq, true_and, and_true]
  generalize hn : f.payload.length = n at hsize
  rcases Nat.lt_or_ge n 126 with hshort | hlong
  · have hheader : f.header = [f.firstByte, f.secondByte] ++ f.keyBytes := by
      rw [Frame.header, hn, Frame.extendedLength, if_pos hshort]
      rfl
    have hlength : Frame.shortLength n = n := if_pos hshort
    have h126 : n ≠ 126 := by omega
    have h127 : n ≠ 127 := by omega
    rw [hlength]
    simp only [h126, h127, if_false, true_and]
    exact byteAt_key hheader rfl
  rcases Nat.lt_or_ge n (2 ^ 16) with hmiddle | hhuge
  · have hheader : f.header =
        [f.firstByte, f.secondByte, UInt8.ofNat (n / 2 ^ 8), UInt8.ofNat n] ++ f.keyBytes := by
      rw [Frame.header, hn, Frame.extendedLength, if_neg (by omega), if_pos hmiddle]
      rfl
    have hlength : Frame.shortLength n = 126 := by
      rw [Frame.shortLength, if_neg (by omega), if_pos hmiddle]
    rw [hlength]
    refine ⟨?_, byteAt_key hheader rfl⟩
    rw [hheader]
    simp
    omega
  · have hheader : f.header = ([f.firstByte, f.secondByte, 0, 0, 0, 0] ++ bytes32BE n) ++
        f.keyBytes := by
      rw [Frame.header, hn, Frame.extendedLength, if_neg (by omega), if_neg (by omega)]
      rfl
    have hlength : Frame.shortLength n = 127 := by
      rw [Frame.shortLength, if_neg (by omega), if_neg (by omega)]
    rw [hlength]
    refine ⟨?_, byteAt_key hheader rfl⟩
    have h3 := toNat_toUint8 (shiftRight8 (shiftRight8 (shiftRight8 n)))
    have h2 := toNat_toUint8 (shiftRight8 (shiftRight8 n))
    have h1 := toNat_toUint8 (shiftRight8 n)
    have h0 := toNat_toUint8 n
    rw [hheader]
    simp [bytes32BE]
    simp only [shiftRight8] at *
    omega

theorem readBody_masked (s : WebSocketState) (f : Frame) (hmask : s.mask = f.maskValue)
    (hfin : s.fin = f.fin.toNat) (hopcode : s.opcode = f.opcode.code) : s.readBody f.masked =
    (between s.fin s.compressed s.firstFrameOfMessage s.opcode, callsOf s.compressed f) := by
  have hlast : decide (f.fin.toNat ≠ 0) = f.fin := by cases f.fin <;> rfl
  simp only [readBody, hmask, f.unmask_masked, hfin, hopcode, hlast, between, callsOf]
  cases f.opcode <;> rfl

def atBody (f : Frame) (compressed : Bool) : WebSocketState :=
  ⟨.ReadBody, f.payload.length, f.fin.toNat, compressed, f.fin, f.maskValue, f.opcode.code, nofun⟩

theorem run_masked (f : Frame) (compressed : Bool) (rest : Uint8Array) :
    machine.run (atBody f compressed) (f.masked ++ rest) =
    ((machine.run (between f.fin.toNat compressed f.fin f.opcode.code) rest).1,
    (machine.run (between f.fin.toNat compressed f.fin f.opcode.code) rest).2.1, callsOf compressed
    f ++ (machine.run (between f.fin.toNat compressed f.fin f.opcode.code) rest).2.2) := by
  have hneed : machine.need (atBody f compressed) = f.masked.length := f.length_masked.symm
  have hused : machine.used (atBody f compressed) = f.masked.length := f.length_masked.symm
  have hstep : machine.step (atBody f compressed) f.masked = _ :=
    readBody_masked (atBody f compressed) f rfl rfl rfl
  rw [machine.run_take hneed hused, hstep]
  rfl

theorem run_encode (fin opcode : Nat) (compressed first : Bool) (f : Frame) (rest : Uint8Array) :
    machine.run (between fin compressed first opcode) (f.encode ++ rest) =
      ((machine.run (between f.fin.toNat (flagOf compressed first f) f.fin f.opcode.code) rest).1,
        (machine.run (between f.fin.toNat (flagOf compressed first f) f.fin f.opcode.code)
    rest).2.1,
        callsOf (flagOf compressed first f) f ++ (machine.run
          (between f.fin.toNat (flagOf compressed first f) f.fin f.opcode.code) rest).2.2) := by
  have hlength := f.header_length
  have hpeek : machine.step (between fin compressed first opcode)
      ((f.encode ++ rest).take MinHeaderByteSize) = _ :=
    congrArg (·, []) (peekHeader_header fin opcode compressed first f)
  have hneed : machine.need (between fin compressed first opcode) = MinHeaderByteSize := rfl
  have hused : machine.used (between fin compressed first opcode) = 0 := rfl
  rw [machine.run_step (by rw [hneed, Frame.encode, length_append, length_append]; omega),
    hneed, hused, hpeek, drop_zero, Frame.encode, append_assoc, machine.run_take rfl rfl,
    show machine.step _ f.header = _ from congrArg (·, []) (readHeader_header _ f)]
  exact run_masked f (flagOf compressed first f) rest

def callsOfAll : Bool → Bool → List Frame → List FlowCall
  | _, _, [] => []
  | compressed, first, f :: frames =>
    let flag := flagOf compressed first f
    callsOf flag f ++ callsOfAll flag f.fin frames

theorem run_encodeAll (fin opcode : Nat) (compressed first : Bool) (frames : List Frame) :
    (machine.run (between fin compressed first opcode) (Frame.encodeAll frames)).2 =
      ([], callsOfAll compressed first frames) := by
  induction frames generalizing fin opcode compressed first with
  | nil =>
    have hwait : ([] : Uint8Array).length < machine.need (between fin compressed first opcode) :=
      Nat.zero_lt_two
    rw [Frame.encodeAll, flatMap_nil, machine.run_wait hwait, callsOfAll]
  | cons f frames ih =>
    rw [Frame.encodeAll, flatMap_cons, ← Frame.encodeAll, run_encode, callsOfAll]
    have hlater := ih f.fin.toNat f.opcode.code (flagOf compressed first f) f.fin
    exact Prod.ext (congrArg Prod.fst hlater :)
      (congrArg (callsOf (flagOf compressed first f) f ++ ·.2) hlater :)

end WebSocketState

namespace WebSocketNodeSocket

/-- Nothing is queued, and the socket is not at its end. -/
structure Idle (s : WebSocketNodeSocket) : Prop where
  queues : s.flowManager = ⟨[], []⟩
  live : s.isEnded = false

variable {s : WebSocketNodeSocket}

theorem acceptFrame_idle (hs : s.Idle) (frameInfo : FrameInfo) :
    s.acceptFrame frameInfo = { s with
      accepted := s.accepted ++ [frameInfo], fired := s.fired ++ [frameInfo.data] } := by
  simp [acceptFrame, processReadQueue, hs.queues]

theorem writeMessage_idle (hs : s.Idle) (data : Uint8Array) (options : FrameOptions) :
    s.writeMessage data options = { s with written := s.written ++
      [frameHeader data.length { options with compressed := false } ++ data] } := by
  simp [writeMessage, processWriteQueue, hs.queues, writeFrame, hs.live]

def acceptedIn (calls : List FlowCall) : List FrameInfo :=
  calls.filterMap fun
    | .acceptFrame frameInfo => some frameInfo
    | .writeMessage _ _ => none

def messagesIn (calls : List FlowCall) : List Uint8Array :=
  calls.filterMap fun
    | .acceptFrame _ => none
    | .writeMessage data options =>
      some (frameHeader data.length { options with compressed := false } ++ data)

/-- The socket after `calls`, its reader at another place. -/
def moved (s : WebSocketNodeSocket) (incomingData : ChunkStream) (state : WebSocketState)
    (calls : List FlowCall) : WebSocketNodeSocket :=
  { s with
    incomingData, state
    written := s.written ++ messagesIn calls
    accepted := s.accepted ++ acceptedIn calls
    fired := s.fired ++ (acceptedIn calls).map FrameInfo.data }

theorem moved_moved (s : WebSocketNodeSocket) (incomingData incomingData' : ChunkStream)
    (state state' : WebSocketState) (calls calls' : List FlowCall) : (s.moved incomingData state
    calls).moved incomingData' state' calls' = s.moved incomingData' state' (calls ++ calls') := by
  simp [moved, messagesIn, acceptedIn]

theorem Idle.moved {s : WebSocketNodeSocket} (hs : s.Idle) (incomingData : ChunkStream)
    (state : WebSocketState) (calls : List FlowCall) : (s.moved incomingData state calls).Idle :=
  ⟨hs.queues, hs.live⟩

theorem perform_idle (hs : s.Idle) (call : FlowCall) :
    s.perform call = s.moved s.incomingData s.state [call] := by
  cases call with
  | acceptFrame frameInfo => simp [perform, acceptFrame_idle hs, moved, messagesIn, acceptedIn]
  | writeMessage data options =>
    simp [perform, writeMessage_idle hs, moved, messagesIn, acceptedIn]

theorem performAll_idle (hs : s.Idle) (calls : List FlowCall) :
    s.performAll calls = s.moved s.incomingData s.state calls := by
  induction calls generalizing s with
  | nil => simp [performAll, moved, messagesIn, acceptedIn]
  | cons call calls ih =>
    rw [performAll, foldl_cons, ← performAll, perform_idle hs, ih (hs.moved _ _ _), moved_moved]
    rfl

def Waiting (s : WebSocketNodeSocket) : Prop := s.incomingData.bytes.length < s.state.readLen

theorem readFrames_eq (hs : s.Idle) : ∃ incomingData,
    incomingData.bytes = (WebSocketState.machine.run s.state s.incomingData.bytes).2.1 ∧
    s.readFrames = s.moved incomingData (WebSocketState.machine.run s.state s.incomingData.bytes).1
    (WebSocketState.machine.run s.state s.incomingData.bytes).2.2 := by
  have hlen := s.incomingData.length_bytes
  induction s using readFrames.induct with
  | case1 s hge hnone =>
    obtain ⟨t, ht, -⟩ := s.incomingData.read_spec (s.state.state ≠ .PeekHeader) hge
    exact absurd (ht.symm.trans hnone) (Option.some_ne_none _)
  | case2 s hge buff incomingData hread accepted ih =>
    obtain ⟨t, ht, hbytes⟩ := s.incomingData.read_spec (s.state.state ≠ .PeekHeader) hge
    have hrun := WebSocketState.machine.run_step (s := s.state)
      (show WebSocketState.machine.need s.state ≤ s.incomingData.bytes.length from hlen ▸ hge)
    obtain ⟨hbuff, hdata⟩ := Prod.mk.inj (Option.some.inj (ht.symm.trans hread))
    have hleft : incomingData.bytes =
        s.incomingData.bytes.drop (WebSocketState.machine.used s.state) := by
      rw [← hdata, hbytes]
      simp only [WebSocketState.machine, WebSocketState.used]
      split_ifs with hpeek <;> simp_all
    have hloop : s.readFrames =
        readFrames ({ s with incomingData, state := accepted.1 }.performAll accepted.2) := by
      rw [readFrames, if_pos hge]
      split
      · next h => exact absurd (hread.symm.trans h) (Option.some_ne_none _)
      · next h =>
        obtain ⟨rfl, rfl⟩ := Prod.mk.inj (Option.some.inj (hread.symm.trans h))
        rfl
    have hstep : WebSocketState.machine.step s.state
        (s.incomingData.bytes.take (WebSocketState.machine.need s.state)) = accepted := by
      rw [show WebSocketState.machine.need s.state = s.state.readLen from rfl, hbuff]
      rfl
    have hperform : { s with incomingData, state := accepted.1 }.performAll accepted.2 =
        s.moved incomingData accepted.1 accepted.2 :=
      performAll_idle (s := { s with incomingData, state := accepted.1 }) ⟨hs.queues, hs.live⟩ _
    rw [hperform] at ih
    obtain ⟨later, hlater, hlast⟩ := ih (hs.moved _ _ _) incomingData.length_bytes
    refine ⟨later, ?_, ?_⟩
    · rw [hlater, hrun, hstep, ← hleft]
      rfl
    · rw [hloop, hperform, hlast, hrun, hstep, ← hleft, moved_moved]
      rfl
  | case3 s hlt =>
    rw [readFrames, if_neg hlt, WebSocketState.machine.run_wait]
    · exact ⟨s.incomingData, rfl, by simp [moved, messagesIn, acceptedIn]⟩
    · rw [hlen]
      exact not_le.1 hlt

theorem acceptChunks_eq (hs : s.Idle) (hwait : s.Waiting) (chunks : List Uint8Array) :
    ∃ incomingData, incomingData.bytes = (WebSocketState.machine.run s.state
    (s.incomingData.bytes ++ chunks.flatten)).2.1 ∧ s.acceptChunks chunks = s.moved incomingData
    (WebSocketState.machine.run s.state (s.incomingData.bytes ++ chunks.flatten)).1
    (WebSocketState.machine.run s.state (s.incomingData.bytes ++ chunks.flatten)).2.2 := by
  induction chunks generalizing s with
  | nil =>
    rw [flatten_nil, append_nil, WebSocketState.machine.run_wait hwait]
    exact ⟨s.incomingData, rfl, by simp [acceptChunks, moved, messagesIn, acceptedIn]⟩
  | cons chunk chunks ih =>
    obtain ⟨incomingData, hdata, hfirst⟩ : ∃ incomingData, incomingData.bytes =
        (WebSocketState.machine.run s.state (s.incomingData.bytes ++ chunk)).2.1 ∧
        s.acceptChunk chunk = s.moved incomingData
          (WebSocketState.machine.run s.state (s.incomingData.bytes ++ chunk)).1
          (WebSocketState.machine.run s.state (s.incomingData.bytes ++ chunk)).2.2 := by
      rw [acceptChunk]
      split_ifs with hempty
      · rw [length_eq_zero_iff.1 hempty, append_nil, WebSocketState.machine.run_wait hwait]
        exact ⟨s.incomingData, rfl, by simp [moved, messagesIn, acceptedIn]⟩
      · obtain ⟨incomingData, hdata, hread⟩ := readFrames_eq (s := { s with
          incomingData := s.incomingData.acceptChunk chunk }) ⟨hs.queues, hs.live⟩
        simp only [ChunkStream.bytes_acceptChunk] at hdata hread
        exact ⟨incomingData, hdata, hread⟩
    have hwait' : (s.acceptChunk chunk).Waiting := by
      have := WebSocketState.machine.run_waits s.state (s.incomingData.bytes ++ chunk)
      rw [← hdata] at this
      rw [hfirst]
      exact this
    obtain ⟨last, hlast, hrest⟩ := ih (hfirst ▸ hs.moved _ _ _) hwait'
    rw [hfirst] at hlast hrest
    have hwhole := WebSocketState.machine.run_append s.state (s.incomingData.bytes ++ chunk)
      chunks.flatten
    rw [← hdata] at hwhole
    rw [flatten_cons, ← append_assoc, hwhole]
    refine ⟨last, hlast, ?_⟩
    rw [acceptChunks, foldl_cons, ← acceptChunks, hfirst, hrest, moved_moved]
    rfl

end WebSocketNodeSocket

/-- The compression flag of the message that is open behind a frame. -/
def messageAfter (message : Option Bool) (f : Frame) : Option Bool :=
  match f.opcode with
  | .continuation => if f.fin then none else message
  | .text | .binary => if f.fin then none else some f.rsv1
  | .close | .ping | .pong => message

/-- A frame that may stand where `message` is open. -/
def Frame.Allowed (f : Frame) (message : Option Bool) : Prop :=
  match f.opcode with
  | .continuation => message.isSome ∧ f.rsv1 = false
  | .text | .binary => message = none
  | .close | .ping | .pong => f.fin ∧ f.rsv1 = false ∧ f.payload.length ≤ 125

/-- Fragments of one message follow one another, with control frames between them. -/
def WellFormedFrames : Option Bool → List Frame → Prop
  | _, [] => True
  | message, f :: frames => f.Allowed message ∧ WellFormedFrames (messageAfter message f) frames

/-- For every data frame, its payload, the compression flag of its message and its end. -/
def dataFrames : Option Bool → List Frame → List FrameInfo
  | _, [] => []
  | message, f :: frames =>
    match f.opcode with
    | .continuation => ⟨f.payload, message.getD false, f.fin⟩ ::
        dataFrames (messageAfter message f) frames
    | .text | .binary => ⟨f.payload, f.rsv1, f.fin⟩ ::
        dataFrames (messageAfter message f) frames
    | .close | .ping | .pong => dataFrames (messageAfter message f) frames

def payloads (frames : List Frame) : List Uint8Array :=
  (frames.filter fun f => !f.opcode.isControl).map Frame.payload

def pongs (frames : List Frame) : List Uint8Array :=
  (frames.filter fun f => f.opcode = .ping).map fun f =>
    Frame.encode ⟨true, false, .pong, none, f.payload, f.size⟩

/-- A message goes on that has the compression flag. -/
def StartsCompressed (message : Option Bool) (frames : List Frame) : Prop :=
  message = some true ∧ ∃ f ∈ frames.head?, f.opcode = .continuation

/-- No continuation frame of a compressed message stands directly behind a control frame. -/
def Unbroken : Option Bool → List Frame → Prop
  | _, [] => True
  | message, f :: frames =>
    (f.opcode.isControl → ¬StartsCompressed (messageAfter message f) frames) ∧
      Unbroken (messageAfter message f) frames

open WebSocketState WebSocketNodeSocket

theorem acceptedIn_append (calls calls' : List FlowCall) :
    acceptedIn (calls ++ calls') = acceptedIn calls ++ acceptedIn calls' := by
  simp [acceptedIn]

theorem acceptedIn_callsOf (flag : Bool) (f : Frame) : acceptedIn (callsOf flag f) =
    if f.opcode.isControl then [] else [⟨f.payload, flag, f.fin⟩] := by
  unfold callsOf
  cases f.opcode <;> rfl

theorem payloads_callsOfAll (compressed first : Bool) (frames : List Frame) :
    (acceptedIn (callsOfAll compressed first frames)).map FrameInfo.data = payloads frames := by
  induction frames generalizing compressed first with
  | nil => rfl
  | cons f frames ih =>
    rw [callsOfAll, acceptedIn_append, acceptedIn_callsOf, map_append, ih, payloads, payloads,
      filter_cons]
    cases f.opcode.isControl <;> rfl

theorem frameHeader_eq {f : Frame} (hfin : f.fin) (hkey : f.key = none) :
    frameHeader f.payload.length ⟨f.rsv1, f.opcode.code⟩ = f.header := by
  have hsize := f.size
  have hlow : ∀ n, n &&& 0b11111111 = n % 2 ^ 8 := fun n => Nat.and_two_pow_sub_one_eq_mod n 8
  have hfirst : toUint8 (0b10000000 ||| (if f.rsv1 then 0b01000000 else 0) |||
      f.opcode.code &&& 0b00001111 : Nat) = f.firstByte := by
    rw [Frame.firstByte, hfin]
    cases f.rsv1 <;> cases f.opcode <;> decide
  have hsecond : f.secondByte = UInt8.ofNat (Frame.shortLength f.payload.length) := by
    rw [Frame.secondByte, hkey]
    simp
  have hkeyBytes : f.keyBytes = [] := by
    rw [Frame.keyBytes, hkey]
    rfl
  simp only [frameHeader, hfirst, Frame.header, hsecond, hkeyBytes, append_nil, hlow,
    Nat.shiftRight_eq_div_pow]
  generalize f.payload.length = n at hsize
  congr 1
  unfold Frame.shortLength Frame.extendedLength
  split_ifs with hshort hmiddle
  · exact congrArg (fun x => [x]) (toUint8_eq (by rw [UInt8.toNat_ofNat']; omega))
  · refine congrArg (126 :: ·) (congrArg₂ (fun x y => [x, y]) (toUint8_eq ?_) (toUint8_eq ?_)) <;>
      rw [UInt8.toNat_ofNat'] <;> omega
  · have hbytes : ∀ m : Nat, ∀ value : Int, value % 2 ^ 8 = (m % 2 ^ 8 : Nat) →
        toUint8 (m % 2 ^ 8 : Nat) = toUint8 value := by
      intro m value h
      have := toNat_toUint8 value
      exact toUint8_eq (by omega)
    refine congrArg (fun xs => 127 :: 0 :: 0 :: 0 :: 0 :: xs) (congrArg₂ List.cons (hbytes _ _ ?_)
      (congrArg₂ List.cons (hbytes _ _ ?_) (congrArg₂ List.cons (hbytes _ _ ?_)
        (congrArg₂ List.cons (hbytes _ _ ?_) rfl))))
    · simp only [shiftRight8]
      omega
    · simp only [shiftRight8]
      omega
    · simp only [shiftRight8]
      omega
    · omega

theorem messages_callsOfAll (compressed first : Bool) (frames : List Frame) :
    messagesIn (callsOfAll compressed first frames) = pongs frames := by
  induction frames generalizing compressed first with
  | nil => rfl
  | cons f frames ih =>
    have hone : messagesIn (callsOf (flagOf compressed first f) f) = pongs [f] := by
      have hpong := frameHeader_eq (f := ⟨true, false, .pong, none, f.payload, f.size⟩) rfl rfl
      unfold callsOf pongs
      cases hcode : f.opcode <;> simp_all [messagesIn, Frame.encode, Frame.masked, Opcode.code]
    have happend : messagesIn (callsOf (flagOf compressed first f) f ++
        callsOfAll (flagOf compressed first f) f.fin frames) = _ :=
      filterMap_append
    rw [callsOfAll, happend]
    change messagesIn _ ++ messagesIn _ = _
    rw [ih, hone, pongs, pongs, pongs, ← map_append, ← filter_append]
    rfl

variable {frames : List Frame}

/-- The flags are right as long as no compressed message is taken up behind a control frame:
after one, the reader takes the next frame for the first of a message. -/
theorem accepted_iff {message : Option Bool} (hframes : WellFormedFrames message frames)
    (compressed first : Bool) : ((first = message.isNone ∧ message.getD compressed = compressed) →
    (acceptedIn (callsOfAll compressed first frames) = dataFrames message frames ↔
    Unbroken message frames)) ∧ (first → (acceptedIn (callsOfAll compressed first frames) =
    dataFrames message frames ↔ ¬StartsCompressed message frames ∧ Unbroken message frames)) := by
  induction frames generalizing message compressed first with
  | nil => simp [callsOfAll, acceptedIn, dataFrames, Unbroken, StartsCompressed]
  | cons f frames ih =>
    obtain ⟨hallowed, hrest⟩ := hframes
    have ih := ih hrest
    rw [callsOfAll, acceptedIn_append, acceptedIn_callsOf, dataFrames, Unbroken]
    cases hcode : f.opcode with
    | continuation =>
      simp only [Frame.Allowed, hcode] at hallowed
      obtain ⟨⟨c, rfl⟩, hrsv1⟩ := hallowed.imp_left Option.isSome_iff_exists.1
      have hnext : messageAfter (some c) f = if f.fin then none else some c := by
        simp only [messageAfter, hcode]
      have hsync := (ih c f.fin).1 (by rw [hnext]; cases f.fin <;> simp)
      refine ⟨fun ⟨hfirst, hflag⟩ => ?_, fun hfirst => ?_⟩
      · have hsame : flagOf compressed first f = c := by simpa [flagOf, hfirst] using hflag.symm
        simpa [hsame, Opcode.isControl] using hsync
      · -- The bit of this frame is taken for the flag of the message.
        have hsame : flagOf compressed first f = false := by simp [flagOf, hfirst, hrsv1]
        rw [hsame]
        cases c with
        | true => simp [StartsCompressed, hcode, Opcode.isControl]
        | false => simpa [StartsCompressed, Opcode.isControl] using hsync
    | text | binary =>
      simp only [Frame.Allowed, hcode] at hallowed
      subst hallowed
      have hnext : messageAfter none f = if f.fin then none else some f.rsv1 := by
        simp only [messageAfter, hcode]
      have hsync := (ih f.rsv1 f.fin).1 (by rw [hnext]; cases f.fin <;> simp)
      have hstart : ¬StartsCompressed none (f :: frames) := fun h => absurd h.1 nofun
      have hflag : first = true → flagOf compressed first f = f.rsv1 := fun h => by simp [flagOf, h]
      refine ⟨fun ⟨hfirst, _⟩ => ?_, fun hfirst => ?_⟩
      · simpa [hflag hfirst, Opcode.isControl] using hsync
      · simpa [hflag hfirst, Opcode.isControl, hstart] using hsync
    | close | ping | pong =>
      simp only [Frame.Allowed, hcode] at hallowed
      have hnext : messageAfter message f = message := by simp only [messageAfter, hcode]
      have hbehind := (ih (flagOf compressed first f) f.fin).2 hallowed.1
      rw [hnext] at hbehind
      have hstart : ¬StartsCompressed message (f :: frames) := by simp [StartsCompressed, hcode]
      refine ⟨fun _ => ?_, fun _ => ?_⟩ <;> simpa [Opcode.isControl, hnext, hstart] using hbehind

def Frame.IsMessage (f : Frame) : Prop :=
  f.fin ∧ f.rsv1 = false ∧ f.opcode = .binary ∧ f.key = none

theorem payloads_messages (h : ∀ f ∈ frames, f.IsMessage) :
    payloads frames = frames.map Frame.payload := by
  rw [payloads, filter_eq_self.2 fun f hf => ?_]
  rw [(h f hf).2.2.1]
  rfl

namespace WebSocketNodeSocket

/-- The socket after it has written `frames`. -/
def sent (s : WebSocketNodeSocket) (frames : List Frame) : WebSocketNodeSocket :=
  { s with written := s.written ++ frames.map Frame.encode }

theorem sent_sent (s : WebSocketNodeSocket) (frames frames' : List Frame) :
    (s.sent frames).sent frames' = s.sent (frames ++ frames') := by
  simp [sent]

variable {s : WebSocketNodeSocket}

theorem Idle.sent (hs : s.Idle) (frames : List Frame) : (s.sent frames).Idle :=
  ⟨hs.queues, hs.live⟩

theorem writeMessage_frame (hs : s.Idle) {data : Uint8Array} (hsize : data.length < 2 ^ 32) : ∃ f :
    Frame, f.IsMessage ∧ f.payload = data ∧ s.writeMessage data ⟨true, 0x02⟩ = s.sent [f] := by
  let f : Frame := ⟨true, false, .binary, none, data, hsize⟩
  refine ⟨f, ⟨rfl, rfl, rfl, rfl⟩, rfl, ?_⟩
  rw [writeMessage_idle hs, sent, map_singleton, Frame.encode, ← frameHeader_eq (f := f) rfl rfl]
  rfl

theorem writeFrom_frames (hs : s.Idle) (hsplit : s.enableMessageSplitting) (buffer : Uint8Array)
    (start : Nat) : ∃ frames : List Frame, (∀ f ∈ frames, f.IsMessage) ∧ (frames.map
    Frame.payload).flatten = buffer.drop start ∧ s.writeFrom buffer start = s.sent frames := by
  induction s, start using writeFrom.induct buffer with
  | case1 s start hlt _ stop ih =>
    have hsize : ((buffer.drop start).take (stop - start)).length < 2 ^ 32 := by
      simp only [List.length_take, stop, MaxWebSocketMessageLength]
      omega
    obtain ⟨f, hf, hpayload, hsent⟩ := writeMessage_frame hs hsize
    rw [hsent] at ih
    obtain ⟨frames, hframes, hbytes, hrest⟩ := ih (hs.sent [f]) hsplit
    refine ⟨f :: frames, ?_, ?_, ?_⟩
    · intro g hg
      rcases mem_cons.1 hg with rfl | hg
      · exact hf
      · exact hframes g hg
    · -- Behind the end of the buffer nothing is left for the next message.
      rw [map_cons, flatten_cons, hpayload, hbytes, ← List.drop_drop]
      rcases Nat.le_total (start + MaxWebSocketMessageLength) buffer.length with hle | hge
      · rw [show stop - start = MaxWebSocketMessageLength by
          simp only [stop, Nat.min_eq_left hle, Nat.add_sub_cancel_left], take_append_drop]
      · have hall : (buffer.drop start).length ≤ MaxWebSocketMessageLength := by
          rw [List.length_drop]
          omega
        rw [drop_of_length_le hall, append_nil, take_of_length_le]
        simp only [stop, List.length_drop]
        omega
    · have hwrite : s.writeFrom buffer start =
          (s.writeMessage ((buffer.drop start).take (stop - start)) ⟨true, 0x02⟩).writeFrom buffer
            (start + MaxWebSocketMessageLength) := by
        rw [writeFrom, if_pos hlt, if_pos hsplit]
      rw [hwrite, hsent, hrest, sent_sent]
      rfl
  | case2 s start hlt hunsplit => exact absurd hsplit hunsplit
  | case3 s start hge =>
    refine ⟨[], nofun, ?_, ?_⟩
    · rw [drop_of_length_le (by omega)]
      rfl
    · rw [writeFrom, if_neg hge]
      simp [sent]

def writeAll (s : WebSocketNodeSocket) (buffers : List Uint8Array) : WebSocketNodeSocket :=
  buffers.foldl write s

theorem writeAll_frames (hs : s.Idle) (hsplit : s.enableMessageSplitting)
    (buffers : List Uint8Array) : ∃ frames : List Frame, (∀ f ∈ frames, f.IsMessage) ∧
    (frames.map Frame.payload).flatten = buffers.flatten ∧ s.writeAll buffers = s.sent frames := by
  induction buffers generalizing s with
  | nil => exact ⟨[], nofun, rfl, by simp [writeAll, sent]⟩
  | cons buffer buffers ih =>
    obtain ⟨frames, hframes, hbytes, hsent⟩ := writeFrom_frames hs hsplit buffer 0
    obtain ⟨frames', hframes', hbytes', hsent'⟩ := ih (hs.sent frames) hsplit
    refine ⟨frames ++ frames', ?_, ?_, ?_⟩
    · intro f hf
      rcases List.mem_append.1 hf with hf | hf
      · exact hframes f hf
      · exact hframes' f hf
    · rw [map_append, flatten_append, hbytes, hbytes', drop_zero, flatten_cons]
    · rw [writeAll, foldl_cons, ← writeAll, write, hsent, hsent', sent_sent]

theorem acceptChunks_frames (enableMessageSplitting : Bool) {frames : List Frame}
    {chunks : List Uint8Array} (hchunks : chunks.flatten = Frame.encodeAll frames) :
    ((new enableMessageSplitting).acceptChunks chunks).fired = payloads frames ∧
      ((new enableMessageSplitting).acceptChunks chunks).written = pongs frames ∧
      ((new enableMessageSplitting).acceptChunks chunks).accepted =
        acceptedIn (callsOfAll false true frames) := by
  obtain ⟨incomingData, -, hread⟩ := acceptChunks_eq (s := new enableMessageSplitting) ⟨rfl, rfl⟩
    Nat.zero_lt_two chunks
  have hrun : WebSocketState.machine.run (new enableMessageSplitting).state
      ((new enableMessageSplitting).incomingData.bytes ++ chunks.flatten) = _ :=
    congrArg (WebSocketState.machine.run .start) hchunks
  have hcalls : (WebSocketState.machine.run .start (Frame.encodeAll frames)).2.2 =
      callsOfAll false true frames := congrArg Prod.snd (run_encodeAll 0 0 false true frames)
  rw [hread, hrun, ← payloads_callsOfAll false true, ← messages_callsOfAll false true, ← hcalls]
  exact ⟨rfl, rfl, rfl⟩

end WebSocketNodeSocket

/-- The frames of a stream are accepted with the flags of their messages, their payloads are
fired, and the pings are answered. -/
def AcceptsFrames (s : WebSocketNodeSocket) (frames : List Frame) : Prop :=
  s.fired = payloads frames ∧ s.accepted = dataFrames none frames ∧ s.written = pongs frames

/-- What is written on one side is fired on the other. Of frames from elsewhere the payloads and
the pongs are right as well; the compression flags are, if and only if no compressed message goes
on directly behind a control frame. -/
theorem webSocket_roundTrip_iff (enableMessageSplitting : Bool) :
    (∀ buffers chunks : List Uint8Array,
      chunks.flatten = ((WebSocketNodeSocket.new true).writeAll buffers).written.flatten →
        ((WebSocketNodeSocket.new enableMessageSplitting).acceptChunks chunks).fired.flatten =
          buffers.flatten) ∧
    ∀ (frames : List Frame) (chunks : List Uint8Array), WellFormedFrames none frames →
      chunks.flatten = Frame.encodeAll frames →
        (((WebSocketNodeSocket.new enableMessageSplitting).acceptChunks chunks).fired =
            payloads frames ∧
          ((WebSocketNodeSocket.new enableMessageSplitting).acceptChunks chunks).written =
            pongs frames) ∧
        (AcceptsFrames ((WebSocketNodeSocket.new enableMessageSplitting).acceptChunks chunks)
          frames ↔ Unbroken none frames) := by
  refine ⟨fun buffers chunks hchunks => ?_, fun frames chunks hframes hchunks => ?_⟩
  · obtain ⟨frames, hframes, hbytes, hsent⟩ :=
      writeAll_frames (s := .new true) ⟨rfl, rfl⟩ rfl buffers
    have hstream : chunks.flatten = Frame.encodeAll frames := by
      rw [hchunks, hsent, Frame.encodeAll, List.flatMap_def]
      rfl
    rw [(acceptChunks_frames enableMessageSplitting hstream).1, payloads_messages hframes, hbytes]
  · obtain ⟨hfired, hwritten, haccepted⟩ := acceptChunks_frames enableMessageSplitting hchunks
    have hflags := (accepted_iff hframes false true).1 ⟨rfl, rfl⟩
    rw [← haccepted] at hflags
    exact ⟨⟨hfired, hwritten⟩, fun h => hflags.1 h.2.1, fun h => ⟨hfired, hflags.2 h, hwritten⟩⟩

/-- A masked compressed message in two fragments and a ping behind it, cut inside a header. -/
def fragmentedStream : List Frame :=
  [⟨false, true, .binary, some ⟨1, 2, 3, 4⟩, [97], by decide⟩,
    ⟨true, false, .continuation, none, [98], by decide⟩,
    ⟨true, false, .ping, none, [112], by decide⟩]

theorem webSocket_roundTrip_iff_at_fragments :
    let stream := Frame.encodeAll fragmentedStream
    AcceptsFrames ((WebSocketNodeSocket.new true).acceptChunks [stream.take 8, [], stream.drop 8])
        fragmentedStream ∧
      ((WebSocketNodeSocket.new true).acceptChunks
        ((WebSocketNodeSocket.new true).writeAll [[1, 2], [], [3]]).written).fired.flatten =
          [1, 2, 3] := by
  intro stream
  have hframes : WellFormedFrames none fragmentedStream := by
    simp [WellFormedFrames, fragmentedStream, Frame.Allowed, messageAfter]
  have hunbroken : Unbroken none fragmentedStream := by
    simp [Unbroken, fragmentedStream, StartsCompressed, Opcode.isControl]
  have hchunks : [stream.take 8, [], stream.drop 8].flatten = stream := by simp
  exact ⟨((webSocket_roundTrip_iff true).2 _ _ hframes hchunks).2.2 hunbroken,
    (webSocket_roundTrip_iff true).1 [[1, 2], [], [3]] _ rfl⟩

/-- The ping between the fragments makes the second one uncompressed. -/
theorem webSocket_roundTrip_fails_at_ping :
    ¬∀ (frames : List Frame) (chunks : List Uint8Array), WellFormedFrames none frames →
      chunks.flatten = Frame.encodeAll frames →
        AcceptsFrames ((WebSocketNodeSocket.new true).acceptChunks chunks) frames := by
  intro h
  let frames : List Frame :=
    [⟨false, true, .binary, none, [97], by decide⟩, ⟨true, false, .ping, none, [112], by decide⟩,
      ⟨true, false, .continuation, none, [98], by decide⟩]
  have hframes : WellFormedFrames none frames := by
    simp [WellFormedFrames, frames, Frame.Allowed, messageAfter]
  have hchunks : [Frame.encodeAll frames].flatten = Frame.encodeAll frames := by simp
  have haccepted := (h frames _ hframes hchunks).2.1
  rw [(WebSocketNodeSocket.acceptChunks_frames true hchunks).2.2] at haccepted
  exact absurd haccepted (by decide)

namespace WebSocketNodeSocket

/-- Frames, also malformed ones, are read in the same way wherever the stream is cut. -/
theorem frames_cut (enableMessageSplitting : Bool) (chunks : List Uint8Array) :
    let cut := (new enableMessageSplitting).acceptChunks chunks
    let whole := (new enableMessageSplitting).acceptChunks [chunks.flatten]
    cut.incomingData.bytes = whole.incomingData.bytes ∧
      cut = { whole with incomingData := cut.incomingData } := by
  have hs : (new enableMessageSplitting).Idle := ⟨rfl, rfl⟩
  have hwait : (new enableMessageSplitting).Waiting := Nat.zero_lt_two
  obtain ⟨data, hdata, hcut⟩ := acceptChunks_eq hs hwait chunks
  obtain ⟨data', hdata', hwhole⟩ := acceptChunks_eq hs hwait [chunks.flatten]
  rw [flatten_singleton] at hdata' hwhole
  simp only [hcut, hwhole]
  exact ⟨hdata.trans hdata'.symm, rfl⟩

end WebSocketNodeSocket

end CodeOss
