import CodeOss.Ipc.Protocol

/-! Messages survive the stream.
However the writer groups them and however the stream is cut, the reader fires the messages
that were written, each one with its last byte. -/

namespace CodeOss

open Uint8Array ProtocolConstants ProtocolMessage List

inductive WriterEvent
  | write (msg : ProtocolMessage)
  | flush
  | pause
  | resume
  | timeout

namespace ProtocolWriter

def handle (w : ProtocolWriter) : WriterEvent → ProtocolWriter
  | .write msg => w.write msg
  | .flush => w.flush
  | .pause => w.pause
  | .resume => w.resume
  | .timeout => w.timeout

def handleAll (w : ProtocolWriter) (events : List WriterEvent) : ProtocolWriter :=
  events.foldl handle w

/-- All the bytes, written to the socket or waiting. -/
def stream (w : ProtocolWriter) : Uint8Array := w.written.flatten ++ w.data.flatten

/-- What waits is written when the timer goes off, or with the next `resume`. -/
def Scheduled (w : ProtocolWriter) : Prop :=
  w.data.flatten ≠ [] → w.isPaused ∨ w.writeNowTimeout

theorem stream_writeNow (w : ProtocolWriter) : w.writeNow.stream = w.stream := by
  unfold writeNow
  split_ifs
  · rfl
  · rfl
  · simp [stream, bufferTake]

theorem data_writeNow (w : ProtocolWriter) : w.writeNow.data.flatten = [] ∨ w.isPaused := by
  unfold writeNow
  split_ifs with hzero hpaused
  · have hlen := w.total_eq
    exact .inl (length_eq_zero_iff.1 (by omega))
  · exact .inr hpaused
  · exact .inl rfl

variable {w : ProtocolWriter}

theorem stream_write (h : w.isDisposed = false) (msg : ProtocolMessage) :
    (w.write msg).stream = w.stream ++ msg.encode := by
  have hdef : (w.write msg).data = w.data ++ [msg.header, msg.data] ∧
      (w.write msg).written = w.written := by
    simp only [write, h, Bool.false_eq_true, if_false, writeSoon, bufferAdd, scheduleWriting]
    split_ifs <;> exact ⟨rfl, rfl⟩
  simp [stream, hdef, encode]

def messagesOf (events : List WriterEvent) : List ProtocolMessage :=
  events.filterMap fun
    | .write msg => some msg
    | _ => none

theorem handle_spec (hopen : w.isDisposed = false) (hw : w.Scheduled) (event : WriterEvent) :
    (w.handle event).isDisposed = false ∧ (w.handle event).Scheduled ∧
      (w.handle event).stream = w.stream ++ encodeAll (messagesOf [event]) := by
  have hnow : ∀ v : ProtocolWriter, v.isDisposed = false → v.writeNow.isDisposed = false ∧
      v.writeNow.Scheduled ∧ v.writeNow.stream = v.stream := by
    intro v hv
    have hsame : v.writeNow.isDisposed = v.isDisposed ∧ v.writeNow.isPaused = v.isPaused := by
      unfold writeNow
      split_ifs <;> exact ⟨rfl, rfl⟩
    refine ⟨hsame.1.trans hv, fun hdata => .inl ?_, stream_writeNow v⟩
    rw [hsame.2]
    exact (data_writeNow v).resolve_left hdata
  cases event with
  | write msg =>
    refine ⟨?_, ?_, by simpa [messagesOf, handle] using stream_write hopen msg⟩
    · simp only [handle, write, hopen, Bool.false_eq_true, if_false, writeSoon, bufferAdd,
        scheduleWriting]
      split_ifs <;> rfl
    · intro _
      simp only [handle, write, hopen, Bool.false_eq_true, if_false, writeSoon, bufferAdd,
        scheduleWriting, decide_eq_true_eq]
      split_ifs with hzero
      · exact .inr rfl
      · refine hw fun hnil => hzero ?_
        rw [w.total_eq, hnil, length_nil]
  | flush => simpa [messagesOf, handle, flush] using hnow w hopen
  | pause => exact ⟨hopen, fun _ => .inl rfl, by simp [handle, pause, stream, messagesOf]⟩
  | resume =>
    exact ⟨hopen, fun _ => .inr rfl, by simp [handle, resume, scheduleWriting, stream, messagesOf]⟩
  | timeout =>
    simp only [handle, timeout]
    split_ifs
    · simpa [messagesOf, stream] using hnow { w with writeNowTimeout := false } hopen
    · exact ⟨hopen, hw, by simp [messagesOf]⟩

theorem handleAll_spec (hopen : w.isDisposed = false) (hw : w.Scheduled)
    (events : List WriterEvent) :
    (w.handleAll events).Scheduled ∧
      (w.handleAll events).stream = w.stream ++ encodeAll (messagesOf events) := by
  induction events generalizing w with
  | nil => exact ⟨hw, by simp [handleAll, messagesOf]⟩
  | cons event events ih =>
    obtain ⟨hopen', hw', hstream⟩ := handle_spec hopen hw event
    obtain ⟨hsched, hall⟩ := ih hopen' hw'
    refine ⟨hsched, ?_⟩
    have hmsgs : messagesOf (event :: events) = messagesOf [event] ++ messagesOf events := by
      rw [messagesOf, ← singleton_append, filterMap_append]
      rfl
    rw [hmsgs, encodeAll_append, ← append_assoc, ← hstream]
    exact hall

end ProtocolWriter

open ProtocolWriter

namespace ProtocolReader

def Waiting (r : ProtocolReader) : Prop := r.incomingData.bytes.length < r.state.readLen

theorem acceptChunk_eq {r : ProtocolReader} (hwait : r.Waiting) (chunk : Uint8Array) :
    (r.acceptChunk (some chunk)).1.state = (ReadState.machine.run r.state
    (r.incomingData.bytes ++ chunk)).1 ∧ (r.acceptChunk (some chunk)).1.incomingData.bytes =
    (ReadState.machine.run r.state (r.incomingData.bytes ++ chunk)).2.1 ∧ (r.acceptChunk
    (some chunk)).2 = (ReadState.machine.run r.state (r.incomingData.bytes ++ chunk)).2.2 := by
  rw [acceptChunk]
  split_ifs with hempty
  · rw [length_eq_zero_iff.1 hempty, append_nil, ReadState.machine.run_wait hwait]
    exact ⟨rfl, rfl, rfl⟩
  · have hread := readMessages_eq { r with incomingData := r.incomingData.acceptChunk chunk }
    simpa using hread

theorem acceptChunks_eq {r : ProtocolReader} (hwait : r.Waiting) (chunks : List Uint8Array) :
    (r.acceptChunks chunks).1.state = (ReadState.machine.run r.state
    (r.incomingData.bytes ++ chunks.flatten)).1 ∧ (r.acceptChunks chunks).1.incomingData.bytes =
    (ReadState.machine.run r.state (r.incomingData.bytes ++ chunks.flatten)).2.1 ∧ (r.acceptChunks
    chunks).2 = (ReadState.machine.run r.state (r.incomingData.bytes ++ chunks.flatten)).2.2 := by
  induction chunks generalizing r with
  | nil =>
    rw [flatten_nil, append_nil, ReadState.machine.run_wait hwait]
    exact ⟨rfl, rfl, rfl⟩
  | cons chunk chunks ih =>
    obtain ⟨hstate, hdata, hfired⟩ := acceptChunk_eq hwait chunk
    have hwait' : (r.acceptChunk (some chunk)).1.Waiting := by
      have := ReadState.machine.run_waits r.state (r.incomingData.bytes ++ chunk)
      rw [← hstate, ← hdata] at this
      exact this
    obtain ⟨hstate', hdata', hfired'⟩ := ih hwait'
    rw [flatten_cons, ← append_assoc, ReadState.machine.run_append, ← hstate, ← hdata,
      ← hfired, acceptChunks]
    exact ⟨hstate', hdata', by rw [hfired']⟩

end ProtocolReader

namespace ReadState

variable {msg : ProtocolMessage}

theorem accept_header (h : msg.Fits) :
    start.accept msg.header = (⟨false, msg.data.length, msg.type, msg.id, msg.ack, nofun⟩, []) := by
  have htype : readUInt8 msg.header 0 = some msg.type :=
    readUInt8_append [] (bytes32BE msg.id ++ bytes32BE msg.ack ++ bytes32BE msg.data.length)
      (show (0 : Int) ≤ msg.type by omega) (by exact_mod_cast h.type)
  have hid : readUInt32BE msg.header 1 = some msg.id :=
    readUInt32BE_append [toUint8 msg.type] (bytes32BE msg.ack ++ bytes32BE msg.data.length)
      (show (0 : Int) ≤ msg.id by omega) (by exact_mod_cast h.id)
  have hack : readUInt32BE msg.header 5 = some msg.ack :=
    readUInt32BE_append (toUint8 msg.type :: bytes32BE msg.id) (bytes32BE msg.data.length)
      (show (0 : Int) ≤ msg.ack by omega) (by exact_mod_cast h.ack)
  have hsize : readUInt32BE msg.header 9 = some msg.data.length :=
    readUInt32BE_append (toUint8 msg.type :: (bytes32BE msg.id ++ bytes32BE msg.ack)) []
      (show (0 : Int) ≤ msg.data.length by omega) (by exact_mod_cast h.size)
  simp [accept, start, htype, hid, hack, hsize]

theorem run_header (h : msg.Fits) (rest : Uint8Array) : machine.run start (msg.header ++ rest) =
    machine.run ⟨false, msg.data.length, msg.type, msg.id, msg.ack, nofun⟩ rest := by
  have hneed : machine.need start = msg.header.length := rfl
  have hused : machine.used start = msg.header.length := rfl
  rw [machine.run_step (by rw [hneed, length_append]; omega), hneed, hused,
    take_left, drop_left, show machine.step start msg.header = _ from accept_header h]
  rfl

theorem run_encode (h : msg.Fits) (rest : Uint8Array) :
    machine.run start (msg.encode ++ rest) = ((machine.run start rest).1,
    (machine.run start rest).2.1, msg :: (machine.run start rest).2.2) := by
  rw [encode, append_assoc, run_header h, machine.run_step]
  · simp only [machine, take_left, drop_left]
    rfl
  · simp only [machine, length_append]
    omega

end ReadState

/-- The messages that are complete in the first `n` bytes. -/
def arrived : List ProtocolMessage → Nat → List ProtocolMessage
  | [], _ => []
  | msg :: msgs, n =>
    if msg.encode.length ≤ n then msg :: arrived msgs (n - msg.encode.length) else []

/-- The bytes the reader has consumed of the first `n`: the messages that are complete, and the
header of the next one. -/
def consumed : List ProtocolMessage → Nat → Nat
  | [], _ => 0
  | msg :: msgs, n =>
    if msg.encode.length ≤ n then msg.encode.length + consumed msgs (n - msg.encode.length)
    else if HeaderLength ≤ n then HeaderLength else 0

theorem run_beginning {msgs : List ProtocolMessage} (hfits : ∀ msg ∈ msgs, msg.Fits) {received :
    Uint8Array} (h : received <+: encodeAll msgs) : (ReadState.machine.run .start received).2 =
    (received.drop (consumed msgs received.length), arrived msgs received.length) := by
  induction msgs generalizing received with
  | nil =>
    rw [encodeAll_nil, prefix_nil] at h
    subst h
    rw [ReadState.machine.run_wait (by decide)]
    rfl
  | cons msg msgs ih =>
    have hmsg := hfits msg (by simp)
    rw [encodeAll_cons] at h
    rw [arrived, consumed]
    split_ifs with hwhole hheader
    · -- The message is complete.
      obtain ⟨rest, rfl⟩ := prefix_of_prefix_length_le (prefix_append _ _) h hwhole
      have hrest := ih (fun m hm => hfits m (by simp [hm])) ((prefix_append_right_inj _).1 h)
      rw [ReadState.run_encode hmsg, hrest, length_append, Nat.add_sub_cancel_left,
        ← List.drop_drop, drop_left]
    · have hle : received.length ≤ msg.encode.length := by omega
      have hmsgs := prefix_of_prefix_length_le h (prefix_append _ _) hle
      rw [encode] at hmsgs
      obtain ⟨body, rfl⟩ := prefix_of_prefix_length_le (prefix_append _ _) hmsgs
        (show msg.header.length ≤ received.length from hheader)
      rw [ReadState.run_header hmsg, ReadState.machine.run_wait]
      · exact congrArg (·, []) (drop_left' (length_header msg)).symm
      · rw [length_encode, length_append, length_header] at hwhole
        simp only [ReadState.machine]
        omega
    · rw [ReadState.machine.run_wait (show received.length < HeaderLength by omega)]
      rfl

theorem arrived_all (msgs : List ProtocolMessage) : arrived msgs (encodeAll msgs).length =
    msgs := by
  induction msgs with
  | nil => rfl
  | cons msg msgs ih =>
    rw [arrived, encodeAll_cons, length_append, if_pos (Nat.le_add_right _ _),
      Nat.add_sub_cancel_left, ih]

theorem consumed_all (msgs : List ProtocolMessage) :
    consumed msgs (encodeAll msgs).length = (encodeAll msgs).length := by
  induction msgs with
  | nil => rfl
  | cons msg msgs ih =>
    rw [consumed, encodeAll_cons, length_append, if_pos (Nat.le_add_right _ _),
      Nat.add_sub_cancel_left, ih]

/-- Of the messages written, in whatever groups and chunks their bytes came, the reader has fired
those that are complete, and it holds the bytes it has not consumed. Nothing stays behind in the
writer. -/
theorem reader_fires_written (events : List WriterEvent)
    (hfits : ∀ msg ∈ messagesOf events, msg.Fits) :
    let w := ProtocolWriter.new.handleAll events
    let msgs := messagesOf events
    w.written.flatten ++ w.data.flatten = encodeAll msgs ∧ w.Scheduled ∧
      ∀ chunks : List Uint8Array, chunks.flatten <+: w.written.flatten →
        let received := chunks.flatten
        let read := ProtocolReader.new.acceptChunks chunks
        read.2 = arrived msgs received.length ∧
          read.1.incomingData.bytes = received.drop (consumed msgs received.length) ∧
          read.1.incomingData.totalLength = read.1.incomingData.bytes.length ∧
          (received = encodeAll msgs → read.2 = msgs ∧ read.1.incomingData.bytes = []) := by
  intro w msgs
  obtain ⟨hsched, hstream⟩ := handleAll_spec (w := .new) rfl
    (fun h => absurd rfl h) events
  have hstream : w.written.flatten ++ w.data.flatten = encodeAll msgs := hstream
  refine ⟨hstream, hsched, fun chunks hchunks => ?_⟩
  intro received read
  have hwait : ProtocolReader.new.Waiting := Nat.zero_lt_succ _
  obtain ⟨-, hdata, hfired⟩ := ProtocolReader.acceptChunks_eq hwait chunks
  have hpre : received <+: encodeAll msgs :=
    hchunks.trans (hstream ▸ List.prefix_append _ _)
  have hrun := run_beginning hfits hpre
  have hdata : read.1.incomingData.bytes = received.drop (consumed msgs received.length) :=
    hdata.trans (congrArg Prod.fst hrun)
  have hfired : read.2 = arrived msgs received.length := hfired.trans (congrArg Prod.snd hrun)
  refine ⟨hfired, hdata, (ChunkStream.length_bytes _).symm, fun hall => ⟨?_, ?_⟩⟩
  · rw [hfired, hall, arrived_all]
  · rw [hdata, hall, consumed_all, List.drop_length]

/-- Two messages, one of them empty, written in two buffers around a pause and received in
three chunks that cut the header of the second one. -/
theorem reader_fires_written_at_pause :
    let msg : ProtocolMessage := ⟨ProtocolMessageType.Regular, 1, 0, [7, 8]⟩
    let empty : ProtocolMessage := ⟨ProtocolMessageType.Ack, 0, 1, []⟩
    let events : List WriterEvent :=
      [.write msg, .timeout, .pause, .write empty, .timeout, .resume, .flush]
    let chunks := [msg.encode, [], empty.encode.take 4]
    chunks.flatten <+: (ProtocolWriter.new.handleAll events).written.flatten ∧
      (ProtocolReader.new.acceptChunks chunks).2 = [msg] := by
  intro msg empty events chunks
  have hfits : ∀ m ∈ messagesOf events, m.Fits := by
    intro m hm
    have hmem : m = msg ∨ m = empty := by simpa [events, messagesOf] using hm
    rcases hmem with rfl | rfl <;> constructor <;> decide
  have hpre : chunks.flatten <+: (ProtocolWriter.new.handleAll events).written.flatten := by
    decide
  have harrived : arrived (messagesOf events) chunks.flatten.length = [msg] := by
    decide
  refine ⟨hpre, ?_⟩
  rw [← harrived]
  exact ((reader_fires_written events hfits).2.2 chunks hpre).1

theorem arrived_prefix (msgs : List ProtocolMessage) (n : Nat) : arrived msgs n <+: msgs := by
  induction msgs generalizing n with
  | nil => exact nil_prefix
  | cons msg msgs ih =>
    rw [arrived]
    split_ifs
    · exact (prefix_cons_inj msg).2 (ih _)
    · exact nil_prefix

/-- The bytes tell the messages: no other messages have the same bytes, nor bytes that these start
with. -/
theorem encodeAll_prefix {msgs msgs' : List ProtocolMessage} (h : ∀ msg ∈ msgs, msg.Fits)
    (h' : ∀ msg ∈ msgs', msg.Fits) (hstart : encodeAll msgs <+: encodeAll msgs') :
    msgs <+: msgs' := by
  have hread := run_beginning h (prefix_refl (encodeAll msgs))
  rw [run_beginning h' hstart, arrived_all] at hread
  rw [← (Prod.mk.inj hread).2]
  exact arrived_prefix _ _

/-- An empty message, and the same with another one behind it. -/
theorem encodeAll_prefix_short :
    [(⟨1, 2, 3, []⟩ : ProtocolMessage)] <+: [⟨1, 2, 3, []⟩, ⟨4, 0, 0, [5]⟩] := by
  have hfits : (⟨1, 2, 3, []⟩ : ProtocolMessage).Fits := by constructor <;> decide
  have hfits' : (⟨4, 0, 0, [5]⟩ : ProtocolMessage).Fits := by constructor <;> decide
  exact encodeAll_prefix (by simpa using hfits) (by simpa using ⟨hfits, hfits'⟩) (by decide)

/-- What a reader fires and keeps depends on the bytes alone, whatever they are, not on where the
stream was cut. -/
theorem acceptChunks_cut (chunks : List Uint8Array) :
    let cut := ProtocolReader.new.acceptChunks chunks
    let whole := ProtocolReader.new.acceptChunks [chunks.flatten]
    cut.2 = whole.2 ∧ cut.1.state = whole.1.state ∧
      cut.1.incomingData.bytes = whole.1.incomingData.bytes := by
  have hwait : ProtocolReader.new.Waiting := Nat.zero_lt_succ _
  obtain ⟨hstate, hdata, hfired⟩ := ProtocolReader.acceptChunks_eq hwait chunks
  obtain ⟨hstate', hdata', hfired'⟩ := ProtocolReader.acceptChunks_eq hwait [chunks.flatten]
  rw [flatten_singleton] at hstate' hdata' hfired'
  exact ⟨hfired.trans hfired'.symm, hstate.trans hstate'.symm, hdata.trans hdata'.symm⟩

end CodeOss
