import Mathlib

/-! The compressed messages of a tunnel: a stream over the flate codec, whose output buffer doubles
while it is full, and the sink and the decoder at the two ends. -/

namespace CodeOss.Cli

open List

inductive Status
  | ok
  | bufError
  | streamEnd
deriving DecidableEq

inductive FlushCompress
  | sync
  | finish

inductive FlushDecompress
  | none
  | finish

def FlushCompress.mode (finish : Bool) : FlushCompress := if finish then .finish else .sync

def FlushDecompress.mode (finish : Bool) : FlushDecompress := if finish then .finish else .none

/-- A compressor or a decompressor of the flate library, with its modes of flushing. A call reads
its input and overwrites its output, a slice of fixed length. -/
structure Codec (S F E : Type) where
  totalIn : S → ℕ
  totalOut : S → ℕ
  run : S → List UInt8 → List UInt8 → F → S × List UInt8 × Except E Status
  length_run : ∀ s input output flush, (run s input output flush).2.1.length = output.length

inductive IoError (E : Type)
  | invalidInput (e : E)
  | unexpectedEof (message : String)

structure FlateAlgorithm (S E : Type) where
  totalIn : S → ℕ
  totalOut : S → ℕ
  process : S → List UInt8 → List UInt8 → Bool → S × List UInt8 × Except (IoError E) Status

def Codec.flateAlgorithm {S F E : Type} (c : Codec S F E) (mode : Bool → F) :
    FlateAlgorithm S E where
  totalIn := c.totalIn
  totalOut := c.totalOut
  process s contents output finish :=
    let (s, output, status) := c.run s contents output (mode finish)
    (s, output, status.mapError .invalidInput)

def decompressFlateAlgorithm {S E : Type} (c : Codec S FlushDecompress E) : FlateAlgorithm S E :=
  c.flateAlgorithm FlushDecompress.mode

def compressFlateAlgorithm {S E : Type} (c : Codec S FlushCompress E) : FlateAlgorithm S E :=
  c.flateAlgorithm FlushCompress.mode

structure FlateStream (S : Type) where
  flate : S
  output : List UInt8

namespace FlateStream

variable {S E : Type}

def new (alg : S) : FlateStream S := ⟨alg, List.replicate 4096 0⟩

def resize (output : List UInt8) (length : ℕ) : List UInt8 :=
  output.take length ++ List.replicate (length - output.length) 0

/-- The loop of a call; `none` is a slice out of range, or a loop that does not end in time. -/
def processFrom (a : FlateAlgorithm S E) (contents : List UInt8) (finish : Bool) :
    ℕ → FlateStream S → ℕ → ℕ → Option (FlateStream S × Except (IoError E) (List UInt8))
  | 0, _, _, _ => none
  | fuel + 1, stream, outOffset, inOffset =>
    if inOffset ≤ contents.length ∧ outOffset ≤ stream.output.length then
      let inBefore := a.totalIn stream.flate
      let outBefore := a.totalOut stream.flate
      let (flate, written, status) :=
        a.process stream.flate (contents.drop inOffset) (stream.output.drop outOffset) finish
      let output := stream.output.take outOffset ++ written
      match status with
      | .ok .streamEnd => some (⟨flate, output⟩, .error (.unexpectedEof "unexpected stream end"))
      | .error e => some (⟨flate, output⟩, .error e)
      | .ok _ =>
        let processedLen := inOffset + (a.totalIn flate - inBefore)
        let outputLen := outOffset + (a.totalOut flate - outBefore)
        if processedLen < contents.length ∨ outputLen = output.length then
          let output :=
            if outputLen = output.length then resize output (output.length * 2) else output
          processFrom a contents finish fuel ⟨flate, output⟩ outputLen processedLen
        else if outputLen ≤ output.length then
          some (⟨flate, output⟩, .ok (output.take outputLen))
        else none
    else none

def process (a : FlateAlgorithm S E) (fuel : ℕ) (stream : FlateStream S) (contents : List UInt8)
    (finish : Bool) : Option (FlateStream S × Except (IoError E) (List UInt8)) :=
  processFrom a contents finish fuel stream 0 0

end FlateStream

structure ServerMessageSink (S : Type) where
  flate : Option (FlateStream S)

namespace ServerMessageSink

variable {S E : Type}

def newPlain : ServerMessageSink S := ⟨none⟩

def newCompressed (alg : S) : ServerMessageSink S := ⟨some (.new alg)⟩

def getServerMsgContent (c : Codec S FlushCompress E) (fuel : ℕ) (sink : ServerMessageSink S)
    (body : List UInt8) (finish : Bool) : Option (ServerMessageSink S × List UInt8) :=
  match sink.flate with
  | some flate => do
      let (flate, result) ← flate.process (compressFlateAlgorithm c) fuel body finish
      match result with
      | .ok compressed => some (⟨some flate⟩, compressed)
      | .error _ => some (⟨some flate⟩, body)
  | none => some (sink, body)

end ServerMessageSink

structure ClientMessageDecoder (S : Type) where
  dec : Option (FlateStream S)

namespace ClientMessageDecoder

variable {S E : Type}

def newPlain : ClientMessageDecoder S := ⟨none⟩

def newCompressed (alg : S) : ClientMessageDecoder S := ⟨some (.new alg)⟩

def decode (c : Codec S FlushDecompress E) (fuel : ℕ) (decoder : ClientMessageDecoder S)
    (message : List UInt8) :
    Option (ClientMessageDecoder S × Except (IoError E) (List UInt8)) :=
  match decoder.dec with
  | some d => do
      let (d, result) ← d.process (decompressFlateAlgorithm c) fuel message false
      some (⟨some d⟩, result)
  | none => some (decoder, .ok message)

end ClientMessageDecoder

section Messages

variable {S D E E' : Type}

/-- Each body goes through the sink, and what comes out of it through the decoder. -/
def exchange (c : Codec S FlushCompress E) (d : Codec D FlushDecompress E') (fuel : ℕ) :
    ServerMessageSink S → ClientMessageDecoder D → List (List UInt8) →
      Option (ServerMessageSink S × ClientMessageDecoder D ×
        List (Except (IoError E') (List UInt8)))
  | sink, decoder, [] => some (sink, decoder, [])
  | sink, decoder, body :: bodies => do
      let (sink, message) ← sink.getServerMsgContent c fuel body false
      let (decoder, decoded) ← decoder.decode d fuel message
      let (sink, decoder, rest) ← exchange c d fuel sink decoder bodies
      some (sink, decoder, decoded :: rest)

end Messages

section Laws

variable {S D F E E' : Type}

/-- A call that succeeds, before the end of the stream. -/
def Codec.Advances (c : Codec S F E) (flush : F) (s : S) (input output : List UInt8) (s' : S)
    (written : List UInt8) : Prop :=
  ∃ status, status ≠ .streamEnd ∧ c.run s input output flush = (s', written, .ok status)

/-- What a codec has read and written, and how much it may still write for an input. -/
structure Flow (S : Type) where
  live : S → Prop
  consumed : S → List UInt8
  emitted : S → List UInt8
  bound : S → List UInt8 → ℕ
  drained : S → Prop

/-- A call that reads `n` bytes and writes `k`. Without input it adds no more than a marker of the
flush, which is far shorter than the first buffer. -/
structure Flow.Call (f : Flow S) (s : S) (input output : List UInt8) (s' : S)
    (written : List UInt8) (n k : ℕ) : Prop where
  live : f.live s'
  le_input : n ≤ input.length
  le_output : k ≤ output.length
  consumed : f.consumed s' = f.consumed s ++ input.take n
  emitted : f.emitted s' = f.emitted s ++ written.take k
  progress : input ≠ [] → output ≠ [] → 0 < n + k
  bound : k + f.bound s' (input.drop n) ≤ f.bound s input + if input = [] then 4095 else 0
  drained : n = input.length → k < output.length → f.drained s'

structure Streams (c : Codec S F E) (flush : F) (f : Flow S) : Prop where
  totalIn : ∀ s, f.live s → c.totalIn s = (f.consumed s).length
  totalOut : ∀ s, f.live s → c.totalOut s = (f.emitted s).length
  call : ∀ s input output s' written, f.live s → c.Advances flush s input output s' written →
    ∃ n k, f.Call s input output s' written n k

/-- Decompression inverts compression: of a stream that is drained, what can be decoded is what
was read, a decompressor reads every stream that a compressor writes, and when it is drained it has
written what can be decoded. -/
structure FlateLaws (c : Codec S FlushCompress E) (d : Codec D FlushDecompress E')
    (f closing : Flow S) (g : Flow D) (decodable : List UInt8 → List UInt8) (c₀ : S) (d₀ : D) :
    Prop where
  sync : Streams c .sync f
  finish : Streams c .finish closing
  inflate : Streams d .none g
  live_closing : ∀ s, f.live s → closing.live s
  compressor : f.live c₀ ∧ f.consumed c₀ = [] ∧ f.emitted c₀ = []
  decompressor : g.live d₀ ∧ g.consumed d₀ = [] ∧ g.emitted d₀ = []
  sync_advances : ∀ s input output, f.live s →
    ∃ s' written, c.Advances .sync s input output s' written
  inflate_advances : ∀ s input output t, g.live s → f.live t →
    g.consumed s ++ input <+: f.emitted t →
    ∃ s' written, d.Advances .none s input output s' written
  inverts : ∀ s, f.live s → f.drained s → decodable (f.emitted s) = f.consumed s
  complete : ∀ s, g.live s → g.drained s → g.emitted s = decodable (g.consumed s)

end Laws

/-- With enough fuel the result is always this one. -/
def Yields {α : Type} (run : ℕ → Option α) (a : α) : Prop :=
  ∃ N, ∀ fuel, N ≤ fuel → run fuel = some a

theorem Yields.bind {α β : Type} {run : ℕ → Option α} {next : ℕ → α → Option β} {a : α} {b : β}
    (h : Yields run a) (hnext : Yields (next · a) b) :
    Yields (fun fuel => run fuel >>= next fuel) b := by
  obtain ⟨N, hN⟩ := h
  obtain ⟨M, hM⟩ := hnext
  refine ⟨max N M, fun fuel hfuel => ?_⟩
  show run fuel >>= next fuel = some b
  rw [hN fuel (le_of_max_le_left hfuel)]
  exact hM fuel (le_of_max_le_right hfuel)

namespace FlateStream

variable {S F E : Type} {c : Codec S F E} {mode : Bool → F} {f : Flow S} {start : S}
variable {contents : List UInt8} {finish : Bool} {stream : FlateStream S} {outOffset inOffset : ℕ}

/-- Between two rounds of the loop. Room for more than a marker is left as soon as all input is
read, so that a later round fills the buffer only with what was still to come. -/
structure Inside (f : Flow S) (start : S) (contents : List UInt8) (stream : FlateStream S)
    (outOffset inOffset : ℕ) : Prop where
  live : f.live stream.flate
  in_le : inOffset ≤ contents.length
  out_lt : outOffset < stream.output.length
  large : 4096 ≤ stream.output.length
  room : inOffset = contents.length → outOffset + 4096 ≤ stream.output.length
  consumed : f.consumed stream.flate = f.consumed start ++ contents.take inOffset
  emitted : f.emitted stream.flate = f.emitted start ++ stream.output.take outOffset

/-- What a call ends with: all is read and drained, or a call of the codec has failed. -/
def Settled (c : Codec S F E) (flush : F) (f : Flow S) (start : S) (contents : List UInt8) :
    FlateStream S × Except (IoError E) (List UInt8) → Prop
  | (stream, .ok out) =>
    (f.live stream.flate ∧ 4096 ≤ stream.output.length) ∧ f.drained stream.flate ∧
      f.consumed stream.flate = f.consumed start ++ contents ∧
      f.emitted stream.flate = f.emitted start ++ out
  | (_, .error _) => ∃ s n output, f.live s ∧ f.consumed s = f.consumed start ++ contents.take n ∧
      ∀ s' written, ¬ c.Advances flush s (contents.drop n) output s' written

theorem take_written {output written : List UInt8} {o k : ℕ} (ho : o ≤ output.length) :
    (output.take o ++ written).take (o + k) = output.take o ++ written.take k := by
  have hlength : (output.take o).length = o := length_take_of_le ho
  nth_rewrite 1 [← hlength]
  rw [take_length_add_append]

theorem length_resize {output : List UInt8} {length : ℕ} (h : output.length ≤ length) :
    (resize output length).length = length := by
  rw [resize, take_of_length_le h, length_append, length_replicate]
  omega

theorem take_resize {output : List UInt8} {length k : ℕ} (h : output.length ≤ length)
    (hk : k ≤ output.length) : (resize output length).take k = output.take k := by
  rw [resize, take_of_length_le h, take_append_of_le_length hk]

section Round

variable {flate flate' : S} {output written : List UInt8} {n k : ℕ}

theorem Inside.moved (h : Inside f start contents ⟨flate, output⟩ outOffset inOffset)
    (hcall : f.Call flate (contents.drop inOffset) (output.drop outOffset) flate' written n k) :
    f.consumed flate' = f.consumed start ++ contents.take (inOffset + n) ∧ f.emitted flate' =
    f.emitted start ++ (output.take outOffset ++ written).take (outOffset + k) := by
  rw [hcall.consumed, h.consumed, List.append_assoc, ← List.take_add, hcall.emitted, h.emitted,
    List.append_assoc, take_written h.out_lt.le]
  exact ⟨rfl, rfl⟩

theorem Inside.next (h : Inside f start contents ⟨flate, output⟩ outOffset inOffset)
    (hcall : f.Call flate (contents.drop inOffset) (output.drop outOffset) flate' written n k)
    (hlength : (output.take outOffset ++ written).length = output.length)
    (hmore : inOffset + n < contents.length ∨ outOffset + k = output.length) :
    Inside f start contents ⟨flate', if outOffset + k = output.length then
      resize (output.take outOffset ++ written) (output.length * 2)
      else output.take outOffset ++ written⟩ (outOffset + k) (inOffset + n) ∧
    contents.length - (inOffset + n) + f.bound flate' (contents.drop (inOffset + n)) <
      contents.length - inOffset + f.bound flate (contents.drop inOffset) := by
  obtain ⟨hconsumed, hemitted⟩ := h.moved hcall
  have hn := hcall.le_input
  have hk := hcall.le_output
  have hin := h.in_le
  have hout := h.out_lt
  have hlarge := h.large
  have hroom := h.room
  have hbound := hcall.bound
  rw [List.length_drop] at hn hk
  rw [List.drop_drop] at hbound
  dsimp only at hout hlarge hroom hk
  refine ⟨?_, ?_⟩
  · by_cases hfull : outOffset + k = output.length
    · have htwice : (resize (output.take outOffset ++ written) (output.length * 2)).length =
          output.length * 2 := length_resize (by omega)
      rw [if_pos hfull]
      refine ⟨hcall.live, by omega, by dsimp only; omega, by dsimp only; omega,
        fun _ => by dsimp only; omega, hconsumed, ?_⟩
      rw [hemitted, take_resize (by omega) (by omega)]
    · have hleft := hmore.resolve_right hfull
      rw [if_neg hfull]
      exact ⟨hcall.live, by omega, by dsimp only; omega, by dsimp only; omega,
        fun hend => by omega, hconsumed, hemitted⟩
  · by_cases hnil : contents.drop inOffset = []
    · -- Only a full buffer leads here, which is more than a marker.
      have hend := drop_eq_nil_iff.mp hnil
      rw [if_pos hnil] at hbound
      have hspace := hroom (le_antisymm hin hend)
      omega
    · have hpos := hcall.progress hnil (fun hempty => by
        have := drop_eq_nil_iff.mp hempty
        omega)
      rw [if_neg hnil] at hbound
      omega

end Round

theorem processFrom_round
    (hstreams : Streams c (mode finish) f) (h : Inside f start contents stream outOffset inOffset) :
    (∃ result, Settled c (mode finish) f start contents result ∧ ∀ fuel, processFrom
    (c.flateAlgorithm mode) contents finish (fuel + 1) stream outOffset inOffset = some result) ∨
    ∃ stream' outOffset' inOffset', Inside f start contents stream' outOffset' inOffset' ∧
    contents.length - inOffset' + f.bound stream'.flate (contents.drop inOffset') <
    contents.length - inOffset + f.bound stream.flate (contents.drop inOffset) ∧ ∀ fuel,
    processFrom (c.flateAlgorithm mode) contents finish (fuel + 1) stream outOffset inOffset =
    processFrom (c.flateAlgorithm mode) contents finish fuel stream' outOffset' inOffset' := by
  obtain ⟨flate, output⟩ := stream
  have hguard := And.intro h.in_le h.out_lt.le
  have hwritten := c.length_run flate (contents.drop inOffset) (output.drop outOffset) (mode finish)
  rcases hrun : c.run flate (contents.drop inOffset) (output.drop outOffset) (mode finish) with
    ⟨flate', written, status⟩
  have hprocess : (c.flateAlgorithm mode).process flate (contents.drop inOffset)
      (output.drop outOffset) finish = (flate', written, status.mapError .invalidInput) := by
    simp only [Codec.flateAlgorithm, hrun]
  rw [hrun, List.length_drop] at hwritten
  by_cases hadvances : ∃ status', status' ≠ .streamEnd ∧ status = .ok status'
  · obtain ⟨status', hne, rfl⟩ := hadvances
    obtain ⟨n, k, hcall⟩ := hstreams.call _ _ _ _ _ h.live ⟨status', hne, hrun⟩
    have hlength : (output.take outOffset ++ written).length = output.length := by
      rw [length_append, length_take_of_le hguard.2, hwritten]
      exact Nat.add_sub_cancel' hguard.2
    have htotalIn : c.totalIn flate' - c.totalIn flate = n := by
      rw [hstreams.totalIn _ hcall.live, hstreams.totalIn _ h.live, hcall.consumed,
        length_append, length_take_of_le hcall.le_input, Nat.add_sub_cancel_left]
    have htotalOut : c.totalOut flate' - c.totalOut flate = k := by
      have hk : k ≤ written.length := by
        rw [hwritten, ← List.length_drop]
        exact hcall.le_output
      rw [hstreams.totalOut _ hcall.live, hstreams.totalOut _ h.live, hcall.emitted,
        length_append, length_take_of_le hk, Nat.add_sub_cancel_left]
    have hround : ∀ fuel, processFrom (c.flateAlgorithm mode) contents finish (fuel + 1)
        ⟨flate, output⟩ outOffset inOffset =
        if inOffset + n < contents.length ∨ outOffset + k = output.length then
          processFrom (c.flateAlgorithm mode) contents finish fuel ⟨flate',
            if outOffset + k = output.length then
              resize (output.take outOffset ++ written) (output.length * 2)
            else output.take outOffset ++ written⟩ (outOffset + k) (inOffset + n)
        else if outOffset + k ≤ output.length then
          some (⟨flate', output.take outOffset ++ written⟩,
            .ok ((output.take outOffset ++ written).take (outOffset + k)))
        else none := by
      intro fuel
      rw [processFrom, if_pos hguard]
      simp only [hprocess, Except.mapError, hlength]
      cases status' with
      | ok => simp only [Codec.flateAlgorithm, htotalIn, htotalOut]
      | bufError => simp only [Codec.flateAlgorithm, htotalIn, htotalOut]
      | streamEnd => exact (hne rfl).elim
    by_cases hmore : inOffset + n < contents.length ∨ outOffset + k = output.length
    · right
      obtain ⟨hinside, hless⟩ := h.next hcall hlength hmore
      exact ⟨_, _, _, hinside, hless, fun fuel => by rw [hround, if_pos hmore]⟩
    · left
      rw [not_or, not_lt] at hmore
      have hn := hcall.le_input
      have hk := hcall.le_output
      rw [List.length_drop] at hn hk
      have hin := h.in_le
      have hout : outOffset < output.length := h.out_lt
      obtain ⟨hconsumed, hemitted⟩ := h.moved hcall
      rw [show inOffset + n = contents.length by omega, take_length] at hconsumed
      have hlarge : 4096 ≤ (output.take outOffset ++ written).length := hlength.symm ▸ h.large
      refine ⟨(⟨flate', output.take outOffset ++ written⟩,
        .ok ((output.take outOffset ++ written).take (outOffset + k))),
        ⟨⟨hcall.live, hlarge⟩, hcall.drained ?_ ?_, hconsumed, hemitted⟩, fun fuel => ?_⟩
      · rw [List.length_drop]
        omega
      · rw [List.length_drop]
        omega
      · rw [hround, if_neg (by omega), if_pos (by omega)]
  · left
    have hfails : ∀ s' w, ¬ c.Advances (mode finish) flate (contents.drop inOffset)
        (output.drop outOffset) s' w := by
      rintro s' w ⟨status', hne, heq⟩
      rw [hrun] at heq
      exact hadvances ⟨status', hne, congrArg (·.2.2) heq⟩
    have hsettled : ∀ e, Settled c (mode finish) f start contents
        (⟨flate', output.take outOffset ++ written⟩, .error e) :=
      fun _ => ⟨flate, inOffset, output.drop outOffset, h.live, h.consumed, hfails⟩
    cases status with
    | error e =>
      refine ⟨_, hsettled (.invalidInput e), fun fuel => ?_⟩
      rw [processFrom, if_pos hguard]
      simp only [hprocess, Except.mapError]
    | ok status =>
      have hend : status = .streamEnd := not_not.mp fun hne => hadvances ⟨status, hne, rfl⟩
      refine ⟨_, hsettled (.unexpectedEof "unexpected stream end"), fun fuel => ?_⟩
      rw [processFrom, if_pos hguard]
      simp only [hprocess, Except.mapError, hend]

theorem processFrom_yields
    (hstreams : Streams c (mode finish) f) (h : Inside f start contents stream outOffset inOffset) :
    ∃ result, Settled c (mode finish) f start contents result ∧ Yields (fun fuel => processFrom
    (c.flateAlgorithm mode) contents finish fuel stream outOffset inOffset) result := by
  -- On what is left to read and what is still to come.
  induction hleft : contents.length - inOffset + f.bound stream.flate (contents.drop inOffset)
    using Nat.strong_induction_on generalizing stream outOffset inOffset with
  | _ left ih =>
    rcases processFrom_round hstreams h with
      ⟨result, hsettled, hround⟩ | ⟨stream', outOffset', inOffset', h', hless, hround⟩
    · refine ⟨result, hsettled, 1, fun fuel hfuel => ?_⟩
      obtain ⟨fuel, rfl⟩ := Nat.exists_eq_add_of_le' hfuel
      exact hround fuel
    · obtain ⟨result, hsettled, N, hN⟩ := ih _ (hleft ▸ hless) h' rfl
      refine ⟨result, hsettled, N + 1, fun fuel hfuel => ?_⟩
      obtain ⟨fuel, rfl⟩ := Nat.exists_eq_add_of_le' hfuel
      dsimp only
      rw [← Nat.add_assoc, hround]
      exact hN _ (Nat.le_add_left _ _)

variable (c mode finish) in
theorem process_yields (hstreams : Streams c (mode finish) f) (hlive : f.live stream.flate)
    (hlarge : 4096 ≤ stream.output.length) (contents : List UInt8) :
    ∃ result, Settled c (mode finish) f stream.flate contents result ∧
      Yields (fun fuel => stream.process (c.flateAlgorithm mode) fuel contents finish) result :=
  processFrom_yields hstreams ⟨hlive, Nat.zero_le _, by omega, hlarge, fun _ => by omega,
    by rw [take_zero, append_nil], by rw [take_zero, append_nil]⟩

end FlateStream

section Exchange

variable {S D E E' : Type} {c : Codec S FlushCompress E} {d : Codec D FlushDecompress E'}
variable {f closing : Flow S} {g : Flow D} {decodable : List UInt8 → List UInt8} {c₀ : S} {d₀ : D}

/-- Between two messages: the decompressor has read what the compressor has written, and written
what the compressor has read. -/
structure InStep (f : Flow S) (g : Flow D) (decodable : List UInt8 → List UInt8)
    (stream : FlateStream S) (dec : FlateStream D) : Prop where
  live : f.live stream.flate ∧ 4096 ≤ stream.output.length
  live_dec : g.live dec.flate ∧ 4096 ≤ dec.output.length
  consumed : g.consumed dec.flate = f.emitted stream.flate
  emitted : g.emitted dec.flate = f.consumed stream.flate

variable {stream : FlateStream S} {dec : FlateStream D}

section

variable (h : FlateLaws c d f closing g decodable c₀ d₀)
include h

theorem inStep_new : InStep f g decodable (.new c₀) (.new d₀) := by
  obtain ⟨hlive, hconsumed, hemitted⟩ := h.compressor
  obtain ⟨hlive', hconsumed', hemitted'⟩ := h.decompressor
  have hlength : (List.replicate 4096 (0 : UInt8)).length = 4096 := length_replicate
  exact ⟨⟨hlive, hlength.ge⟩, ⟨hlive', hlength.ge⟩, hconsumed'.trans hemitted.symm,
    hemitted'.trans hconsumed.symm⟩

theorem InStep.message (hstep : InStep f g decodable stream dec) (body : List UInt8) :
    ∃ stream' dec' message, InStep f g decodable stream' dec' ∧
    Yields (fun fuel => (⟨some stream⟩ : ServerMessageSink S).getServerMsgContent c fuel body false)
    (⟨some stream'⟩, message) ∧ Yields (fun fuel =>
    (⟨some dec⟩ : ClientMessageDecoder D).decode d fuel message) (⟨some dec'⟩, .ok body) := by
  obtain ⟨⟨stream', compressed⟩, hsettled, hsend⟩ := FlateStream.process_yields
    c FlushCompress.mode false h.sync hstep.live.1 hstep.live.2 body
  cases compressed with
  | error e =>
    obtain ⟨s, n, output, hlive, -, hfails⟩ := hsettled
    obtain ⟨s', written, hadvances⟩ := h.sync_advances s (body.drop n) output hlive
    exact (hfails s' written hadvances).elim
  | ok message =>
    obtain ⟨hlive, hdrained, hconsumed, hemitted⟩ := hsettled
    obtain ⟨⟨dec', decoded⟩, hsettled', hdecode⟩ := FlateStream.process_yields
      d FlushDecompress.mode false h.inflate hstep.live_dec.1 hstep.live_dec.2 message
    cases decoded with
    | error e =>
      obtain ⟨s, n, output, hlive', hread, hfails⟩ := hsettled'
      have hstart : g.consumed s ++ message.drop n = f.emitted stream'.flate := by
        rw [hread, append_assoc, take_append_drop, hstep.consumed, hemitted]
      obtain ⟨s', written, hadvances⟩ := h.inflate_advances s (message.drop n) output
        stream'.flate hlive' hlive.1 (hstart ▸ prefix_rfl)
      exact (hfails s' written hadvances).elim
    | ok decoded =>
      obtain ⟨hlive', hdrained', hconsumed', hemitted'⟩ := hsettled'
      have hstream : g.consumed dec'.flate = f.emitted stream'.flate := by
        rw [hconsumed', hstep.consumed, hemitted]
      have hall : g.emitted dec'.flate = f.consumed stream'.flate := by
        rw [h.complete _ hlive'.1 hdrained', hstream, h.inverts _ hlive.1 hdrained]
      have hbody : decoded = body := by
        rw [hemitted', hconsumed, hstep.emitted] at hall
        exact append_cancel_left hall
      rw [hbody] at hdecode
      exact ⟨stream', dec', message, ⟨hlive, hlive', hstream, hall⟩,
        hsend.bind ⟨0, fun _ _ => rfl⟩, hdecode.bind ⟨0, fun _ _ => rfl⟩⟩

theorem InStep.exchange (hstep : InStep f g decodable stream dec) (bodies : List (List UInt8)) :
    ∃ stream' dec', InStep f g decodable stream' dec' ∧ Yields (fun fuel => exchange c d fuel
    ⟨some stream⟩ ⟨some dec⟩ bodies) (⟨some stream'⟩, ⟨some dec'⟩, bodies.map .ok) := by
  induction bodies generalizing stream dec with
  | nil => exact ⟨stream, dec, hstep, 0, fun _ _ => rfl⟩
  | cons body bodies ih =>
    obtain ⟨stream₁, dec₁, message, hstep₁, hsend, hdecode⟩ := hstep.message h body
    obtain ⟨stream', dec', hstep', hrest⟩ := ih hstep₁
    refine ⟨stream', dec', hstep', hsend.bind (hdecode.bind (hrest.bind ?_))⟩
    exact ⟨0, fun _ _ => rfl⟩

end

/-- The bodies come out as they went in, one for each message, and the two streams can go on. Every
call ends, of a stream in any state, and the closing one as well. -/
theorem exchange_eq (h : FlateLaws c d f closing g decodable c₀ d₀) :
    (∀ bodies, ∃ stream dec, (f.live stream.flate ∧ 4096 ≤ stream.output.length) ∧
      (g.live dec.flate ∧ 4096 ≤ dec.output.length) ∧
      Yields (fun fuel => exchange c d fuel (.newCompressed c₀) (.newCompressed d₀) bodies)
        (⟨some stream⟩, ⟨some dec⟩, bodies.map .ok)) ∧
    (∀ stream : FlateStream S, f.live stream.flate → 4096 ≤ stream.output.length →
      ∀ contents finish, ∃ result, Yields (fun fuel =>
        stream.process (compressFlateAlgorithm c) fuel contents finish) result) ∧
    ∀ stream : FlateStream D, g.live stream.flate → 4096 ≤ stream.output.length →
      ∀ contents, ∃ result, Yields (fun fuel =>
        stream.process (decompressFlateAlgorithm d) fuel contents false) result := by
  refine ⟨fun bodies => ?_, fun stream hlive hlarge contents finish => ?_,
    fun stream hlive hlarge contents => ?_⟩
  · obtain ⟨stream', dec', hstep, hyields⟩ := (inStep_new h).exchange h bodies
    exact ⟨stream', dec', hstep.live, hstep.live_dec, hyields⟩
  · cases finish with
    | false =>
      obtain ⟨result, -, hyields⟩ := FlateStream.process_yields c FlushCompress.mode false
        h.sync hlive hlarge contents
      exact ⟨result, hyields⟩
    | true =>
      obtain ⟨result, -, hyields⟩ := FlateStream.process_yields c FlushCompress.mode true
        h.finish (h.live_closing _ hlive) hlarge contents
      exact ⟨result, hyields⟩
  · obtain ⟨result, -, hyields⟩ := FlateStream.process_yields d FlushDecompress.mode false
      h.inflate hlive hlarge contents
    exact ⟨result, hyields⟩

end Exchange

section Literals

/-- Codes are written from their highest bit on, everything else from its lowest. -/
def reverseBits : ℕ → ℕ → ℕ
  | 0, _ => 0
  | width + 1, n => n % 2 * 2 ^ width + reverseBits width (n / 2)

def fixedCode (n : ℕ) : ℕ :=
  if n < 144 then reverseBits 8 (0x30 + n) else reverseBits 9 (0x190 + (n - 144))

def ofFixedCode (m : ℕ) : ℕ :=
  let code := reverseBits 8 (m % 256)
  if code < 0xC0 then code - 0x30 else reverseBits 9 m - 0x190 + 144

/-- The two bytes of a block with one literal, its code behind the three bits of the header. -/
def literalBytes (b : UInt8) : UInt8 × UInt8 :=
  (UInt8.ofNat ((2 + 8 * fixedCode b.toNat) % 256), UInt8.ofNat ((2 + 8 * fixedCode b.toNat) / 256))

def ofLiteralBytes (x y : UInt8) : UInt8 :=
  UInt8.ofNat (ofFixedCode ((x.toNat + 256 * y.toNat - 2) / 8))

theorem ofLiteralBytes_literalBytes (b : UInt8) :
    ofLiteralBytes (literalBytes b).1 (literalBytes b).2 = b := by
  have hall : ∀ n < 256, ofLiteralBytes (literalBytes (UInt8.ofNat n)).1
      (literalBytes (UInt8.ofNat n)).2 = UInt8.ofNat n := by
    decide +kernel
  have h := hall b.toNat b.toNat_lt
  rwa [UInt8.ofNat_toNat] at h

/-- The empty block of a flush, or a block with one literal and the empty block behind it. -/
def block : Option UInt8 → List UInt8
  | none => [0, 0, 0, 0xFF, 0xFF]
  | some b => [(literalBytes b).1, (literalBytes b).2, 0, 0, 0, 0xFF, 0xFF]

def inflated : List UInt8 → List UInt8
  | 0 :: 0 :: 0 :: 0xFF :: 0xFF :: rest => inflated rest
  | x :: y :: 0 :: 0 :: 0 :: 0xFF :: 0xFF :: rest => ofLiteralBytes x y :: inflated rest
  | _ => []

theorem inflated_literal (x y : UInt8) (rest : List UInt8) : inflated
    (x :: y :: 0 :: 0 :: 0 :: 0xFF :: 0xFF :: rest) = ofLiteralBytes x y :: inflated rest := by
  rw [inflated]

theorem inflated_prefix (a b : List UInt8) : inflated a <+: inflated (a ++ b) := by
  fun_induction inflated a with
  | case1 rest ih => exact ih
  | case2 x y rest ih =>
    simp only [cons_append, inflated_literal]
    exact (prefix_cons_inj _).mpr ih
  | case3 a => exact nil_prefix

theorem inflated_blocks (blocks : List (Option UInt8)) :
    inflated (blocks.flatMap block) = blocks.reduceOption := by
  induction blocks with
  | nil => rfl
  | cons first blocks ih =>
    cases first with
    | none => exact ih
    | some b =>
      rw [reduceOption_cons_of_some]
      exact (inflated_literal _ _ _).trans (congrArg₂ List.cons (ofLiteralBytes_literalBytes b) ih)

def emit (all : List UInt8) (sent : ℕ) (output : List UInt8) : ℕ × List UInt8 :=
  let k := min (all.length - sent) output.length
  (k, (all.drop sent).take k ++ output.drop k)

variable {all output : List UInt8} {sent : ℕ}

theorem length_emit : (emit all sent output).2.length = output.length := by
  simp only [emit, length_append, List.length_take, List.length_drop]
  omega

theorem emit_le : (emit all sent output).1 ≤ all.length - sent ∧
    (emit all sent output).1 ≤ output.length := ⟨min_le_left _ _, min_le_right _ _⟩

theorem emit_of_lt (h : (emit all sent output).1 < output.length) :
    (emit all sent output).1 = all.length - sent :=
  (min_choice _ _).resolve_right h.ne

theorem take_emit : all.take (sent + (emit all sent output).1) =
    all.take sent ++ (emit all sent output).2.take (emit all sent output).1 := by
  have hlength : ((all.drop sent).take (emit all sent output).1).length =
      (emit all sent output).1 := by
    simp only [emit, List.length_take, List.length_drop]
    omega
  rw [take_add]
  exact congrArg _ (take_left' hlength).symm

/-- The blocks of a compressor that writes one literal to a block, and how much of them it has put
out. -/
structure Deflating where
  blocks : List (Option UInt8)
  sent : ℕ

def Deflating.read (s : Deflating) (input : List UInt8) : List (Option UInt8) :=
  s.blocks ++ if input = [] then [none] else input.map some

def literalCompress : Codec Deflating FlushCompress Unit where
  totalIn s := s.blocks.reduceOption.length
  totalOut s := s.sent
  run s input output
    | .sync =>
      let (k, output) := emit ((s.read input).flatMap block) s.sent output
      (⟨s.read input, s.sent + k⟩, output, .ok .ok)
    | .finish => (s, output, .ok .streamEnd)
  length_run _ _ _
    | .sync => length_emit
    | .finish => rfl

/-- The letter a, as a deflate stream writes it. -/
example : (literalCompress.run ⟨[], 0⟩ [97] (List.replicate 8 0) .sync).2.1 =
    [0x4A, 0x04, 0x00, 0x00, 0x00, 0xFF, 0xFF, 0] := by decide

structure Inflating where
  consumed : List UInt8
  sent : ℕ

def literalDecompress : Codec Inflating FlushDecompress Unit where
  totalIn s := s.consumed.length
  totalOut s := s.sent
  run s input output _ :=
    let (k, output) := emit (inflated (s.consumed ++ input)) s.sent output
    (⟨s.consumed ++ input, s.sent + k⟩, output, .ok .ok)
  length_run _ _ _ _ := length_emit

def deflatingFlow : Flow Deflating where
  live s := s.sent ≤ (s.blocks.flatMap block).length
  consumed s := s.blocks.reduceOption
  emitted s := (s.blocks.flatMap block).take s.sent
  bound s input := (s.blocks.flatMap block).length - s.sent + 7 * input.length
  drained s := s.sent = (s.blocks.flatMap block).length

def inflatingFlow : Flow Inflating where
  live s := s.sent ≤ (inflated s.consumed).length
  consumed s := s.consumed
  emitted s := (inflated s.consumed).take s.sent
  bound s input := (inflated (s.consumed ++ input)).length - s.sent
  drained s := s.sent = (inflated s.consumed).length

theorem Deflating.length_read (s : Deflating) (input : List UInt8) :
    ((s.read input).flatMap block).length =
      (s.blocks.flatMap block).length + if input = [] then 5 else 7 * input.length := by
  have hliterals : ((input.map some).flatMap block).length = 7 * input.length := by
    induction input with
    | nil => rfl
    | cons b input ih =>
      rw [map_cons, flatMap_cons, length_append, ih, length_cons, Nat.mul_succ, Nat.add_comm]
      rfl
  rw [read, flatMap_append, length_append]
  split
  · rfl
  · rw [hliterals]

theorem Deflating.reduceOption_read (s : Deflating) (input : List UInt8) :
    (s.read input).reduceOption = s.blocks.reduceOption ++ input := by
  have hliterals : (input.map some).reduceOption = input := by
    rw [List.reduceOption, filterMap_map]
    exact filterMap_some
  rw [read, reduceOption_append]
  split
  · rename_i hnil
    rw [hnil]
    rfl
  · rw [hliterals]

theorem streams_compress : Streams literalCompress .sync deflatingFlow where
  totalIn _ _ := rfl
  totalOut s hs := (length_take_of_le hs).symm
  call s input output s' written hs h := by
    obtain ⟨status, -, hrun⟩ := h
    obtain rfl := congrArg (·.1) hrun
    obtain rfl := congrArg (·.2.1) hrun
    have hs : s.sent ≤ (s.blocks.flatMap block).length := hs
    have hlength := s.length_read input
    have hfit := @emit_le ((s.read input).flatMap block) output s.sent
    have hkept : ((s.read input).flatMap block).take s.sent =
        (s.blocks.flatMap block).take s.sent := by
      rw [Deflating.read, flatMap_append, take_append_of_le_length hs]
    refine ⟨input.length, (emit ((s.read input).flatMap block) s.sent output).1, ?_, le_refl _,
      hfit.2, ?_, ?_, fun hne _ => ?_, ?_, fun _ hlt => ?_⟩
    · show s.sent + _ ≤ ((s.read input).flatMap block).length
      omega
    · rw [take_length]
      exact s.reduceOption_read input
    · exact take_emit.trans (congrArg (· ++ _) hkept)
    · exact Nat.add_pos_left (length_pos_iff.mpr hne) _
    · show _ + (((s.read input).flatMap block).length - (s.sent + _) + 7 * (input.drop _).length) ≤
        (s.blocks.flatMap block).length - s.sent + 7 * input.length + _
      rw [drop_length, length_nil]
      by_cases hnil : input = []
      · rw [if_pos hnil] at hlength ⊢
        omega
      · rw [if_neg hnil] at hlength ⊢
        omega
    · show s.sent + _ = ((s.read input).flatMap block).length
      have := emit_of_lt hlt
      omega

theorem streams_finish : Streams literalCompress .finish deflatingFlow where
  totalIn _ _ := rfl
  totalOut s hs := (length_take_of_le hs).symm
  call s input output s' written hs h := by
    obtain ⟨status, hne, hrun⟩ := h
    exact (hne (Except.ok.inj (congrArg (·.2.2) hrun)).symm).elim

theorem streams_decompress : Streams literalDecompress .none inflatingFlow where
  totalIn _ _ := rfl
  totalOut s hs := (length_take_of_le hs).symm
  call s input output s' written hs h := by
    obtain ⟨status, -, hrun⟩ := h
    obtain rfl := congrArg (·.1) hrun
    obtain rfl := congrArg (·.2.1) hrun
    have hs : s.sent ≤ (inflated s.consumed).length := hs
    have hstart := inflated_prefix s.consumed input
    have hle := hstart.length_le
    have hfit := @emit_le (inflated (s.consumed ++ input)) output s.sent
    have hkept : (inflated (s.consumed ++ input)).take s.sent =
        (inflated s.consumed).take s.sent := by
      obtain ⟨rest, hrest⟩ := hstart
      rw [← hrest, take_append_of_le_length hs]
    refine ⟨input.length, (emit (inflated (s.consumed ++ input)) s.sent output).1, ?_, le_refl _,
      hfit.2, ?_, ?_, fun hne _ => ?_, ?_, fun _ hlt => ?_⟩
    · show s.sent + _ ≤ (inflated (s.consumed ++ input)).length
      omega
    · rw [take_length]
      rfl
    · exact take_emit.trans (congrArg (· ++ _) hkept)
    · exact Nat.add_pos_left (length_pos_iff.mpr hne) _
    · show _ + ((inflated (s.consumed ++ input ++ input.drop _)).length - (s.sent + _)) ≤
        (inflated (s.consumed ++ input)).length - s.sent + _
      rw [drop_length, append_nil]
      omega
    · show s.sent + _ = (inflated (s.consumed ++ input)).length
      have := emit_of_lt hlt
      omega

theorem literal_laws : FlateLaws literalCompress literalDecompress deflatingFlow deflatingFlow
    inflatingFlow inflated ⟨[], 0⟩ ⟨[], 0⟩ where
  sync := streams_compress
  finish := streams_finish
  inflate := streams_decompress
  live_closing _ h := h
  compressor := ⟨le_refl _, rfl, rfl⟩
  decompressor := ⟨le_refl _, rfl, rfl⟩
  sync_advances _ _ _ _ := ⟨_, _, .ok, nofun, rfl⟩
  inflate_advances _ _ _ _ _ _ _ := ⟨_, _, .ok, nofun, rfl⟩
  inverts s _ h := by
    show inflated ((s.blocks.flatMap block).take s.sent) = s.blocks.reduceOption
    rw [show s.sent = _ from h, take_length, inflated_blocks]
  complete s _ h := by
    show (inflated s.consumed).take s.sent = inflated s.consumed
    rw [show s.sent = _ from h, take_length]

theorem exchange_literal : ∃ stream dec,
    (stream.flate.sent ≤ (stream.flate.blocks.flatMap block).length ∧
      4096 ≤ stream.output.length) ∧
    (dec.flate.sent ≤ (inflated dec.flate.consumed).length ∧ 4096 ≤ dec.output.length) ∧
    Yields (fun fuel => exchange literalCompress literalDecompress fuel (.newCompressed ⟨[], 0⟩)
      (.newCompressed ⟨[], 0⟩) [[], [97]]) (⟨some stream⟩, ⟨some dec⟩, [.ok [], .ok [97]]) :=
  (exchange_eq literal_laws).1 [[], [97]]

end Literals

end CodeOss.Cli
