import CodeOss.Base.Uint8Array
import CodeOss.Tokens.ContiguousMultilineTokens

/-! Writing a block of tokens to bytes and reading it back. -/

namespace CodeOss

open List List

/-- `new Uint32Array(buffer, byteOffset, length)`: a view of a part of its buffer. -/
structure Uint32Array where
  buffer : Uint8Array
  byteOffset : ℕ
  length : ℕ
  inside : byteOffset + 4 * length ≤ buffer.length

namespace Uint32Array

variable (array : Uint32Array)

def byteLength : ℕ := 4 * array.length

def bytes : Uint8Array :=
  (array.buffer.drop array.byteOffset).take array.byteLength

theorem byteLength_le : array.byteLength ≤ array.buffer.length :=
  (Nat.le_add_left _ _).trans array.inside

theorem length_bytes : array.bytes.length = array.byteLength := by
  have := array.inside
  rw [bytes, List.length_take, List.length_drop, byteLength]
  omega

/-- `new Uint32Array(buffer).subarray(begin, end)`, where both are given in bytes and
rounded down. -/
def subarray (buffer : Uint8Array) (beginByte endByte : ℕ) : Uint32Array :=
  let first := min (beginByte / 4) (buffer.length / 4)
  let last := min (endByte / 4) (buffer.length / 4)
  ⟨buffer, 4 * first, last - first, by omega⟩

end Uint32Array

/-- `destination.set(source, offset)`; it throws, here `none`, when the source does not fit. -/
def Uint8Array.setBytes (destination source : Uint8Array) (offset : ℕ) : Option Uint8Array :=
  if offset + source.length ≤ destination.length then
    some (destination.take offset ++ source ++ destination.drop (offset + source.length))
  else none

namespace ContiguousMultilineTokens

open Uint8Array

/-- A block as it is serialized. A line that is not a `Uint32Array`, here `none`, is not
supported. -/
abbrev Serialized := ContiguousMultilineTokens (Option Uint32Array)

variable (block : Serialized)

/-- The start line number, the line count, and then the byte count and the bytes of each line. -/
def serializeSize : Option ℕ :=
  block.tokens.foldlM (fun result lineTokens => do
    let lineTokens ← lineTokens
    return result + 4 + lineTokens.byteLength) (4 + 4)

def serializeLine (destination : Uint8Array) (offset : ℕ) (lineTokens : Option Uint32Array) :
    Option (Uint8Array × ℕ) := do
  let lineTokens ← lineTokens
  let destination := destination.writeUInt32BE lineTokens.byteLength offset
  let offset := offset + 4
  let destination ← destination.setBytes lineTokens.buffer offset
  return (destination, offset + lineTokens.byteLength)

def serialize (destination : Uint8Array) (offset : ℕ) : Option (Uint8Array × ℕ) :=
  let destination := destination.writeUInt32BE block.startLineNumber offset
  let offset := offset + 4
  let destination := destination.writeUInt32BE block.tokens.length offset
  let offset := offset + 4
  block.tokens.foldlM (fun state lineTokens => serializeLine state.1 state.2 lineTokens)
    (destination, offset)

/-- The loop of `deserialize`: the lines are views of the bytes that are read. -/
def deserializeLines (buff : Uint8Array) : ℕ → ℕ → Option (List Uint32Array × ℕ)
  | 0, offset => some ([], offset)
  | count + 1, offset => do
      let byteCount ← buff.readUInt32BE offset
      let offset := offset + 4
      let tokens := Uint32Array.subarray buff offset (offset + byteCount)
      let (rest, offset) ← deserializeLines buff count (offset + byteCount)
      return (tokens :: rest, offset)

/-- `new Uint32Array(buff.buffer)` throws when the length is not a multiple of four. -/
def deserialize (buff : Uint8Array) (offset : ℕ) : Option (Serialized × ℕ) := do
  if buff.length % 4 ≠ 0 then none
  else
    let startLineNumber ← buff.readUInt32BE offset
    let offset := offset + 4
    let count ← buff.readUInt32BE offset
    let offset := offset + 4
    let (tokens, offset) ← deserializeLines buff count offset
    return (⟨startLineNumber, tokens.map some⟩, offset)

/-- What a block says: its lines word by word, wherever they are kept. -/
def contents : ℕ × List (Option Uint8Array) :=
  (block.startLineNumber, block.tokens.map (Option.map Uint32Array.bytes))

/-- Serialized into an array of the announced size, the block fills it and comes back. -/
def RoundTrips : Prop :=
  ∃ size, block.serializeSize = some size ∧ ∀ destination : Uint8Array,
    destination.length = size →
      ∃ written back, block.serialize destination 0 = some (written, size) ∧
        deserialize written 0 = some (back, size) ∧ back.contents = block.contents

def linesSize (lines : List Uint32Array) : ℕ := (lines.map fun line => 4 + line.byteLength).sum

/-- For every line its byte count and the beginning of its buffer. -/
def linesWritten (lines : List Uint32Array) : Uint8Array :=
  lines.flatMap fun line => bytes32BE line.byteLength ++ line.buffer.take line.byteLength

/-- The buffer of no line is longer than the room for it and for the lines behind it. -/
def BuffersFit : List Uint32Array → Prop
  | [] => True
  | line :: lines => line.buffer.length ≤ line.byteLength + linesSize lines ∧ BuffersFit lines

theorem length_bytes32BE (value : ℤ) : (bytes32BE value).length = 4 := rfl

theorem length_linesWritten (lines : List Uint32Array) :
    (linesWritten lines).length = linesSize lines := by
  induction lines with
  | nil => rfl
  | cons line lines ih =>
    have hle := line.byteLength_le
    simp only [linesWritten, linesSize, flatMap_cons, length_append, length_bytes32BE,
      List.length_take, map_cons, sum_cons] at ih ⊢
    rw [ih, Nat.min_eq_left hle]

theorem serializeSize_eq (startLineNumber : ℕ) (lines : List Uint32Array) :
    serializeSize ⟨startLineNumber, lines.map some⟩ = some (8 + linesSize lines) := by
  have hrun : ∀ result, (lines.map some).foldlM (fun result (lineTokens : Option Uint32Array) => do
      let lineTokens ← lineTokens
      return result + 4 + lineTokens.byteLength) result = some (result + linesSize lines) := by
    induction lines with
    | nil => exact fun _ => rfl
    | cons line lines ih =>
      intro result
      rw [map_cons, foldlM_cons]
      simp only [Option.bind_eq_bind, Option.bind_some, Option.pure_def]
      have hnext := ih (result + 4 + line.byteLength)
      simp only [Option.bind_eq_bind, Option.pure_def] at hnext
      rw [hnext, linesSize, linesSize, map_cons, sum_cons]
      congr 1
      omega
  exact hrun 8

theorem setBytes_append (done rest source : Uint8Array) :
    (done ++ rest).setBytes source done.length =
      if source.length ≤ rest.length then some (done ++ source ++ rest.drop source.length)
      else none := by
  rw [setBytes, length_append]
  simp only [Nat.add_le_add_iff_left]
  split_ifs
  · rw [take_left, drop_append]
    simp
  · rfl

instance decidableBuffersFit : (lines : List Uint32Array) → Decidable (BuffersFit lines)
  | [] => isTrue trivial
  | line :: lines =>
    have := decidableBuffersFit lines
    inferInstanceAs (Decidable (line.buffer.length ≤ line.byteLength + linesSize lines ∧ _))

theorem serializeLines_eq (lines : List Uint32Array) {done rest : Uint8Array}
    (hrest : rest.length = linesSize lines) :
    (lines.map some).foldlM (fun state lineTokens => serializeLine state.1 state.2 lineTokens)
        (done ++ rest, done.length) =
      if BuffersFit lines then
        some (done ++ linesWritten lines, done.length + linesSize lines)
      else none := by
  induction lines generalizing done rest with
  | nil =>
    obtain rfl := eq_nil_of_length_eq_zero hrest
    simp [BuffersFit, linesWritten, linesSize]
  | cons line lines ih =>
    have hsize : linesSize (line :: lines) = 4 + line.byteLength + linesSize lines := by
      rw [linesSize, map_cons, sum_cons, linesSize]
    obtain ⟨x, y, z, w, rest, rfl⟩ : ∃ x y z w rest', rest = x :: y :: z :: w :: rest' := by
      rw [hsize] at hrest
      match rest with
      | x :: y :: z :: w :: rest => exact ⟨x, y, z, w, rest, rfl⟩
      | [] => simp at hrest; omega
      | [_] => simp at hrest; omega
      | [_, _] => simp at hrest; omega
      | [_, _, _] => simp at hrest; omega
    have hlen : rest.length = line.byteLength + linesSize lines := by
      rw [hsize] at hrest
      simp only [length_cons] at hrest
      omega
    have hstep : serializeLine (done ++ x :: y :: z :: w :: rest) done.length (some line) =
        if line.buffer.length ≤ line.byteLength + linesSize lines then
          some (done ++ bytes32BE line.byteLength ++ line.buffer ++
            rest.drop line.buffer.length, done.length + 4 + line.byteLength)
        else none := by
      have hset := setBytes_append (done ++ bytes32BE line.byteLength) rest line.buffer
      rw [length_append, length_bytes32BE, hlen] at hset
      simp only [serializeLine, Option.bind_eq_bind, Option.bind_some, Option.pure_def,
        writeUInt32BE_append, hset]
      split_ifs <;> rfl
    rw [map_cons, foldlM_cons, hstep]
    by_cases hfit : line.buffer.length ≤ line.byteLength + linesSize lines
    · have hdone : done ++ bytes32BE line.byteLength ++ line.buffer ++
          rest.drop line.buffer.length =
          (done ++ bytes32BE line.byteLength ++ line.buffer.take line.byteLength) ++
            (line.buffer.drop line.byteLength ++ rest.drop line.buffer.length) := by
        rw [append_assoc _ (List.take _ _), ← append_assoc (List.take _ _),
          take_append_drop, append_assoc]
      have hlength : (done ++ bytes32BE line.byteLength ++
          line.buffer.take line.byteLength).length = done.length + 4 + line.byteLength := by
        rw [length_append, length_append, length_bytes32BE, length_take_of_le line.byteLength_le]
      have hroom : (line.buffer.drop line.byteLength ++
          rest.drop line.buffer.length).length = linesSize lines := by
        have := line.byteLength_le
        rw [length_append, List.length_drop, List.length_drop]
        omega
      have hnext := @ih (done ++ bytes32BE line.byteLength ++
        line.buffer.take line.byteLength) _ hroom
      rw [if_pos hfit, Option.bind_eq_bind, Option.bind_some, hdone]
      rw [hlength] at hnext
      rw [hnext]
      by_cases hlines : BuffersFit lines
      · rw [if_pos hlines, if_pos ⟨hfit, hlines⟩, hsize, linesWritten, linesWritten, flatMap_cons]
        simp only [append_assoc, Nat.add_assoc]
      · rw [if_neg hlines, if_neg fun h => hlines h.2]
    · rw [if_neg hfit, if_neg fun h => hfit h.1]
      rfl

theorem serialize_eq (startLineNumber : ℕ) (lines : List Uint32Array) {destination : Uint8Array}
    (hlength : destination.length = 8 + linesSize lines) : serialize ⟨startLineNumber, lines.map
    some⟩ destination 0 = if BuffersFit lines then some (bytes32BE startLineNumber ++ bytes32BE
    lines.length ++ linesWritten lines, 8 + linesSize lines) else none := by
  obtain ⟨x, y, z, w, x', y', z', w', rest, rfl⟩ : ∃ x y z w x' y' z' w' rest,
      destination = x :: y :: z :: w :: x' :: y' :: z' :: w' :: rest := by
    match destination with
    | x :: y :: z :: w :: x' :: y' :: z' :: w' :: rest =>
      exact ⟨x, y, z, w, x', y', z', w', rest, rfl⟩
    | [] | [_] | [_, _] | [_, _, _] | [_, _, _, _] | [_, _, _, _, _] | [_, _, _, _, _, _]
    | [_, _, _, _, _, _, _] =>
      simp only [length_cons, length_nil] at hlength
      omega
  have hrest : rest.length = linesSize lines := by
    simp only [length_cons] at hlength
    omega
  have hfirst := writeUInt32BE_append [] x y z w (x' :: y' :: z' :: w' :: rest) startLineNumber
  have hsecond := writeUInt32BE_append (bytes32BE startLineNumber) x' y' z' w' rest lines.length
  have hlines := @serializeLines_eq lines (bytes32BE startLineNumber ++ bytes32BE lines.length)
    rest hrest
  simp only [nil_append, length_nil] at hfirst
  rw [length_bytes32BE] at hsecond
  rw [length_append, length_bytes32BE, length_bytes32BE] at hlines
  simp only [serialize, length_map]
  rw [hfirst, hsecond]
  exact hlines

theorem bytes32BE_mod (value : ℤ) : bytes32BE (value % 2 ^ 32) = bytes32BE value := by
  have hlow : toUint8 (value % 2 ^ 32) = toUint8 value := by
    refine UInt8.toNat_inj.1 ?_
    have h := toNat_toUint8 value
    have h' := toNat_toUint8 (value % 2 ^ 32)
    omega
  have hshift : shiftRight8 (value % 2 ^ 32) = shiftRight8 value := by
    rw [shiftRight8, shiftRight8, Int.emod_emod_of_dvd _ dvd_rfl]
  rw [bytes32BE, bytes32BE, hlow, hshift]

theorem readUInt32BE_written (done rest : Uint8Array) (value : ℕ) :
    readUInt32BE (done ++ (bytes32BE value ++ rest)) done.length = some (value % 2 ^ 32) := by
  have hmod := bytes32BE_mod value
  have hread := @readUInt32BE_append done rest ((value : ℤ) % 2 ^ 32) (by omega) (by omega)
  rw [hmod, append_assoc] at hread
  rw [hread]
  rfl

theorem bytes_subarray {done body rest : Uint8Array}
    (hdone : done.length % 4 = 0) (hbody : body.length % 4 = 0) : (Uint32Array.subarray
    (done ++ (body ++ rest)) done.length (done.length + body.length)).bytes = body := by
  have hfirst : min (done.length / 4) ((done ++ (body ++ rest)).length / 4) = done.length / 4 :=
    Nat.min_eq_left (Nat.div_le_div_right (by rw [length_append]; omega))
  have hlast : min ((done.length + body.length) / 4) ((done ++ (body ++ rest)).length / 4) =
      (done.length + body.length) / 4 :=
    Nat.min_eq_left (Nat.div_le_div_right (by
      rw [length_append, length_append]
      omega))
  simp only [Uint32Array.bytes, Uint32Array.byteLength, Uint32Array.subarray, hfirst, hlast]
  have hoffset : 4 * (done.length / 4) = done.length := by omega
  have hlength : 4 * ((done.length + body.length) / 4 - done.length / 4) = body.length := by omega
  rw [hoffset, hlength, drop_left, take_left]

variable {offset : ℕ} {lines views : List Uint32Array} {startLineNumber : ℕ}

theorem length_bytes_subarray_le (buff : Uint8Array) (hoffset : offset % 4 = 0) (byteCount : ℕ) :
    (Uint32Array.subarray buff offset (offset + byteCount)).bytes.length ≤ byteCount := by
  rw [Uint32Array.length_bytes, Uint32Array.byteLength, Uint32Array.subarray]
  simp only
  omega

theorem deserializeLines_written {lines : List Uint32Array}
    (hsize : ∀ line ∈ lines, line.byteLength < 2 ^ 32) {done : Uint8Array}
    (hdone : done.length % 4 = 0) : ∃ views, deserializeLines (done ++ linesWritten lines)
    lines.length done.length = some (views, done.length + linesSize lines) ∧
    views.map Uint32Array.bytes = lines.map fun line => line.buffer.take line.byteLength := by
  induction lines generalizing done with
  | nil => exact ⟨[], by simp [deserializeLines, linesSize], rfl⟩
  | cons line lines ih =>
    obtain ⟨hline, hlines⟩ := forall_mem_cons.1 hsize
    have hbody : (line.buffer.take line.byteLength).length = line.byteLength :=
      length_take_of_le line.byteLength_le
    have hmod : line.byteLength % 4 = 0 := Nat.mul_mod_right 4 line.length
    have hwritten : linesWritten (line :: lines) = bytes32BE line.byteLength ++
        (line.buffer.take line.byteLength ++ linesWritten lines) := by
      rw [linesWritten, flatMap_cons, append_assoc, linesWritten]
    have hread := readUInt32BE_written done
      (line.buffer.take line.byteLength ++ linesWritten lines) line.byteLength
    rw [Nat.mod_eq_of_lt hline] at hread
    have hlength : (done ++ bytes32BE line.byteLength).length = done.length + 4 := by
      rw [length_append, length_bytes32BE]
    have hview := @bytes_subarray (done ++ bytes32BE line.byteLength)
      (line.buffer.take line.byteLength) (linesWritten lines) (by omega) (by omega)
    rw [hlength, hbody, append_assoc] at hview
    obtain ⟨views, hviews, hbytes⟩ := @ih hlines
      (done ++ bytes32BE line.byteLength ++ line.buffer.take line.byteLength) (by
        rw [length_append, hlength, hbody]
        omega)
    rw [length_append, hlength, hbody, append_assoc, append_assoc] at hviews
    refine ⟨Uint32Array.subarray (done ++ linesWritten (line :: lines)) (done.length + 4)
      (done.length + 4 + line.byteLength) :: views, ?_, ?_⟩
    · rw [hwritten, length_cons, deserializeLines, hread]
      simp only [Option.bind_eq_bind, Option.bind_some, Option.pure_def, hviews]
      rw [linesSize, linesSize, map_cons, sum_cons]
      congr 2
      omega
    · rw [hwritten, map_cons, map_cons, hview, hbytes]

theorem length_deserializeLines {buff : Uint8Array} {count offset' : ℕ}
    (h : deserializeLines buff count offset = some (views, offset')) : views.length = count := by
  induction count generalizing offset views with
  | zero =>
    obtain ⟨rfl, -⟩ := Prod.mk.inj (Option.some.inj h)
    rfl
  | succ count ih =>
    simp only [deserializeLines, Option.bind_eq_bind, Option.bind_eq_some_iff, Option.pure_def,
      Option.some.injEq, Prod.mk.injEq] at h
    obtain ⟨byteCount, -, ⟨rest, last⟩, hrest, rfl, rfl⟩ := h
    rw [length_cons, ih hrest]

theorem byteLength_lt_of_read {done : Uint8Array} (hdone : done.length % 4 = 0)
    (h : deserializeLines (done ++ linesWritten lines) lines.length done.length = some
    (views, offset))
    (hbytes : views.map Uint32Array.bytes = lines.map Uint32Array.bytes) :
    ∀ line ∈ lines, line.byteLength < 2 ^ 32 := by
  induction lines generalizing done views with
  | nil => exact fun _ hline => absurd hline not_mem_nil
  | cons line lines ih =>
    have hbody : (line.buffer.take line.byteLength).length = line.byteLength :=
      length_take_of_le line.byteLength_le
    have hmod : line.byteLength % 4 = 0 := Nat.mul_mod_right 4 line.length
    have hwritten : linesWritten (line :: lines) = bytes32BE line.byteLength ++
        (line.buffer.take line.byteLength ++ linesWritten lines) := by
      rw [linesWritten, flatMap_cons, append_assoc, linesWritten]
    have hread := readUInt32BE_written done
      (line.buffer.take line.byteLength ++ linesWritten lines) line.byteLength
    rw [hwritten, length_cons, deserializeLines, hread] at h
    simp only [Option.bind_eq_bind, Option.bind_some, Option.bind_eq_some_iff, Option.pure_def,
      Option.some.injEq, Prod.mk.injEq] at h
    obtain ⟨⟨rest, last⟩, hrest, rfl, rfl⟩ := h
    obtain ⟨hfirst, hothers⟩ := List.cons.inj hbytes
    have hle := length_bytes_subarray_le (done ++ (bytes32BE line.byteLength ++
      (line.buffer.take line.byteLength ++ linesWritten lines)))
      (show (done.length + 4) % 4 = 0 by omega) (line.byteLength % 2 ^ 32)
    rw [hfirst, Uint32Array.length_bytes] at hle
    have hlt : line.byteLength < 2 ^ 32 := by omega
    refine forall_mem_cons.2 ⟨hlt, ?_⟩
    have hlength : (done ++ bytes32BE line.byteLength ++
        line.buffer.take line.byteLength).length = done.length + 4 + line.byteLength := by
      rw [length_append, length_append, length_bytes32BE, hbody]
    refine @ih rest (done ++ bytes32BE line.byteLength ++ line.buffer.take line.byteLength)
      (by omega) ?_ hothers
    rw [hlength, append_assoc, append_assoc]
    rw [Nat.mod_eq_of_lt hlt] at hrest
    exact hrest

/-- Every number fits into 32 bits; the buffer of every line begins with the line, and the rest
of it is overwritten by the lines that follow. -/
structure Serializable (startLineNumber : ℕ) (lines : List Uint32Array) : Prop where
  start : startLineNumber < 2 ^ 32
  count : lines.length < 2 ^ 32
  sizes : ∀ line ∈ lines, line.byteLength < 2 ^ 32
  buffers : BuffersFit lines
  beginnings : ∀ line ∈ lines, line.buffer.take line.byteLength = line.bytes

theorem linesSize_mod (lines : List Uint32Array) : linesSize lines % 4 = 0 := by
  induction lines with
  | nil => rfl
  | cons line lines ih =>
    have : line.byteLength % 4 = 0 := Nat.mul_mod_right 4 line.length
    rw [linesSize, map_cons, sum_cons, ← linesSize]
    omega

theorem deserialize_written (startLineNumber : ℕ) (lines : List Uint32Array) :
    deserialize (bytes32BE startLineNumber ++ bytes32BE lines.length ++ linesWritten lines) 0 =
    (deserializeLines (bytes32BE startLineNumber ++ bytes32BE lines.length ++ linesWritten lines)
    (lines.length % 2 ^ 32) 8).map fun result =>
    (⟨startLineNumber % 2 ^ 32, result.1.map some⟩, result.2) := by
  have hmod := linesSize_mod lines
  have hlength : (bytes32BE startLineNumber ++ bytes32BE lines.length ++
      linesWritten lines).length = 8 + linesSize lines := by
    rw [length_append, length_append, length_linesWritten, length_bytes32BE, length_bytes32BE]
  have hstart := readUInt32BE_written [] (bytes32BE lines.length ++ linesWritten lines)
    startLineNumber
  have hcount := readUInt32BE_written (bytes32BE startLineNumber) (linesWritten lines) lines.length
  rw [nil_append, length_nil, ← append_assoc] at hstart
  rw [length_bytes32BE, ← append_assoc] at hcount
  rw [deserialize, hlength, if_neg (by omega), hstart]
  simp only [Option.bind_eq_bind, Option.bind_some, Nat.zero_add, hcount, Option.pure_def]
  cases deserializeLines (bytes32BE startLineNumber ++ bytes32BE lines.length ++
    linesWritten lines) (lines.length % 2 ^ 32) 8 <;> rfl

theorem contents_eq_iff {startLineNumber' : ℕ} {lines' : List Uint32Array} :
    contents ⟨startLineNumber, lines.map some⟩ = contents ⟨startLineNumber', lines'.map some⟩ ↔
      startLineNumber = startLineNumber' ∧
        lines.map Uint32Array.bytes = lines'.map Uint32Array.bytes := by
  have hsome (lines : List Uint32Array) : (lines.map some).map (Option.map Uint32Array.bytes) =
      (lines.map Uint32Array.bytes).map some := by
    rw [List.map_map, List.map_map]
    rfl
  rw [contents, contents, Prod.mk.injEq, hsome, hsome, map_inj_right fun _ _ h => Option.some.inj h]

theorem roundTrips_iff (startLineNumber : ℕ) (lines : List Uint32Array) :
    RoundTrips ⟨startLineNumber, lines.map some⟩ ↔ Serializable startLineNumber lines := by
  have hheader : (bytes32BE startLineNumber ++ bytes32BE lines.length).length = 8 := by
    rw [length_append, length_bytes32BE, length_bytes32BE]
  constructor
  · rintro ⟨size, hsize, h⟩
    rw [serializeSize_eq] at hsize
    obtain rfl := Option.some.inj hsize
    obtain ⟨written, back, hserialize, hdeserialize, hcontents⟩ :=
      h (replicate (8 + linesSize lines) 0) length_replicate
    rw [serialize_eq _ _ length_replicate] at hserialize
    by_cases hfit : BuffersFit lines
    · rw [if_pos hfit] at hserialize
      obtain ⟨rfl, -⟩ := Prod.mk.inj (Option.some.inj hserialize)
      rw [deserialize_written, Option.map_eq_some_iff] at hdeserialize
      obtain ⟨⟨views, offset⟩, hviews, hback⟩ := hdeserialize
      obtain ⟨rfl, -⟩ := Prod.mk.inj hback
      obtain ⟨hstart, hbytes⟩ := contents_eq_iff.1 hcontents
      have hcount := length_deserializeLines hviews
      have hlength := congrArg List.length hbytes
      rw [length_map, length_map, hcount] at hlength
      rw [hlength] at hviews
      have hsizes := byteLength_lt_of_read (by omega) (hheader ▸ hviews) hbytes
      obtain ⟨views', hviews', hbeginnings⟩ :=
        @deserializeLines_written lines hsizes (bytes32BE startLineNumber ++
          bytes32BE lines.length) (by omega)
      rw [hheader, hviews] at hviews'
      obtain ⟨rfl, -⟩ := Prod.mk.inj (Option.some.inj hviews')
      rw [hbeginnings] at hbytes
      exact ⟨by omega, by omega, hsizes, hfit, map_inj_left.1 hbytes⟩
    · rw [if_neg hfit] at hserialize
      cases hserialize
  · rintro ⟨hstart, hcount, hsizes, hfit, hbeginnings⟩
    refine ⟨_, serializeSize_eq _ _, fun destination hlength => ?_⟩
    obtain ⟨views, hviews, hbytes⟩ := @deserializeLines_written lines hsizes
      (bytes32BE startLineNumber ++ bytes32BE lines.length) (by omega)
    rw [hheader] at hviews
    refine ⟨bytes32BE startLineNumber ++ bytes32BE lines.length ++ linesWritten lines,
      ⟨startLineNumber, views.map some⟩, ?_, ?_, ?_⟩
    · rw [serialize_eq _ _ hlength, if_pos hfit]
    · rw [deserialize_written, Nat.mod_eq_of_lt hcount, hviews, Nat.mod_eq_of_lt hstart]
      rfl
    · rw [contents_eq_iff, hbytes]
      exact ⟨rfl, map_inj_left.2 hbeginnings⟩

theorem serializable_of_whole (hstart : startLineNumber < 2 ^ 32) (hcount : lines.length < 2 ^ 32)
    (hsizes : ∀ line ∈ lines, line.byteLength < 2 ^ 32)
    (hwhole : ∀ line ∈ lines, line.buffer.length = line.byteLength) :
    Serializable startLineNumber lines := by
  refine ⟨hstart, hcount, hsizes, ?_, fun line hline => ?_⟩
  · clear hcount hsizes
    induction lines with
    | nil => trivial
    | cons line lines ih =>
      obtain ⟨hline, hlines⟩ := forall_mem_cons.1 hwhole
      exact ⟨hline.le.trans (Nat.le_add_right _ _), ih hlines⟩
  · have hinside := line.inside
    have hoffset : line.byteOffset = 0 := by
      have := hwhole line hline
      rw [Uint32Array.byteLength] at this
      omega
    rw [Uint32Array.bytes, hoffset, drop_zero]

end ContiguousMultilineTokens

end CodeOss
