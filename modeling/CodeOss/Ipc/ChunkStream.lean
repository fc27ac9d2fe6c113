import CodeOss.Base.Uint8Array

/-! The queue of received chunks, read as one stream of bytes. -/

namespace CodeOss

open List

/-- A chunk stream knows the number of its bytes. -/
structure ChunkStream where
  chunks : List Uint8Array
  totalLength : Nat
  total_eq : totalLength = chunks.flatten.length

namespace ChunkStream

def empty : ChunkStream := ⟨[], 0, rfl⟩

variable (s : ChunkStream)

def bytes : Uint8Array := s.chunks.flatten

def acceptChunk (buff : Uint8Array) : ChunkStream :=
  ⟨s.chunks ++ [buff], s.totalLength + buff.length, by simp [s.total_eq]⟩

/-- The loop of `_read`: what it has read, and the chunks it leaves. -/
def takeChunks : List Uint8Array → Nat → Uint8Array × List Uint8Array
  | chunks, 0 => ([], chunks)
  | [], _ + 1 => ([], [])
  | chunk :: chunks, byteCount + 1 =>
    if chunk.length > byteCount + 1 then
      -- This chunk survives.
      (chunk.take (byteCount + 1), chunk.drop (byteCount + 1) :: chunks)
    else
      let (result, rest) := takeChunks chunks (byteCount + 1 - chunk.length)
      (chunk ++ result, rest)

theorem takeChunks_eq (chunks : List Uint8Array) (n : Nat) : (takeChunks chunks n).1 =
    chunks.flatten.take n ∧ (takeChunks chunks n).2.flatten = chunks.flatten.drop n := by
  induction chunks generalizing n with
  | nil => cases n <;> simp [takeChunks]
  | cons chunk chunks ih =>
    cases n with
    | zero => simp [takeChunks]
    | succ n =>
      rw [takeChunks]
      split_ifs with hlong
      · simp only [flatten_cons, take_append_of_le_length (Nat.le_of_lt hlong),
          drop_append_of_le_length (Nat.le_of_lt hlong), and_self]
      · obtain ⟨hresult, hrest⟩ := ih (n + 1 - chunk.length)
        have hle : chunk.length ≤ n + 1 := by omega
        simp only [flatten_cons, take_append, drop_append, hresult, hrest,
          take_of_length_le hle, drop_of_length_le hle, nil_append, and_self]

/-- `none` is the error of a read behind the end. -/
def read (byteCount : Nat) (advance : Bool) : Option (Uint8Array × ChunkStream) :=
  if byteCount = 0 then some ([], s)
  else if byteCount > s.totalLength then none
  else
    match h : s.chunks with
    | [] => none
    | chunk :: chunks =>
      if hsame : chunk.length = byteCount then
        -- Precisely the first chunk is returned.
        some (chunk, if advance then ⟨chunks, s.totalLength - byteCount, by
          rw [s.total_eq, h, flatten_cons, length_append, hsame]
          omega⟩ else s)
      else if hlong : chunk.length > byteCount then
        -- The reading is entirely within the first chunk.
        some (chunk.take byteCount, if advance then
          ⟨chunk.drop byteCount :: chunks, s.totalLength - byteCount, by
            rw [s.total_eq, h]
            simp only [flatten_cons, length_append, List.length_drop]
            omega⟩ else s)
      else
        let taken := takeChunks (chunk :: chunks) byteCount
        some (taken.1, if advance then ⟨taken.2, s.totalLength - byteCount, by
          rw [(takeChunks_eq _ _).2, List.length_drop, ← h, s.total_eq]⟩ else s)

theorem length_bytes : s.bytes.length = s.totalLength := s.total_eq.symm

@[simp] theorem bytes_empty : empty.bytes = [] := rfl

@[simp] theorem bytes_acceptChunk (buff : Uint8Array) :
    (s.acceptChunk buff).bytes = s.bytes ++ buff := by
  simp [acceptChunk, bytes]

theorem read_eq_none {s : ChunkStream} {n : Nat} {advance : Bool} (h : s.totalLength < n) :
    s.read n advance = none := by
  rw [read, if_neg (by omega), if_pos h]

theorem read_spec {n : Nat} (advance : Bool) (h : n ≤ s.totalLength) :
    ∃ s', s.read n advance = some (s.bytes.take n, s') ∧
      s'.bytes = if advance then s.bytes.drop n else s.bytes := by
  by_cases hzero : n = 0
  · refine ⟨s, ?_, ?_⟩
    · rw [read, if_pos hzero, hzero, take_zero]
    · rw [hzero, drop_zero, ite_self]
  rw [read, if_neg hzero, if_neg (by omega)]
  have hlen := s.total_eq
  have hstay : ∀ t : ChunkStream, t.bytes = s.bytes.drop n →
      (if advance then t else s).bytes = if advance then s.bytes.drop n else s.bytes := by
    intro t ht
    cases advance with
    | true => exact ht
    | false => rfl
  split
  · next hchunks =>
    rw [hchunks, flatten_nil, length_nil] at hlen
    omega
  · next chunk chunks hchunks =>
    have hbytes : s.bytes = chunk ++ chunks.flatten := by rw [bytes, hchunks, flatten_cons]
    have hflat : (chunk :: chunks).flatten = s.bytes := by rw [bytes, hchunks]
    by_cases hsame : chunk.length = n
    · rw [dif_pos hsame]
      refine ⟨_, congrArg some (Prod.ext ?_ rfl), hstay _ ?_⟩
      · rw [hbytes, take_left' hsame]
      · rw [hbytes, drop_left' hsame]
        rfl
    rw [dif_neg hsame]
    by_cases hlong : chunk.length > n
    · rw [dif_pos hlong]
      refine ⟨_, congrArg some (Prod.ext ?_ rfl), hstay _ ?_⟩
      · rw [hbytes, take_append_of_le_length (by omega)]
      · rw [hbytes, drop_append_of_le_length (by omega)]
        rfl
    · rw [dif_neg hlong]
      refine ⟨_, congrArg some (Prod.ext ?_ rfl), hstay _ ?_⟩
      · rw [(takeChunks_eq _ _).1, hflat]
      · rw [bytes, (takeChunks_eq _ _).2, hflat]

theorem read_decreases {s s' : ChunkStream} {n : Nat} {advance : Bool} {buff : Uint8Array}
    (h : s.read n advance = some (buff, s')) :
    s'.totalLength + (if advance then n else 0) = s.totalLength := by
  rcases Nat.lt_or_ge s.totalLength n with hlt | hge
  · rw [read_eq_none hlt] at h
    exact absurd h nofun
  · obtain ⟨t, ht, hbytes⟩ := s.read_spec advance hge
    rw [ht, Option.some.injEq, Prod.mk.injEq] at h
    have hlen := congrArg List.length hbytes
    rw [h.2, length_bytes] at hlen
    split_ifs at hlen ⊢ with hadvance
    · rw [List.length_drop, length_bytes] at hlen
      omega
    · rw [length_bytes] at hlen
      omega

end ChunkStream

end CodeOss
