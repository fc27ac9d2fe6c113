import CodeOss.Ipc.WebSocket

/-! WebSocket frames as they stand on the wire, and the masking of their payload. -/

namespace CodeOss

open Uint8Array WebSocketConstants List

inductive Opcode
  | continuation
  | text
  | binary
  | close
  | ping
  | pong
deriving DecidableEq, Repr

namespace Opcode

def code : Opcode → Nat
  | continuation => 0x00
  | text => 0x01
  | binary => 0x02
  | close => 0x08
  | ping => 0x09
  | pong => 0x0A

def isControl : Opcode → Bool
  | close | ping | pong => true
  | _ => false

end Opcode

structure MaskingKey where
  m3 : UInt8
  m2 : UInt8
  m1 : UInt8
  m0 : UInt8
deriving DecidableEq, Repr

namespace MaskingKey

variable (key : MaskingKey)

def bytes : Uint8Array := [key.m3, key.m2, key.m1, key.m0]

def rotate : MaskingKey := ⟨key.m2, key.m1, key.m0, key.m3⟩

/-- Byte `i` is combined with byte `i mod 4` of the key. -/
def apply : MaskingKey → Uint8Array → Uint8Array
  | _, [] => []
  | key, x :: xs => (x ^^^ key.m3) :: apply key.rotate xs

theorem length_apply (xs : Uint8Array) : (key.apply xs).length = xs.length := by
  induction xs generalizing key with
  | nil => rfl
  | cons x xs ih => rw [apply, length_cons, ih, length_cons]

theorem apply_apply (xs : Uint8Array) : key.apply (key.apply xs) = xs := by
  induction xs generalizing key with
  | nil => rfl
  | cons x xs ih =>
    rw [apply, apply, ih, UInt8.xor_assoc, UInt8.xor_self, UInt8.xor_zero]

theorem apply_append (key : MaskingKey) (xs ys : Uint8Array) (h : xs.length % 4 = 0) :
    key.apply (xs ++ ys) = key.apply xs ++ key.apply ys := by
  match xs, h with
  | [], _ => rfl
  | x :: y :: z :: w :: xs, h =>
    simp only [length_cons] at h
    have hrec := apply_append key xs ys (by omega)
    simp only [cons_append, apply, rotate, hrec]
  | [_], h | [_, _], h | [_, _, _], h =>
    simp only [length_cons, length_nil] at h
    omega

theorem apply_zero (xs : Uint8Array) : apply ⟨0, 0, 0, 0⟩ xs = xs := by
  induction xs with
  | nil => rfl
  | cons x xs ih => rw [apply, UInt8.xor_zero, show rotate ⟨0, 0, 0, 0⟩ = ⟨0, 0, 0, 0⟩ from rfl, ih]

end MaskingKey

variable (x y z w : UInt8)

def word : Nat :=
  x.toNat * 2 ^ 24 + y.toNat * 2 ^ 16 + z.toNat * 2 ^ 8 + w.toNat

theorem word_lt : word x y z w < 2 ^ 32 := by
  have hx := x.toNat_lt
  have hy := y.toNat_lt
  have hz := z.toNat_lt
  have hw := w.toNat_lt
  unfold word
  omega

theorem word_bytes : word x y z w / 2 ^ 24 = x.toNat ∧ word x y z w / 2 ^ 16 % 2 ^ 8 = y.toNat ∧
    word x y z w / 2 ^ 8 % 2 ^ 8 = z.toNat ∧ word x y z w % 2 ^ 8 = w.toNat := by
  have hx := x.toNat_lt
  have hy := y.toNat_lt
  have hz := z.toNat_lt
  have hw := w.toNat_lt
  unfold word
  omega

variable (key : MaskingKey)

def MaskingKey.value : Nat := word key.m3 key.m2 key.m1 key.m0

theorem toUint8_eq {value : Int} {x : UInt8} (h : value % 2 ^ 8 = x.toNat) : toUint8 value = x := by
  rw [← UInt8.toNat_inj]
  have := toNat_toUint8 value
  omega

theorem bytes32BE_word {value : Int} {x y z w : UInt8} (h : value % 2 ^ 32 = word x y z w) :
    bytes32BE value = [x, y, z, w] := by
  obtain ⟨hx, hy, hz, hw⟩ := word_bytes x y z w
  have hlt := x.toNat_lt
  simp only [bytes32BE, shiftRight8]
  refine congrArg₂ List.cons (toUint8_eq ?_) (congrArg₂ List.cons (toUint8_eq ?_)
    (congrArg₂ List.cons (toUint8_eq ?_) (congrArg₂ List.cons (toUint8_eq ?_) rfl))) <;> omega

theorem readUInt32BE_word (done rest : Uint8Array) (x y z w : UInt8) :
    readUInt32BE (done ++ x :: y :: z :: w :: rest) done.length = some (word x y z w) := by
  have hlt := word_lt x y z w
  have hread := readUInt32BE_append done rest (show 0 ≤ (word x y z w : Int) by omega) (by omega)
  rw [bytes32BE_word (x := x) (y := y) (z := z) (w := w) (by omega), append_assoc] at hread
  exact hread

theorem bitXor_emod {a b : Nat} (ha : a < 2 ^ 32) (hb : b < 2 ^ 32) :
    bitXor a b % 2 ^ 32 = (a ^^^ b : Nat) := by
  have hlt := Nat.xor_lt_two_pow ha hb
  have hbits : (BitVec.ofNat 32 a ^^^ BitVec.ofNat 32 b).toNat = a ^^^ b := by
    rw [BitVec.toNat_xor, BitVec.toNat_ofNat, BitVec.toNat_ofNat, Nat.mod_eq_of_lt ha,
      Nat.mod_eq_of_lt hb]
  have hmod : ((a ^^^ b : Nat) : Int).bmod (2 ^ 32) % 2 ^ 32 = (a ^^^ b : Nat) % 2 ^ 32 :=
    Int.bmod_emod
  rw [bitXor, BitVec.toInt_eq_toNat_bmod, hbits, hmod]
  omega

theorem toUint8_bitXor (x y : UInt8) : toUint8 (bitXor x.toNat y.toNat) = x ^^^ y := by
  have hx := x.toNat_lt
  have hy := y.toNat_lt
  have hxor := bitXor_emod (a := x.toNat) (b := y.toNat) (by omega) (by omega)
  have hlt := Nat.xor_lt_two_pow hx hy
  apply toUint8_eq
  rw [UInt8.toNat_xor]
  omega

theorem word_xor (key : MaskingKey) :
    word x y z w ^^^ key.value = word (x ^^^ key.m3) (y ^^^ key.m2) (z ^^^ key.m1)
    (w ^^^ key.m0) := by
  obtain ⟨hx, hy, hz, hw⟩ := word_bytes x y z w
  obtain ⟨h3, h2, h1, h0⟩ := word_bytes key.m3 key.m2 key.m1 key.m0
  have hlt := Nat.xor_lt_two_pow (word_lt x y z w) (word_lt key.m3 key.m2 key.m1 key.m0)
  have hparts : ∀ n, n = n / 2 ^ 24 * 2 ^ 24 + n / 2 ^ 16 % 2 ^ 8 * 2 ^ 16 +
      n / 2 ^ 8 % 2 ^ 8 * 2 ^ 8 + n % 2 ^ 8 := by
    intro n
    omega
  rw [hparts (word x y z w ^^^ key.value)]
  simp only [MaskingKey.value, Nat.xor_div_two_pow, Nat.xor_mod_two_pow, hx, hy, hz, hw, h3, h2, h1,
    h0]
  simp only [word, UInt8.toNat_xor]

theorem unmask_words (cnt : Nat) {done : Uint8Array} (rest : Uint8Array)
    {i : Nat} (hdone : done.length = i * 4) (hrest : cnt * 4 ≤ rest.length) :
    (List.range' i cnt).foldl (fun buffer i =>
        let v := (readUInt32BE buffer (i * 4)).getD 0
        writeUInt32BE buffer (bitXor v key.value) (i * 4)) (done ++ rest) =
      done ++ key.apply (rest.take (cnt * 4)) ++ rest.drop (cnt * 4) := by
  induction cnt generalizing done rest i with
  | zero => simp [MaskingKey.apply]
  | succ cnt ih =>
    obtain ⟨x, y, z, w, rest, rfl⟩ : ∃ x y z w rest', rest = x :: y :: z :: w :: rest' := by
      match rest, hrest with
      | x :: y :: z :: w :: rest, _ => exact ⟨x, y, z, w, rest, rfl⟩
      | [], h | [_], h | [_, _], h | [_, _, _], h =>
        simp only [length_nil, length_cons] at h
        omega
    simp only [length_cons] at hrest
    have hstep : bytes32BE (bitXor (word x y z w) key.value) =
        [x ^^^ key.m3, y ^^^ key.m2, z ^^^ key.m1, w ^^^ key.m0] := by
      refine bytes32BE_word ?_
      rw [bitXor_emod (b := key.value) (word_lt x y z w) (word_lt _ _ _ _), word_xor]
    rw [range'_succ, foldl_cons, ← hdone, readUInt32BE_word, Option.getD_some,
      writeUInt32BE_append, hstep, ih _ (by simp [hdone]; omega) (by omega),
      show (cnt + 1) * 4 = cnt * 4 + 4 by omega]
    simp [MaskingKey.apply, MaskingKey.rotate]

theorem MaskingKey.value_bytes : key.value >>> 24 &&& 255 = key.m3.toNat ∧
    key.value >>> 16 &&& 255 = key.m2.toNat ∧ key.value >>> 8 &&& 255 = key.m1.toNat := by
  obtain ⟨h3, h2, h1, -⟩ := word_bytes key.m3 key.m2 key.m1 key.m0
  have hlt := key.m3.toNat_lt
  have hlow : ∀ n, n &&& 255 = n % 2 ^ 8 := fun n => Nat.and_two_pow_sub_one_eq_mod n 8
  simp only [hlow, Nat.shiftRight_eq_div_pow, MaskingKey.value, h3, h2, h1,
    Nat.mod_eq_of_lt hlt, and_self]

theorem unmask_tail (done : Uint8Array) {rest : Uint8Array} (hrest : rest.length < 4) :
    (let bytesLeft := (done ++ rest).length - done.length
    let buffer := if bytesLeft ≥ 1 then writeUInt8 (done ++ rest)
      (bitXor ((readUInt8 (done ++ rest) done.length).getD 0) key.m3.toNat) done.length
      else done ++ rest
    let buffer := if bytesLeft ≥ 2 then writeUInt8 buffer
      (bitXor ((readUInt8 buffer (done.length + 1)).getD 0) key.m2.toNat) (done.length + 1)
      else buffer
    if bytesLeft ≥ 3 then writeUInt8 buffer
      (bitXor ((readUInt8 buffer (done.length + 2)).getD 0) key.m1.toNat) (done.length + 2)
      else buffer) = done ++ key.apply rest := by
  match rest, hrest with
  | [], _ => simp [MaskingKey.apply]
  | [x], _ => simp [MaskingKey.apply, readUInt8, writeUInt8, toUint8_bitXor]
  | [x, y], _ =>
    simp [MaskingKey.apply, MaskingKey.rotate, readUInt8, writeUInt8, toUint8_bitXor]
  | [x, y, z], _ =>
    simp [MaskingKey.apply, MaskingKey.rotate, readUInt8, writeUInt8, toUint8_bitXor]
  | _ :: _ :: _ :: _ :: _, h =>
    simp only [length_cons] at h
    omega

theorem unmask_eq (buffer : Uint8Array) (key : MaskingKey) :
    unmask buffer key.value = key.apply buffer := by
  unfold unmask
  split_ifs with hzero
  · obtain ⟨h3, h2, h1, h0⟩ := word_bytes key.m3 key.m2 key.m1 key.m0
    rw [show word key.m3 key.m2 key.m1 key.m0 = 0 from hzero] at h3 h2 h1 h0
    have hkey : key = ⟨0, 0, 0, 0⟩ := by
      rw [MaskingKey.mk.injEq]
      simp only [← UInt8.toNat_inj, ← h3, ← h2, ← h1, ← h0]
      exact ⟨rfl, rfl, rfl, rfl⟩
    rw [hkey, MaskingKey.apply_zero]
  · have hwords := unmask_words key (buffer.length / 4) buffer
      (show ([] : Uint8Array).length = 0 * 4 from rfl) (by omega)
    rw [← range_eq_range', nil_append, nil_append] at hwords
    have hwordsLen : (key.apply (buffer.take (buffer.length / 4 * 4))).length =
        buffer.length / 4 * 4 := by
      rw [MaskingKey.length_apply, List.length_take]
      omega
    have htailLen : (buffer.drop (buffer.length / 4 * 4)).length < 4 := by
      rw [List.length_drop]
      omega
    have htail := MaskingKey.apply_append key (buffer.take (buffer.length / 4 * 4))
      (buffer.drop (buffer.length / 4 * 4)) (by rw [← MaskingKey.length_apply key, hwordsLen]; omega)
    rw [take_append_drop] at htail
    obtain ⟨h3, h2, h1⟩ := key.value_bytes
    dsimp only at hwords ⊢
    rw [hwords, htail, h3, h2, h1]
    generalize key.apply (buffer.take (buffer.length / 4 * 4)) = words at hwordsLen
    generalize buffer.drop (buffer.length / 4 * 4) = rest at htailLen
    rw [← hwordsLen]
    exact unmask_tail key words htailLen

/-- A frame below `2 ^ 32` bytes; `rsv1` marks the first frame of a compressed message. -/
structure Frame where
  fin : Bool
  rsv1 : Bool
  opcode : Opcode
  key : Option MaskingKey
  payload : Uint8Array
  size : payload.length < 2 ^ 32

namespace Frame

variable (f : Frame)

def firstByte : UInt8 :=
  UInt8.ofNat (f.fin.toNat * 128 + f.rsv1.toNat * 64 + f.opcode.code)

def shortLength (n : Nat) : Nat := if n < 126 then n else if n < 2 ^ 16 then 126 else 127

def secondByte : UInt8 :=
  UInt8.ofNat (f.key.isSome.toNat * 128 + shortLength f.payload.length)

/-- The length behind the second byte, most significant byte first. -/
def extendedLength (n : Nat) : Uint8Array :=
  if n < 126 then []
  else if n < 2 ^ 16 then [UInt8.ofNat (n / 2 ^ 8), UInt8.ofNat n]
  else [0, 0, 0, 0] ++ bytes32BE n

def keyBytes : Uint8Array := (f.key.map MaskingKey.bytes).getD []

def header : Uint8Array :=
  f.firstByte :: f.secondByte :: (extendedLength f.payload.length ++ f.keyBytes)

def masked : Uint8Array := (f.key.map (·.apply f.payload)).getD f.payload

def encode : Uint8Array := f.header ++ f.masked

def encodeAll (frames : List Frame) : Uint8Array := frames.flatMap encode

def maskValue : Nat := (f.key.map MaskingKey.value).getD 0

theorem length_masked : f.masked.length = f.payload.length := by
  unfold masked
  cases f.key with
  | none => rfl
  | some key => exact key.length_apply f.payload

theorem unmask_masked : unmask f.masked f.maskValue = f.payload := by
  unfold masked maskValue
  cases f.key with
  | none => rfl
  | some key => exact (unmask_eq _ key).trans (key.apply_apply f.payload)

theorem firstByte_bits : (f.firstByte.toNat &&& 0b10000000) >>> 7 = f.fin.toNat ∧ (f.firstByte.toNat
    &&& 0b01000000) >>> 6 = f.rsv1.toNat ∧ f.firstByte.toNat &&& 0b00001111 = f.opcode.code := by
  unfold firstByte
  cases f.fin <;> cases f.rsv1 <;> cases f.opcode <;> decide

theorem shortLength_lt (n : Nat) : shortLength n < 128 := by
  unfold shortLength
  split_ifs <;> omega

theorem secondByte_bits : (f.secondByte.toNat &&& 0b10000000) >>> 7 =
    f.key.isSome.toNat ∧ f.secondByte.toNat &&& 0b01111111 = shortLength f.payload.length := by
  have hlt := shortLength_lt f.payload.length
  have hflag := Bool.toNat_le f.key.isSome
  have hbyte : f.secondByte.toNat = f.key.isSome.toNat * 128 + shortLength f.payload.length := by
    rw [secondByte, UInt8.toNat_ofNat', Nat.mod_eq_of_lt (by omega)]
  obtain ⟨hhigh, hlow⟩ := and_bits f.secondByte.toNat
  rw [hhigh, hlow, Nat.shiftRight_eq_div_pow, hbyte]
  omega

theorem header_length : f.header.length = MinHeaderByteSize + (if f.key.isSome.toNat ≠ 0
    then 4 else 0) + (if shortLength f.payload.length = 126 then 2 else 0) + (if shortLength
    f.payload.length = 127 then 8 else 0) := by
  have hkey : f.keyBytes.length = if f.key.isSome.toNat ≠ 0 then 4 else 0 := by
    unfold keyBytes
    cases f.key <;> rfl
  simp only [header, length_cons, length_append, hkey, MinHeaderByteSize, extendedLength,
    shortLength]
  split_ifs <;> simp [bytes32BE] at * <;> omega

end Frame

end CodeOss
