import Mathlib

/-! Reading and writing the numbers of a byte buffer.
A `Uint8Array` is the list of its bytes. As in JavaScript a write outside the array is
lost; a number read outside of it is `undefined`, here `none`. -/

namespace CodeOss

abbrev Uint8Array := List UInt8

namespace Uint8Array

variable (value : Int)

/-- Storing a number in an array of bytes keeps its lowest byte. -/
def toUint8 : UInt8 := UInt8.ofInt value

/-- `value >>> 8`: the operator reads its left operand modulo 2³². -/
def shiftRight8 : Int := value % 2 ^ 32 / 2 ^ 8

variable (destination : Uint8Array)

def writeUInt8 (value : Int) (offset : Nat) : Uint8Array :=
  destination.set offset (toUint8 value)

def writeUInt16LE (value : Int) (offset : Nat) : Uint8Array :=
  let destination := destination.set (offset + 0) (toUint8 value)
  let value := shiftRight8 value
  destination.set (offset + 1) (toUint8 value)

def writeUInt32BE (value : Int) (offset : Nat) : Uint8Array :=
  let destination := destination.set (offset + 3) (toUint8 value)
  let value := shiftRight8 value
  let destination := destination.set (offset + 2) (toUint8 value)
  let value := shiftRight8 value
  let destination := destination.set (offset + 1) (toUint8 value)
  let value := shiftRight8 value
  destination.set offset (toUint8 value)

def readUInt8 (source : Uint8Array) (offset : Nat) : Option Nat :=
  source[offset]?.map UInt8.toNat

/-- The bit operators turn an `undefined` byte into `0`. -/
def readUInt16LE (source : Uint8Array) (offset : Nat) : Nat :=
  (source[offset + 0]?.getD 0).toNat <<< 0 ||| (source[offset + 1]?.getD 0).toNat <<< 8

def readUInt32BE (source : Uint8Array) (offset : Nat) : Option Nat := do
  let b0 ← source[offset]?
  let b1 ← source[offset + 1]?
  let b2 ← source[offset + 2]?
  let b3 ← source[offset + 3]?
  return b0.toNat * 2 ^ 24 + b1.toNat * 2 ^ 16 + b2.toNat * 2 ^ 8 + b3.toNat

/-- The bytes `writeUInt32BE` leaves, most significant first. -/
def bytes32BE : Uint8Array :=
  [toUint8 (shiftRight8 (shiftRight8 (shiftRight8 value))),
    toUint8 (shiftRight8 (shiftRight8 value)), toUint8 (shiftRight8 value), toUint8 value]

def bytes16LE : Uint8Array := [toUint8 value, toUint8 (shiftRight8 value)]

theorem and_bits (x : Nat) : x &&& 128 = x / 128 % 2 * 128 ∧ x &&& 127 = x % 128 := by
  refine ⟨?_, Nat.and_two_pow_sub_one_eq_mod x 7⟩
  rw [show 128 = 2 ^ 7 from rfl, Nat.and_two_pow, Nat.testBit_eq_decide_div_mod_eq]
  rcases Nat.mod_two_eq_zero_or_one (x / 2 ^ 7) with hbit | hbit <;> rw [hbit] <;> rfl

theorem toNat_toUint8 : ((toUint8 value).toNat : Int) = value % 2 ^ 8 := by
  simp only [toUint8, UInt8.ofInt, UInt8.toNat_ofNat']
  omega

theorem writeUInt8_append (done : Uint8Array) (x : UInt8) (rest : Uint8Array) (value : Int) :
    writeUInt8 (done ++ x :: rest) value done.length = done ++ [toUint8 value] ++ rest := by
  simp [writeUInt8]

theorem writeUInt16LE_append (done : Uint8Array) (x y : UInt8) (rest : Uint8Array) (value : Int) :
    writeUInt16LE (done ++ x :: y :: rest) value done.length = done ++ bytes16LE value ++ rest := by
  simp [writeUInt16LE, bytes16LE]

theorem writeUInt32BE_append (done : Uint8Array) (x y z w : UInt8) (rest : Uint8Array)
    (value : Int) : writeUInt32BE (done ++ x :: y :: z :: w :: rest) value done.length =
      done ++ bytes32BE value ++ rest := by
  simp [writeUInt32BE, bytes32BE]

variable (done rest : Uint8Array)

theorem readUInt8_append {value : Int} (h0 : 0 ≤ value) (h : value < 2 ^ 8) :
    readUInt8 (done ++ [toUint8 value] ++ rest) done.length = some value.toNat := by
  have hval := toNat_toUint8 value
  simp only [readUInt8, List.append_assoc, List.getElem?_append_right le_rfl, Nat.sub_self,
    List.singleton_append, List.getElem?_cons_zero, Option.map_some]
  congr 1
  omega

theorem readUInt16LE_append {value : Int} (h0 : 0 ≤ value) (h : value < 2 ^ 16) :
    readUInt16LE (done ++ bytes16LE value ++ rest) done.length = value.toNat := by
  have hlo := toNat_toUint8 value
  have hhi := toNat_toUint8 (shiftRight8 value)
  have hshift : shiftRight8 value = value / 2 ^ 8 := by
    simp only [shiftRight8]
    omega
  have hlt : (toUint8 value).toNat < 2 ^ 8 := UInt8.toNat_lt _
  have hb0 : (done ++ bytes16LE value ++ rest)[done.length + 0]? = some (toUint8 value) := by
    simp [bytes16LE]
  have hb1 : (done ++ bytes16LE value ++ rest)[done.length + 1]? =
      some (toUint8 (shiftRight8 value)) := by
    simp [bytes16LE]
  rw [readUInt16LE, hb0, hb1, Option.getD_some, Option.getD_some, Nat.shiftLeft_zero, Nat.or_comm,
    ← Nat.shiftLeft_add_eq_or_of_lt hlt, Nat.shiftLeft_eq]
  omega

theorem readUInt32BE_append {value : Int} (h0 : 0 ≤ value) (h : value < 2 ^ 32) :
    readUInt32BE (done ++ bytes32BE value ++ rest) done.length = some value.toNat := by
  have hb0 := toNat_toUint8 value
  have hb1 := toNat_toUint8 (shiftRight8 value)
  have hb2 := toNat_toUint8 (shiftRight8 (shiftRight8 value))
  have hb3 := toNat_toUint8 (shiftRight8 (shiftRight8 (shiftRight8 value)))
  simp only [readUInt32BE, bytes32BE, List.append_assoc, List.cons_append, List.nil_append,
    List.getElem?_append_right (Nat.le_add_right _ _), List.getElem?_append_right le_rfl,
    Nat.sub_self, Nat.add_sub_cancel_left, List.getElem?_cons_zero, List.getElem?_cons_succ,
    Option.bind_eq_bind, Option.bind_some, Option.pure_def, Option.some.injEq]
  simp only [shiftRight8] at *
  omega

end Uint8Array

end CodeOss
