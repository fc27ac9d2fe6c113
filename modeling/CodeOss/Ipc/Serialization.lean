import CodeOss.Base.Uint8Array
import CodeOss.Base.JsString

/-! Values as bytes: a tag, a length in groups of seven bits, and the contents. -/

namespace CodeOss

namespace Uint8Array

/-- `array.subarray(start, stop)`: a negative index counts from the end. -/
def subarray (array : Uint8Array) (start stop : Int) : Uint8Array :=
  let index (i : Int) : Nat :=
    if i < 0 then (array.length + i).toNat else min i.toNat array.length
  (array.drop (index start)).take (index stop - index start)

end Uint8Array

/-- `Ω` are the values that only `JSON` takes apart. -/
inductive IpcValue (Ω : Type)
  | undefined
  | string (s : JsString)
  | nativeBuffer (buffer : Uint8Array)
  | vsBuffer (buffer : Uint8Array)
  | array (els : List (IpcValue Ω))
  | number (n : Int)
  | object (o : Ω)

/-- What the platform brings: UTF-8, and `JSON` with `none` for an error of `parse`. -/
structure Platform (Ω : Type) where
  fromString : JsString → Uint8Array
  toString : Uint8Array → JsString
  stringify : IpcValue Ω → JsString
  parse : JsString → Option (IpcValue Ω)

structure BufferReader where
  buffer : Uint8Array
  pos : Nat
deriving DecidableEq, Repr

namespace BufferReader

def read (r : BufferReader) (bytes : Int) : Uint8Array × BufferReader :=
  let result := r.buffer.subarray r.pos (r.pos + bytes)
  (result, { r with pos := r.pos + result.length })

theorem read_one {r : BufferReader} (h : r.pos < r.buffer.length) :
    (r.read 1).1 = [r.buffer[r.pos]] ∧ (r.read 1).2 = { r with pos := r.pos + 1 } := by
  have hlist : (r.read 1).1 = [r.buffer[r.pos]] := by
    have hcast : ((r.pos : Int) + 1).toNat = r.pos + 1 := by omega
    simp only [read, Uint8Array.subarray, if_neg (show ¬(r.pos : Int) < 0 by omega),
      if_neg (show ¬(r.pos : Int) + 1 < 0 by omega), Int.toNat_natCast, hcast,
      Nat.min_eq_left (Nat.le_of_lt h), Nat.min_eq_left (show r.pos + 1 ≤ r.buffer.length from h),
      Nat.add_sub_cancel_left]
    rw [List.drop_eq_getElem_cons h]
    rfl
  refine ⟨hlist, ?_⟩
  have hlen := congrArg List.length hlist
  rw [List.length_singleton] at hlen
  rw [← hlen]
  rfl

theorem read_end {r : BufferReader} (h : r.buffer.length ≤ r.pos) : (r.read 1).1 = [] := by
  simp only [read, Uint8Array.subarray, if_neg (show ¬(r.pos : Int) < 0 by omega),
    Int.toNat_natCast, Nat.min_eq_right h, List.drop_length, List.take_nil]

end BufferReader

/-- The loop of `readIntVQL`; `|=` works on 32 bits, and the bits of `undefined` are `0`. -/
def readIntVQLFrom (r : BufferReader) (n : Nat) (value : BitVec 32) : Int × BufferReader :=
  let next := r.read 1
  let byte := next.1[0]?.getD 0
  let value := value ||| BitVec.ofNat 32 (byte &&& 127).toNat <<< (n % 32)
  if byte &&& 128 = 0 then (value.toInt, next.2) else readIntVQLFrom next.2 (n + 7) value
termination_by r.buffer.length - r.pos
decreasing_by
  rcases Nat.lt_or_ge r.pos r.buffer.length with hlt | hge
  · obtain ⟨-, hnext⟩ := BufferReader.read_one hlt
    simp only [hnext]
    omega
  · have hempty : next.1 = [] := BufferReader.read_end hge
    rename_i hbit
    simp [byte, hempty] at hbit

def readIntVQL (r : BufferReader) : Int × BufferReader := readIntVQLFrom r 0 0

/-- The loop of `writeInt32VQL`; `>>>` works on 32 bits. -/
def vqlBytes (value : Int) : Uint8Array :=
  if value = 0 then []
  else
    let rest := value % 2 ^ 32 / 2 ^ 7
    UInt8.ofInt (value % 128 + if rest > 0 then 128 else 0) :: vqlBytes rest
termination_by if value < 0 then 2 ^ 32 else value.toNat
decreasing_by
  split_ifs <;> omega

def writeInt32VQL (value : Int) : Uint8Array := if value = 0 then [0] else vqlBytes value

namespace DataType

def Undefined : UInt8 := 0
def String : UInt8 := 1
def Buffer : UInt8 := 2
def VSBuffer : UInt8 := 3
def Array : UInt8 := 4
def Object : UInt8 := 5
def Int : UInt8 := 6

end DataType

section Codec

variable {Ω : Type} (P : Platform Ω)

/-- A tag and bytes behind their number. -/
def writeBytes (type : UInt8) (buffer : Uint8Array) : Uint8Array :=
  type :: (writeInt32VQL buffer.length ++ buffer)

mutual

def serialize : IpcValue Ω → Uint8Array
  | .undefined => [DataType.Undefined]
  | .string s => writeBytes DataType.String (P.fromString s)
  | .nativeBuffer buffer => writeBytes DataType.Buffer buffer
  | .vsBuffer buffer => writeBytes DataType.VSBuffer buffer
  | .array els => DataType.Array :: (writeInt32VQL els.length ++ serializeAll els)
  | .number n =>
    -- `(data | 0) === data`
    if -2 ^ 31 ≤ n ∧ n < 2 ^ 31 then DataType.Int :: writeInt32VQL n
    else writeBytes DataType.Object (P.fromString (P.stringify (.number n)))
  | .object o => writeBytes DataType.Object (P.fromString (P.stringify (.object o)))

def serializeAll : List (IpcValue Ω) → Uint8Array
  | [] => []
  | el :: els => serialize el ++ serializeAll els

end

def readBytes (r : BufferReader) : Uint8Array × BufferReader :=
  let (length, r) := readIntVQL r
  r.read length

/-- `length` reads in turn. -/
def readMany (read : BufferReader → Option (IpcValue Ω × BufferReader)) :
    Nat → BufferReader → Option (List (IpcValue Ω) × BufferReader)
  | 0, r => some ([], r)
  | length + 1, r => do
      let (el, r) ← read r
      let (els, r) ← readMany read length r
      some (el :: els, r)

/-- `deserialize` down to `depth` nested arrays; `none` is an error of `JSON.parse`. -/
def deserializeTo : Nat → BufferReader → Option (IpcValue Ω × BufferReader)
  | 0, _ => none
  | depth + 1, r =>
    let (type, r) := r.read 1
    match Uint8Array.readUInt8 type 0 with
    | some 1 => let (bytes, r) := readBytes r; some (.string (P.toString bytes), r)
    | some 2 => let (bytes, r) := readBytes r; some (.nativeBuffer bytes, r)
    | some 3 => let (bytes, r) := readBytes r; some (.vsBuffer bytes, r)
    | some 4 =>
      let (length, r) := readIntVQL r
      (readMany (deserializeTo depth) length.toNat r).map fun (els, r) => (.array els, r)
    | some 5 =>
      let (bytes, r) := readBytes r
      (P.parse (P.toString bytes)).map fun value => (value, r)
    | some 6 => let (n, r) := readIntVQL r; some (.number n, r)
    | _ => some (.undefined, r)

/-- An array takes a byte at least, so arrays are not nested deeper than the buffer is long. -/
def deserialize (r : BufferReader) : Option (IpcValue Ω × BufferReader) :=
  deserializeTo P (r.buffer.length + 1) r

end Codec

end CodeOss
