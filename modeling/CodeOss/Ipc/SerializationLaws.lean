import CodeOss.Ipc.Serialization
import CodeOss.Base.Utf16

/-! What is serialized is read back, one value behind the other.
The variable-length quantities carry 32 bits, which are read as a signed number: a length has
to stay below `2 ^ 31`. -/

namespace CodeOss

open List

theorem vqlBytes_nat {u : Nat} (hpos : 0 < u) (hlt : u < 2 ^ 32) :
    vqlBytes u = UInt8.ofNat (u % 128 + if 128 ≤ u then 128 else 0) :: vqlBytes
    (u / 128 : Nat) := by
  have hrest : (u : Int) % 2 ^ 32 / 2 ^ 7 = (u / 128 : Nat) := by omega
  have hbyte : (u : Int) % 128 + (if ((u / 128 : Nat) : Int) > 0 then 128 else 0) =
      ((u % 128 + if 128 ≤ u then 128 else 0 : Nat) : Int) := by
    split_ifs <;> omega
  rw [vqlBytes, if_neg (by omega), hrest]
  simp only [hbyte]
  congr 1
  simp only [UInt8.ofInt, ← UInt8.toNat_inj, UInt8.toNat_ofNat']
  omega

theorem vqlByte_bits {x : Nat} (hx : x < 256) : (UInt8.ofNat x &&& 127).toNat = x % 128 ∧
    (UInt8.ofNat x &&& 128 = 0 ↔ x < 128) := by
  obtain ⟨hhigh, hlow⟩ := Uint8Array.and_bits x
  rw [← UInt8.toNat_inj]
  simp only [UInt8.toNat_and, UInt8.toNat_ofNat', Nat.mod_eq_of_lt hx, UInt8.reduceToNat, hlow,
    hhigh, true_and]
  omega

theorem vqlBytes_emod {value : Int} (h : value % 2 ^ 32 ≠ 0) :
    vqlBytes value = vqlBytes (value % 2 ^ 32) := by
  rw [vqlBytes, vqlBytes, if_neg h, if_neg (by omega), Int.emod_emod,
    Int.emod_emod_of_dvd value (show (128 : Int) ∣ 2 ^ 32 by decide)]

theorem shiftLeft_split (u n : Nat) : (BitVec.ofNat 32 (u % 128) <<< n) |||
    (BitVec.ofNat 32 (u / 128) <<< (n + 7)) = BitVec.ofNat 32 u <<< n := by
  refine BitVec.eq_of_getLsbD_eq fun i hi => ?_
  have hdiv : u / 128 = u / 2 ^ 7 := rfl
  have hmod : u % 128 = u % 2 ^ 7 := rfl
  simp only [BitVec.getLsbD_or, BitVec.getLsbD_shiftLeft, BitVec.getLsbD_ofNat, hdiv, hmod,
    Nat.testBit_mod_two_pow, Nat.testBit_div_two_pow]
  rcases Nat.lt_or_ge i n with hlt | hge
  · simp [hlt, show i < n + 7 by omega]
  · rcases Nat.lt_or_ge i (n + 7) with hlow | hhigh
    · simp [hlow, show ¬i < n by omega, show i - n < 7 by omega]
    · have hsub : i - (n + 7) + 7 = i - n := by omega
      have hlow : i - (n + 7) < 32 := by omega
      simp [show ¬i < n + 7 by omega, show ¬i < n by omega, show ¬i - n < 7 by omega, hsub, hlow,
        show i - n < 32 by omega]

namespace BufferReader

theorem read_append (done bytes rest : Uint8Array) : read ⟨done ++ bytes ++ rest,
    done.length⟩ bytes.length = (bytes, ⟨done ++ bytes ++ rest, done.length + bytes.length⟩) := by
  have hslice : (done ++ bytes ++ rest).subarray done.length (done.length + bytes.length) =
      bytes := by
    have hstop : ((done.length : Int) + bytes.length).toNat = done.length + bytes.length := by
      omega
    simp only [Uint8Array.subarray, if_neg (show ¬(done.length : Int) < 0 by omega),
      if_neg (show ¬(done.length : Int) + bytes.length < 0 by omega), Int.toNat_natCast, hstop]
    simp
  simp only [read, hslice]

end BufferReader

theorem readIntVQLFrom_vqlBytes {u n : Nat} (hpos : 0 < u)
    (hlt : u * 2 ^ n < 2 ^ 32) (done rest : Uint8Array) (value : BitVec 32) : readIntVQLFrom
    ⟨done ++ vqlBytes u ++ rest, done.length⟩ n value = ((value ||| BitVec.ofNat 32 u <<< n).toInt,
    ⟨done ++ vqlBytes u ++ rest, done.length + (vqlBytes u).length⟩) := by
  induction u using Nat.strongRecOn generalizing n done value with
  | ind u ih =>
    have hu : u < 2 ^ 32 := lt_of_le_of_lt (Nat.le_mul_of_pos_right u (Nat.two_pow_pos n)) hlt
    have hn : n < 32 := by
      by_contra hge
      have := Nat.pow_le_pow_right (show 0 < 2 by omega) (Nat.le_of_not_lt hge)
      have := Nat.le_mul_of_pos_left (2 ^ n) hpos
      omega
    rw [vqlBytes_nat hpos hu]
    obtain ⟨hpayload, hmore⟩ := vqlByte_bits (show (u % 128 + if 128 ≤ u then 128 else 0) < 256 by
      split_ifs <;> omega)
    generalize UInt8.ofNat (u % 128 + if 128 ≤ u then 128 else 0) = byte at hpayload hmore
    generalize hlater : vqlBytes (u / 128 : Nat) = later
    have hread := BufferReader.read_append done [byte] (later ++ rest)
    rw [← append_assoc, append_assoc done, singleton_append, length_singleton,
      Nat.cast_one] at hread
    have hmod : (byte &&& 127).toNat = u % 128 := by
      rw [hpayload]
      split_ifs <;> omega
    rw [readIntVQLFrom]
    simp only [hread, getElem?_cons_zero, Option.getD_some, hmod, hmore, Nat.mod_eq_of_lt hn]
    have hcontinues : (u % 128 + if 128 ≤ u then 128 else 0) < 128 ↔ u < 128 := by
      split_ifs <;> omega
    by_cases hlast : u < 128
    · have hzero : u / 128 = 0 := Nat.div_eq_of_lt hlast
      rw [if_pos (hcontinues.mpr hlast), Nat.mod_eq_of_lt hlast, ← hlater, hzero]
      simp [vqlBytes]
    · have hsmaller : u / 128 * 2 ^ (n + 7) < 2 ^ 32 := by
        have := Nat.div_mul_le_self u 128
        have := Nat.mul_le_mul_right (2 ^ n) this
        rw [Nat.pow_add]
        nlinarith
      have hrec := ih (u / 128) (by omega) (by omega) hsmaller (done ++ [byte])
        (value ||| BitVec.ofNat 32 (u % 128) <<< n)
      rw [hlater, BitVec.or_assoc, shiftLeft_split] at hrec
      rw [if_neg (mt hcontinues.mp hlast)]
      simpa [Nat.add_assoc, Nat.add_comm 1] using hrec

theorem readIntVQL_write (value : Int) (done rest : Uint8Array) : readIntVQL ⟨done ++ writeInt32VQL
    (value % 2 ^ 32) ++ rest, done.length⟩ = ((BitVec.ofInt 32 value).toInt, ⟨done ++ writeInt32VQL
    (value % 2 ^ 32) ++ rest, done.length + (writeInt32VQL (value % 2 ^ 32)).length⟩) := by
  obtain ⟨u, hu⟩ :=
    Int.eq_ofNat_of_zero_le (Int.emod_nonneg value (show (2 ^ 32 : Int) ≠ 0 by decide))
  have hlt : u < 2 ^ 32 := by omega
  have hbits : BitVec.ofInt 32 value = BitVec.ofNat 32 u := by
    rw [← BitVec.toNat_inj, BitVec.toNat_ofInt, BitVec.toNat_ofNat, Nat.mod_eq_of_lt hlt]
    omega
  rw [hbits, hu, writeInt32VQL]
  split_ifs with hzero
  · obtain rfl : u = 0 := by omega
    have hread := BufferReader.read_append done [0] rest
    rw [length_singleton, Nat.cast_one] at hread
    rw [readIntVQL, readIntVQLFrom]
    simp only [hread, getElem?_cons_zero, Option.getD_some, UInt8.zero_and, if_true]
    rfl
  · have hfrom := readIntVQLFrom_vqlBytes (n := 0) (show 0 < u by omega) (by omega) done rest 0
    rw [readIntVQL, hfrom, BitVec.shiftLeft_zero, show (0 : BitVec 32) = 0#32 from rfl,
      BitVec.zero_or]

theorem writeInt32VQL_emod {value : Int} (hlo : -2 ^ 31 ≤ value) (hhi : value < 2 ^ 31) :
    writeInt32VQL (value % 2 ^ 32) = writeInt32VQL value := by
  unfold writeInt32VQL
  by_cases hzero : value = 0
  · subst hzero
    rfl
  · rw [if_neg hzero, if_neg (by omega), ← vqlBytes_emod (by omega)]

theorem readIntVQL_int32 {value : Int} (hlo : -2 ^ 31 ≤ value) (hhi : value < 2 ^ 31)
    (done rest : Uint8Array) : readIntVQL ⟨done ++ writeInt32VQL value ++ rest, done.length⟩ =
    (value, ⟨done ++ writeInt32VQL value ++ rest, done.length + (writeInt32VQL value).length⟩) := by
  have hread := readIntVQL_write value done rest
  rw [writeInt32VQL_emod hlo hhi, BitVec.toInt_ofInt,
    Int.bmod_eq_of_le (by omega) (by omega)] at hread
  exact hread

section Codec

variable {Ω : Type} (P : Platform Ω)

theorem readBytes_writeBytes
    {bytes : Uint8Array} (hlen : bytes.length < 2 ^ 31) (type : UInt8) (done rest : Uint8Array) :
    readBytes ⟨done ++ writeBytes type bytes ++ rest, done.length + 1⟩ = (bytes,
    ⟨done ++ writeBytes type bytes ++ rest, done.length + (writeBytes type bytes).length⟩) := by
  have hlength := readIntVQL_int32 (show -2 ^ 31 ≤ (bytes.length : Int) by omega) (by omega)
    (done ++ [type]) (bytes ++ rest)
  have hread := BufferReader.read_append (done ++ [type] ++ writeInt32VQL bytes.length) bytes rest
  have hwhole : done ++ writeBytes type bytes ++ rest =
      done ++ [type] ++ writeInt32VQL bytes.length ++ (bytes ++ rest) := by
    simp [writeBytes]
  have hwhole' : done ++ writeBytes type bytes ++ rest =
      done ++ [type] ++ writeInt32VQL bytes.length ++ bytes ++ rest := by
    simp [writeBytes]
  rw [← hwhole] at hlength
  rw [← hwhole'] at hread
  simp only [length_append, length_singleton] at hlength hread
  rw [readBytes, hlength]
  refine hread.trans ?_
  simp only [writeBytes, length_cons, length_append, Nat.add_assoc, Nat.add_comm 1]

theorem length_serialize_pos (v : IpcValue Ω) : 0 < (serialize P v).length := by
  cases v <;> simp only [serialize, writeBytes] <;> first | (split_ifs <;> simp) | simp

theorem length_serialize_le {v : IpcValue Ω} {vs : List (IpcValue Ω)} (h : v ∈ vs) :
    (serialize P v).length ≤ (serializeAll P vs).length := by
  induction vs with
  | nil => cases h
  | cons u us ih =>
    rw [serializeAll, length_append]
    rcases mem_cons.mp h with rfl | h
    · omega
    · have := ih h
      omega

/-- Values whose parts the format can carry; `fits` bounds the lengths it writes. -/
inductive Codable (fits : Nat → Prop) : IpcValue Ω → Prop
  | undefined : Codable fits .undefined
  | string {s : JsString} (hunits : WellFormed s) (hlen : fits (P.fromString s).length) :
      Codable fits (.string s)
  | nativeBuffer {buffer : Uint8Array} (hlen : fits buffer.length) :
      Codable fits (.nativeBuffer buffer)
  | vsBuffer {buffer : Uint8Array} (hlen : fits buffer.length) : Codable fits (.vsBuffer buffer)
  | array {els : List (IpcValue Ω)} (hels : ∀ el ∈ els, Codable fits el)
      (hlen : fits els.length) : Codable fits (.array els)
  | number {n : Int} (hlo : -2 ^ 31 ≤ n) (hhi : n < 2 ^ 31) : Codable fits (.number n)
  | object {o : Ω} (hjson : P.parse (P.stringify (.object o)) = some (.object o))
      (hunits : WellFormed (P.stringify (.object o)))
      (hlen : fits (P.fromString (P.stringify (.object o))).length) : Codable fits (.object o)

/-- `read` takes the bytes of `v` wherever they stand, and no others. -/
def ReadsBack (read : BufferReader → Option (IpcValue Ω × BufferReader)) (v : IpcValue Ω) : Prop :=
  ∀ done rest : Uint8Array, read ⟨done ++ serialize P v ++ rest, done.length⟩ =
    some (v, ⟨done ++ serialize P v ++ rest, done.length + (serialize P v).length⟩)

theorem readMany_serializeAll {read : BufferReader → Option (IpcValue Ω × BufferReader)}
    {vs : List (IpcValue Ω)} (h : ∀ v ∈ vs, ReadsBack P read v) (done rest : Uint8Array) :
    readMany read vs.length ⟨done ++ serializeAll P vs ++ rest, done.length⟩ =
    some (vs, ⟨done ++ serializeAll P vs ++ rest, done.length + (serializeAll P vs).length⟩) := by
  induction vs generalizing done with
  | nil => simp [readMany, serializeAll]
  | cons v vs ih =>
    have hhead := h v mem_cons_self done (serializeAll P vs ++ rest)
    have htail := ih (fun u hu => h u (mem_cons_of_mem v hu)) (done ++ serialize P v)
    have hwhole : done ++ serializeAll P (v :: vs) ++ rest =
        done ++ serialize P v ++ (serializeAll P vs ++ rest) := by
      simp [serializeAll]
    have hwhole' : done ++ serializeAll P (v :: vs) ++ rest =
        done ++ serialize P v ++ serializeAll P vs ++ rest := by
      simp [serializeAll]
    rw [← hwhole] at hhead
    rw [← hwhole', length_append] at htail
    rw [length_cons, readMany, hhead]
    simp only [Option.bind_eq_bind, Option.bind_some, htail]
    simp only [serializeAll, length_append, Nat.add_assoc]

theorem read_tag (type : UInt8) (contents done rest : Uint8Array) :
    BufferReader.read ⟨done ++ type :: contents ++ rest, done.length⟩ 1 =
      ([type], ⟨done ++ type :: contents ++ rest, done.length + 1⟩) := by
  have hread := BufferReader.read_append done [type] (contents ++ rest)
  rwa [append_assoc done, singleton_append, ← cons_append, ← append_assoc] at hread

theorem readUInt8_tag (type : UInt8) : Uint8Array.readUInt8 [type] 0 = some type.toNat := rfl

section

variable (hutf8 : ∀ s, WellFormed s → P.toString (P.fromString s) = s)
include hutf8

theorem deserializeTo_serialize {depth : Nat} {v : IpcValue Ω} (hv : Codable P (· < 2 ^ 31) v)
    (hdepth : (serialize P v).length ≤ depth) : ReadsBack P (deserializeTo P depth) v := by
  induction depth generalizing v with
  | zero =>
    have := length_serialize_pos P v
    omega
  | succ depth ih =>
    intro done rest
    rw [deserializeTo]
    cases hv with
    | undefined =>
      simp only [serialize, read_tag]
      rfl
    | string hunits hlen =>
      have hbytes := readBytes_writeBytes hlen DataType.String done rest
      simp only [serialize, writeBytes, read_tag, readUInt8_tag, DataType.String,
        UInt8.reduceToNat] at hbytes ⊢
      simp only [hbytes, hutf8 _ hunits]
    | nativeBuffer hlen =>
      have hbytes := readBytes_writeBytes hlen DataType.Buffer done rest
      simp only [serialize, writeBytes, read_tag, readUInt8_tag, DataType.Buffer,
        UInt8.reduceToNat] at hbytes ⊢
      simp only [hbytes]
    | vsBuffer hlen =>
      have hbytes := readBytes_writeBytes hlen DataType.VSBuffer done rest
      simp only [serialize, writeBytes, read_tag, readUInt8_tag, DataType.VSBuffer,
        UInt8.reduceToNat] at hbytes ⊢
      simp only [hbytes]
    | @array els hels hlen =>
      have hlength := readIntVQL_int32 (show -2 ^ 31 ≤ (els.length : Int) by omega) (by omega)
        (done ++ [DataType.Array]) (serializeAll P els ++ rest)
      have hback : ∀ el ∈ els, ReadsBack P (deserializeTo P depth) el := fun el hel =>
        ih (hels el hel) (by
          have := length_serialize_le P hel
          simp only [serialize, length_cons, length_append] at hdepth
          omega)
      have hall := readMany_serializeAll P hback
        (done ++ [DataType.Array] ++ writeInt32VQL els.length) rest
      have hwhole : done ++ serialize P (.array els) ++ rest =
          done ++ [DataType.Array] ++ writeInt32VQL els.length ++ (serializeAll P els ++ rest) := by
        simp [serialize]
      have hwhole' : done ++ serialize P (.array els) ++ rest =
          done ++ [DataType.Array] ++ writeInt32VQL els.length ++ serializeAll P els ++ rest := by
        simp [serialize]
      rw [← hwhole, length_append, length_singleton] at hlength
      rw [← hwhole', length_append, length_append, length_singleton] at hall
      simp only [serialize, read_tag, readUInt8_tag, DataType.Array, UInt8.reduceToNat]
        at hlength hall ⊢
      simp only [hlength, Int.toNat_natCast]
      rw [hall]
      simp only [Option.map_some, length_cons, length_append, Nat.add_assoc, Nat.add_comm 1]
    | @number n hlo hhi =>
      have hint := readIntVQL_int32 hlo hhi (done ++ [DataType.Int]) rest
      have hwhole : done ++ serialize P (.number n) ++ rest =
          done ++ [DataType.Int] ++ writeInt32VQL n ++ rest := by
        rw [serialize, if_pos ⟨hlo, hhi⟩]
        simp
      rw [← hwhole, length_append, length_singleton] at hint
      simp only [serialize, if_pos (And.intro hlo hhi), read_tag, readUInt8_tag, DataType.Int,
        UInt8.reduceToNat] at hint ⊢
      simp only [hint, length_cons, Nat.add_assoc, Nat.add_comm 1]
    | object hjson hunits hlen =>
      have hbytes := readBytes_writeBytes hlen DataType.Object done rest
      simp only [serialize, writeBytes, read_tag, readUInt8_tag, DataType.Object,
        UInt8.reduceToNat] at hbytes ⊢
      simp only [hbytes, hutf8 _ hunits, hjson, Option.map_some]

theorem deserialize_readsBack
    {v : IpcValue Ω} (hv : Codable P (· < 2 ^ 31) v) : ReadsBack P (deserialize P) v := by
  intro done rest
  refine deserializeTo_serialize P hutf8 hv ?_ done rest
  simp only [length_append]
  omega

end

/-- Values written one behind the other are read back in turn, with no byte left between them. -/
theorem deserialize_serialize (hutf8 : ∀ s, WellFormed s → P.toString (P.fromString s) = s) :
    (∀ v : IpcValue Ω, Codable P (· < 2 ^ 31) v →
      deserialize P ⟨serialize P v, 0⟩ = some (v, ⟨serialize P v, (serialize P v).length⟩)) ∧
    ∀ (vs : List (IpcValue Ω)) (done rest : Uint8Array), (∀ v ∈ vs, Codable P (· < 2 ^ 31) v) →
      readMany (deserialize P) vs.length ⟨done ++ serializeAll P vs ++ rest, done.length⟩ =
        some (vs, ⟨done ++ serializeAll P vs ++ rest,
          done.length + (serializeAll P vs).length⟩) := by
  refine ⟨fun v hv => ?_, fun vs done rest hvs => ?_⟩
  · simpa using deserialize_readsBack P hutf8 hv [] []
  · exact readMany_serializeAll P (fun v hv => deserialize_readsBack P hutf8 (hvs v hv)) done rest

end Codec

namespace asciiPlatform

/-- ASCII as UTF-8 has it, and three bytes for any other code unit. -/
def fromString (s : JsString) : Uint8Array :=
  s.flatMap fun u =>
    if u.toNat < 128 then [UInt8.ofNat u.toNat]
    else [255, UInt8.ofNat (u.toNat / 256), UInt8.ofNat (u.toNat % 256)]

def toString : Uint8Array → JsString
  | 255 :: high :: low :: bytes => UInt16.ofNat (high.toNat * 256 + low.toNat) :: toString bytes
  | byte :: bytes => UInt16.ofNat byte.toNat :: toString bytes
  | [] => []

theorem toString_fromString (s : JsString) : toString (fromString s) = s := by
  induction s with
  | nil => rfl
  | cons u s ih =>
    have hu := u.toNat_lt
    rw [fromString, flatMap_cons, ← fromString]
    split_ifs with hascii
    · have hbyte : (UInt8.ofNat u.toNat).toNat = u.toNat := by
        rw [UInt8.toNat_ofNat', Nat.mod_eq_of_lt (by omega)]
      have hother : UInt8.ofNat u.toNat ≠ 255 := fun h => by
        have := congrArg UInt8.toNat h
        rw [hbyte, show (255 : UInt8).toNat = 255 from rfl] at this
        omega
      rw [singleton_append, toString, ih, hbyte, UInt16.ofNat_toNat]
      exact fun _ _ _ h _ => hother h
    · have hunit : (UInt8.ofNat (u.toNat / 256)).toNat * 256 + (UInt8.ofNat (u.toNat % 256)).toNat =
          u.toNat := by
        rw [UInt8.toNat_ofNat', UInt8.toNat_ofNat']
        omega
      simp only [cons_append, nil_append, toString, ih, hunit, UInt16.ofNat_toNat]

end asciiPlatform

/-- Its only object is written as two braces. -/
def asciiPlatform : Platform Unit where
  fromString := asciiPlatform.fromString
  toString := asciiPlatform.toString
  stringify _ := [123, 125]
  parse s := if s = [123, 125] then some (.object ()) else none

/-- A call: its header with a negative number, and its argument. -/
def callValues : List (IpcValue Unit) :=
  [.array [.number 100, .number (-3), .string [112, 105]],
    .array [.undefined, .vsBuffer [0, 255], .nativeBuffer [], .object ()]]

theorem callValues_codable : ∀ v ∈ callValues, Codable asciiPlatform (· < 2 ^ 31) v := by
  have hbraces : WellFormed [123, 125] := .unit rfl rfl (.unit rfl rfl .nil)
  have hname : WellFormed [112, 105] := .unit rfl rfl (.unit rfl rfl .nil)
  simp only [callValues, forall_mem_cons, not_mem_nil, false_imp_iff, implies_true, and_true]
  refine ⟨.array ?_ (by decide), .array ?_ (by decide)⟩
  · simp only [forall_mem_cons, not_mem_nil, false_imp_iff, implies_true, and_true]
    exact ⟨.number (by decide) (by decide), .number (by decide) (by decide),
      .string hname (by decide)⟩
  · simp only [forall_mem_cons, not_mem_nil, false_imp_iff, implies_true, and_true]
    exact ⟨.undefined, .vsBuffer (by decide), .nativeBuffer (by decide),
      .object rfl hbraces (by decide)⟩

theorem deserialize_serialize_at_call :
    readMany (deserialize asciiPlatform) callValues.length
      ⟨serializeAll asciiPlatform callValues, 0⟩ = some
    (callValues, ⟨serializeAll asciiPlatform callValues,
        (serializeAll asciiPlatform callValues).length⟩) := by
  have h := (deserialize_serialize asciiPlatform fun s _ =>
    asciiPlatform.toString_fromString s).2 callValues [] [] callValues_codable
  simpa using h

/-- A length of `2 ^ 31` reads back negative: it counts from the end of the buffer. -/
theorem readBytes_long {bytes : Uint8Array} (hlen : bytes.length = 2 ^ 31) (type : UInt8) :
    (readBytes ⟨writeBytes type bytes, 1⟩).1.length = 6 := by
  have hfive : (writeInt32VQL (2 ^ 31)).length = 5 := by
    simp [writeInt32VQL, vqlBytes]
  have hread := readIntVQL_write (2 ^ 31) [type] bytes
  rw [show (2 ^ 31 : Int) % 2 ^ 32 = 2 ^ 31 by decide, hfive,
    show (BitVec.ofInt 32 (2 ^ 31)).toInt = -2 ^ 31 by decide] at hread
  have hwhole : [type] ++ writeInt32VQL (2 ^ 31) ++ bytes = writeBytes type bytes := by
    simp [writeBytes, hlen]
  have htotal : (writeBytes type bytes).length = 6 + 2 ^ 31 := by
    rw [← hwhole, length_append, length_append, hfive, hlen, length_singleton]
  rw [hwhole, length_singleton] at hread
  rw [readBytes, hread]
  simp only [BufferReader.read, Uint8Array.subarray, List.length_take, List.length_drop, htotal]
  decide

/-- Six bytes of the long buffer are left. -/
theorem deserialize_serialize_fails_at_long_buffer :
    ¬∀ v : IpcValue Unit, Codable asciiPlatform (fun _ => True) v →
      deserialize asciiPlatform ⟨serialize asciiPlatform v, 0⟩ =
        some (v, ⟨serialize asciiPlatform v, (serialize asciiPlatform v).length⟩) := by
  intro h
  obtain ⟨buffer, hlen⟩ : ∃ buffer : Uint8Array, buffer.length = 2 ^ 31 :=
    ⟨List.replicate _ 0, List.length_replicate⟩
  have hread := h (.vsBuffer buffer) (.vsBuffer trivial)
  have htag := read_tag DataType.VSBuffer (writeInt32VQL buffer.length ++ buffer) [] []
  simp only [List.nil_append, List.append_nil, List.length_nil, Nat.zero_add] at htag
  have hsix := readBytes_long hlen DataType.VSBuffer
  rw [deserialize, deserializeTo] at hread
  simp only [serialize, writeBytes, htag, readUInt8_tag] at hread hsix
  simp only [DataType.VSBuffer, UInt8.reduceToNat] at hread hsix
  have hvalue := congrArg (Option.map Prod.fst) hread
  simp only [Option.map_some, Option.some.injEq, IpcValue.vsBuffer.injEq] at hvalue
  rw [hvalue, hlen] at hsix
  omega

end CodeOss
