import CodeOss.Base.JsString
import CodeOss.Base.Uint8Array

/-! The encodings of a buffer: base64 in both alphabets, hex, and numbers of 32 bits. -/

namespace CodeOss.Buffer

open List

def sextet (code : CodeUnit) : Option ℕ :=
  if 65 ≤ code.toNat ∧ code.toNat ≤ 90 then some (code.toNat - 65)
  else if 97 ≤ code.toNat ∧ code.toNat ≤ 122 then some (code.toNat - 97 + 26)
  else if 48 ≤ code.toNat ∧ code.toNat ≤ 57 then some (code.toNat - 48 + 52)
  else if code.toNat = 43 ∨ code.toNat = 45 then some 62
  else if code.toNat = 47 ∨ code.toNat = 95 then some 63
  else none

structure Decoding where
  building : ℕ
  remainder : Fin 4
  buffer : Uint8Array
  bufi : ℕ

def Decoding.write (st : Decoding) (value : ℕ) : Decoding :=
  { st with buffer := st.buffer.set st.bufi (UInt8.ofNat value), bufi := st.bufi + 1 }

def Decoding.append (st : Decoding) (value : ℕ) : Decoding :=
  match st.remainder with
  | 3 => { st.write (st.building ||| value) with remainder := 0 }
  | 2 => { st.write (st.building ||| value >>> 2) with building := value <<< 6, remainder := 3 }
  | 1 => { st.write (st.building ||| value >>> 4) with building := value <<< 4, remainder := 2 }
  | 0 => { st with building := value <<< 2, remainder := 1 }

/-- Up to the first `=`. It throws, here `none`, at any other character that is in no alphabet. -/
def decodeFrom : JsString → Decoding → Option Decoding
  | [], st => some st
  | code :: encoded, st =>
    match sextet code with
    | some value => decodeFrom encoded (st.append value)
    | none => if code.toNat = 61 then some st else none

def Decoding.finish (st : Decoding) : Decoding :=
  if st.remainder = 0 then st else (st.append 0).finish
termination_by (4 - st.remainder.val) % 4
decreasing_by
  obtain ⟨building, remainder, buffer, bufi⟩ := st
  fin_cases remainder <;> simp_all [Decoding.append]

def decodeBase64 (encoded : JsString) : Option Uint8Array := do
  let st ← decodeFrom encoded ⟨0, 0, List.replicate (encoded.length * 3 / 4) 0, 0⟩
  let unpadded := st.bufi
  return st.finish.buffer.take unpadded

/-- `base64Alphabet`, or `base64UrlSafeAlphabet`. -/
def dictionary (urlSafe : Bool) : JsString :=
  (List.range 26).map (fun n => UInt16.ofNat (65 + n)) ++
    (List.range 26).map (fun n => UInt16.ofNat (97 + n)) ++
      (List.range 10).map (fun n => UInt16.ofNat (48 + n)) ++ if urlSafe then [45, 95] else [43, 47]

def charAt (urlSafe : Bool) (n : ℕ) : CodeUnit := (dictionary urlSafe)[n]?.getD 0

def encodeBase64 (padded urlSafe : Bool) : Uint8Array → JsString
  | a :: b :: c :: rest =>
    charAt urlSafe (a.toNat >>> 2) ::
      charAt urlSafe ((a.toNat <<< 4 ||| b.toNat >>> 4) &&& 63) ::
        charAt urlSafe ((b.toNat <<< 2 ||| c.toNat >>> 6) &&& 63) ::
          charAt urlSafe (c.toNat &&& 63) :: encodeBase64 padded urlSafe rest
  | [a, b] =>
    charAt urlSafe (a.toNat >>> 2) ::
      charAt urlSafe ((a.toNat <<< 4 ||| b.toNat >>> 4) &&& 63) ::
        charAt urlSafe ((b.toNat <<< 2) &&& 63) :: if padded then [61] else []
  | [a] =>
    charAt urlSafe (a.toNat >>> 2) ::
      charAt urlSafe ((a.toNat <<< 4) &&& 63) :: if padded then [61, 61] else []
  | [] => []

def hexChars : JsString :=
  (List.range 10).map (fun n => UInt16.ofNat (48 + n)) ++
    (List.range 6).map fun n => UInt16.ofNat (97 + n)

def encodeHex (buffer : Uint8Array) : JsString :=
  buffer.flatMap fun byte =>
    [hexChars[byte.toNat >>> 4]?.getD 0, hexChars[byte.toNat &&& 0x0f]?.getD 0]

def decodeHexChar (s : CodeUnit) : Option ℕ :=
  if 48 ≤ s.toNat ∧ s.toNat ≤ 57 then some (s.toNat - 48)
  else if 97 ≤ s.toNat ∧ s.toNat ≤ 102 then some (s.toNat - 87)
  else if 65 ≤ s.toNat ∧ s.toNat ≤ 70 then some (s.toNat - 55)
  else none

/-- It throws, here `none`, at a character that is no digit, and where one is left over. -/
def decodeHex : JsString → Option Uint8Array
  | [] => some []
  | [_] => none
  | high :: low :: hex => do
      let a ← decodeHexChar high
      let b ← decodeHexChar low
      let out ← decodeHex hex
      return UInt8.ofNat (a <<< 4 ||| b) :: out

def writeUInt32LE (destination : Uint8Array) (value : ℕ) (offset : ℕ) : Uint8Array :=
  let destination := destination.set (offset + 0) (UInt8.ofNat (value &&& 0b11111111))
  let value := value >>> 8
  let destination := destination.set (offset + 1) (UInt8.ofNat (value &&& 0b11111111))
  let value := value >>> 8
  let destination := destination.set (offset + 2) (UInt8.ofNat (value &&& 0b11111111))
  let value := value >>> 8
  destination.set (offset + 3) (UInt8.ofNat (value &&& 0b11111111))

def toInt32 (n : ℕ) : Int :=
  if n % 2 ^ 32 < 2 ^ 31 then (n % 2 ^ 32 : ℕ) else (n % 2 ^ 32 : ℕ) - 2 ^ 32

/-- The bit operators turn an `undefined` byte into `0`, and give a signed number. -/
def readUInt32LE (source : Uint8Array) (offset : ℕ) : Int :=
  toInt32
    ((((source[offset + 0]?.getD 0).toNat <<< 0 ||| (source[offset + 1]?.getD 0).toNat <<< 8) |||
      (source[offset + 2]?.getD 0).toNat <<< 16) ||| (source[offset + 3]?.getD 0).toNat <<< 24)

section Sextets

variable {n : ℕ} {urlSafe : Bool} {code : CodeUnit}

theorem sextet_charAt (urlSafe : Bool) (h : n < 64) : sextet (charAt urlSafe n) = some n := by
  have hall : ∀ urlSafe, ∀ n : Fin 64, sextet (charAt urlSafe n) = some n.val := by decide
  exact hall urlSafe ⟨n, h⟩

theorem sextet_lt {n : ℕ} (h : sextet code = some n) : n < 64 := by
  rw [sextet] at h
  split_ifs at h <;> obtain rfl := Option.some.inj h <;> omega

theorem charAt_mem (urlSafe : Bool) (h : n < 64) : charAt urlSafe n ∈ dictionary urlSafe := by
  have hlength : ∀ urlSafe, (dictionary urlSafe).length = 64 := by decide
  rw [charAt, getElem?_eq_getElem (by rw [hlength]; exact h)]
  exact getElem_mem _

theorem toNat_charAt (urlSafe : Bool) (h : n < 64) : (charAt urlSafe n).toNat =
    if n < 26 then 65 + n else if n < 52 then 71 + n else if n < 62 then n - 4
    else if n = 62 then (if urlSafe then 45 else 43) else if urlSafe then 95 else 47 := by
  have hall : ∀ urlSafe, ∀ n : Fin 64, (charAt urlSafe n).toNat =
      if n.val < 26 then 65 + n.val else if n.val < 52 then 71 + n.val
      else if n.val < 62 then n.val - 4
      else if n.val = 62 then (if urlSafe then 45 else 43) else if urlSafe then 95 else 47 := by
    decide
  exact hall urlSafe ⟨n, h⟩

theorem eq_charAt (h : sextet code = some n) : code = charAt false n ∨ code = charAt true n := by
  have hlt := sextet_lt h
  rw [← UInt16.toNat_inj, ← UInt16.toNat_inj, toNat_charAt _ hlt, toNat_charAt _ hlt]
  rw [sextet] at h
  simp only [Bool.false_eq_true, if_false, if_true]
  split_ifs at h <;> obtain rfl := Option.some.inj h <;> split_ifs <;> omega

theorem sextet_eq_none_iff :
    sextet code = none ↔ code ∉ dictionary false ∧ code ∉ dictionary true := by
  constructor
  · have hall : ∀ urlSafe, (dictionary urlSafe).all (fun c => (sextet c).isSome) = true := by decide
    intro h
    have hnot (urlSafe : Bool) : code ∉ dictionary urlSafe := by
      intro hmem
      have hsome := all_eq_true.mp (hall urlSafe) code hmem
      rw [h] at hsome
      cases hsome
    exact ⟨hnot false, hnot true⟩
  · rintro ⟨hplain, hsafe⟩
    cases hsextet : sextet code with
    | none => rfl
    | some n =>
      have hlt := sextet_lt hsextet
      rcases eq_charAt hsextet with rfl | rfl
      · exact (hplain (charAt_mem _ hlt)).elim
      · exact (hsafe (charAt_mem _ hlt)).elim

end Sextets

section Decode

variable {st : Decoding} {code : CodeUnit} {encoded : JsString}

theorem decodeFrom_cons {value : ℕ} (h : sextet code = some value) :
    decodeFrom (code :: encoded) st = decodeFrom encoded (st.append value) := by
  rw [decodeFrom, h]

theorem sextet_equals (h : code.toNat = 61) : sextet code = none := by
  rw [sextet, h]
  rfl

theorem decodeFrom_eq_none_iff : decodeFrom encoded st = none ↔
    ∃ c ∈ encoded.takeWhile (fun c => c ≠ 61), c ∉ dictionary false ∧ c ∉ dictionary true := by
  induction encoded generalizing st with
  | nil => simp [decodeFrom]
  | cons code encoded ih =>
    have hequals : code.toNat = 61 ↔ code = 61 := UInt16.toNat_inj (b := 61)
    rw [decodeFrom]
    cases hsextet : sextet code with
    | some value =>
      have hne : code ≠ 61 := fun h => by
        rw [sextet_equals (hequals.mpr h)] at hsextet
        cases hsextet
      have hin : ¬ (code ∉ dictionary false ∧ code ∉ dictionary true) := fun h => by
        rw [sextet_eq_none_iff.mpr h] at hsextet
        cases hsextet
      rw [takeWhile_cons_of_pos (by simpa using hne)]
      simp only [mem_cons, exists_eq_or_imp, ih, hin, false_or]
    | none =>
      have hout := sextet_eq_none_iff.mp hsextet
      by_cases heq : code = 61
      · subst heq
        simp
      · simp only [hequals, heq, if_false, true_iff]
        rw [takeWhile_cons_of_pos (by simpa using heq)]
        exact ⟨code, mem_cons_self, hout⟩

end Decode

section Base64

variable {a b c n v : ℕ} {padded urlSafe : Bool} {st : Decoding} {encoded : JsString}
  {done room : Uint8Array}

theorem or_eq_add {x y k : ℕ} (h : y < 2 ^ k) : x <<< k ||| y = x * 2 ^ k + y := by
  rw [← Nat.shiftLeft_add_eq_or_of_lt h, Nat.shiftLeft_eq]

theorem and_63 (n : ℕ) : n &&& 63 = n % 64 := Nat.and_two_pow_sub_one_eq_mod n 6

theorem ofNat_eq {x : UInt8} (h : n % 256 = x.toNat) : UInt8.ofNat n = x := by
  rw [← UInt8.toNat_inj, UInt8.toNat_ofNat']
  exact h

/-- Bytes `done` were written, there is room for more, and some bits of the next byte are there. -/
structure At (st : Decoding) (remainder : Fin 4) (building : ℕ) (done room : Uint8Array) :
    Prop where
  remainder : st.remainder = remainder
  building : st.building = building
  buffer : st.buffer = done ++ room
  bufi : st.bufi = done.length

theorem At.write {x y : UInt8} {value : ℕ} {remainder : Fin 4}
    (h : At st remainder b done (x :: room)) (hy : value % 256 = y.toNat) :
    At (st.write value) remainder b (done ++ [y]) room := by
  obtain ⟨hremainder, hbuilding, hbuffer, hbufi⟩ := h
  refine ⟨hremainder, hbuilding, ?_, ?_⟩
  · rw [Decoding.write, hbuffer, hbufi, ofNat_eq hy]
    simp
  · rw [Decoding.write, hbufi, length_append]
    rfl

theorem At.first {value : ℕ} (h : At st 0 b done room) :
    At (st.append value) 1 (value <<< 2) done room := by
  rw [Decoding.append, h.remainder]
  exact ⟨rfl, rfl, h.buffer, h.bufi⟩

theorem At.second {x y : UInt8} {value : ℕ} (h : At st 1 (v <<< 2) done (x :: room))
    (hlt : value < 64) (hy : (v * 4 + value / 16) % 256 = y.toNat) :
    At (st.append value) 2 (value <<< 4) (done ++ [y]) room := by
  have hbits : st.building ||| value >>> 4 = v * 2 ^ 2 + value / 2 ^ 4 := by
    rw [h.building, Nat.shiftRight_eq_div_pow, or_eq_add (show value / 2 ^ 4 < 2 ^ 2 by omega)]
  have hwritten := h.write hy
  rw [Decoding.append, h.remainder]
  simp only [hbits]
  exact ⟨rfl, rfl, hwritten.buffer, hwritten.bufi⟩

theorem At.third {x y : UInt8} {value : ℕ} (h : At st 2 (v <<< 4) done (x :: room))
    (hlt : value < 64) (hy : (v * 16 + value / 4) % 256 = y.toNat) :
    At (st.append value) 3 (value <<< 6) (done ++ [y]) room := by
  have hbits : st.building ||| value >>> 2 = v * 2 ^ 4 + value / 2 ^ 2 := by
    rw [h.building, Nat.shiftRight_eq_div_pow, or_eq_add (show value / 2 ^ 2 < 2 ^ 4 by omega)]
  have hwritten := h.write hy
  rw [Decoding.append, h.remainder]
  simp only [hbits]
  exact ⟨rfl, rfl, hwritten.buffer, hwritten.bufi⟩

theorem At.fourth {x y : UInt8} {value : ℕ} (h : At st 3 (v <<< 6) done (x :: room))
    (hlt : value < 64) (hy : (v * 64 + value) % 256 = y.toNat) :
    At (st.append value) 0 (v <<< 6) (done ++ [y]) room := by
  have hbits : st.building ||| value = v * 2 ^ 6 + value := by
    rw [h.building, or_eq_add (show value < 2 ^ 6 by omega)]
  have hwritten := h.write hy
  rw [Decoding.append, h.remainder]
  simp only [hbits]
  exact ⟨rfl, hwritten.building, hwritten.buffer, hwritten.bufi⟩

theorem decodeFrom_charAt (h : n < 64) :
    decodeFrom (charAt urlSafe n :: encoded) st = decodeFrom encoded (st.append n) :=
  decodeFrom_cons (sextet_charAt urlSafe h)

theorem decodeFrom_padding : decodeFrom (if padded then 61 :: encoded else []) st = some st := by
  cases padded <;> rfl

theorem decodeFrom_encodeBase64 {bytes : Uint8Array} (h : At st 0 b done room)
    (hroom : bytes.length ≤ room.length) :
    ∃ st', decodeFrom (encodeBase64 padded urlSafe bytes) st = some st' ∧
      ∃ remainder building room', At st' remainder building (done ++ bytes) room' := by
  fun_induction encodeBase64 padded urlSafe bytes generalizing st b done room with
  | case1 x y z rest ih =>
    rcases room with _ | ⟨x', _ | ⟨y', _ | ⟨z', room⟩⟩⟩
    · simp at hroom
    · simp at hroom
    · simp at hroom
    have hx := x.toNat_lt
    have hy := y.toNat_lt
    have hz := z.toNat_lt
    simp only [and_63, Nat.shiftRight_eq_div_pow,
      or_eq_add (show y.toNat / 2 ^ 4 < 2 ^ 4 by omega),
      or_eq_add (show z.toNat / 2 ^ 6 < 2 ^ 2 by omega)]
    rw [decodeFrom_charAt (by omega), decodeFrom_charAt (by omega), decodeFrom_charAt (by omega),
      decodeFrom_charAt (by omega)]
    have hfirst := @At.first _ _ _ _ (x.toNat / 2 ^ 2) h
    have hsecond := @At.second _ _ _ _ _ x ((x.toNat * 2 ^ 4 + y.toNat / 2 ^ 4) % 64) hfirst
      (by omega) (by omega)
    have hthird := @At.third _ _ _ _ _ y ((y.toNat * 2 ^ 2 + z.toNat / 2 ^ 6) % 64) hsecond
      (by omega) (by omega)
    have hfourth := @At.fourth _ _ _ _ _ z (z.toNat % 64) hthird (by omega) (by omega)
    obtain ⟨st', hdecode, hat⟩ := ih hfourth (by simpa using hroom)
    refine ⟨st', hdecode, ?_⟩
    simpa using hat
  | case2 x y =>
    rcases room with _ | ⟨x', _ | ⟨y', room⟩⟩
    · simp at hroom
    · simp at hroom
    have hx := x.toNat_lt
    have hy := y.toNat_lt
    simp only [and_63, Nat.shiftRight_eq_div_pow, or_eq_add (show y.toNat / 2 ^ 4 < 2 ^ 4 by omega)]
    rw [Nat.shiftLeft_eq, decodeFrom_charAt (by omega), decodeFrom_charAt (by omega),
      decodeFrom_charAt (by omega), decodeFrom_padding]
    have hfirst := @At.first _ _ _ _ (x.toNat / 2 ^ 2) h
    have hsecond := @At.second _ _ _ _ _ x ((x.toNat * 2 ^ 4 + y.toNat / 2 ^ 4) % 64) hfirst
      (by omega) (by omega)
    have hthird := @At.third _ _ _ _ _ y (y.toNat * 2 ^ 2 % 64) hsecond (by omega) (by omega)
    rw [List.append_assoc] at hthird
    exact ⟨_, rfl, _, _, room, hthird⟩
  | case3 x =>
    rcases room with _ | ⟨x', room⟩
    · simp at hroom
    have hx := x.toNat_lt
    simp only [and_63, Nat.shiftRight_eq_div_pow, Nat.shiftLeft_eq]
    rw [decodeFrom_charAt (by omega), decodeFrom_charAt (by omega), decodeFrom_padding]
    have hfirst := @At.first _ _ _ _ (x.toNat / 2 ^ 2) h
    have hsecond := @At.second _ _ _ _ _ x (x.toNat * 2 ^ 4 % 64) hfirst (by omega) (by omega)
    exact ⟨_, rfl, _, _, room, hsecond⟩
  | case4 => exact ⟨st, rfl, 0, b, room, by rwa [List.append_nil]⟩

theorem length_encodeBase64 (padded urlSafe : Bool) (bytes : Uint8Array) :
    bytes.length ≤ (encodeBase64 padded urlSafe bytes).length * 3 / 4 := by
  fun_induction encodeBase64 padded urlSafe bytes with
  | case1 x y z rest ih =>
    simp only [length_cons]
    omega
  | case2 x y => cases padded <;> simp
  | case3 x => cases padded <;> simp
  | case4 => exact Nat.zero_le _

theorem append_take {value k : ℕ} (hk : k ≤ st.bufi) :
    (st.append value).buffer.take k = st.buffer.take k ∧ st.bufi ≤ (st.append value).bufi := by
  obtain ⟨building, remainder, buffer, bufi⟩ := st
  have hset (x : UInt8) : (buffer.set bufi x).take k = buffer.take k := List.take_set_of_le hk
  fin_cases remainder
  · exact ⟨rfl, le_refl _⟩
  · exact ⟨hset _, Nat.le_succ _⟩
  · exact ⟨hset _, Nat.le_succ _⟩
  · exact ⟨hset _, Nat.le_succ _⟩

theorem finish_take {k : ℕ} (hk : k ≤ st.bufi) : st.finish.buffer.take k = st.buffer.take k := by
  fun_induction Decoding.finish st with
  | case1 st _ => rfl
  | case2 st _ ih =>
    obtain ⟨htake, hle⟩ := @append_take st 0 k hk
    rw [ih (hk.trans hle), htake]

theorem decodeBase64_encodeBase64 (padded urlSafe : Bool) (bytes : Uint8Array) :
    decodeBase64 (encodeBase64 padded urlSafe bytes) = some bytes := by
  have hlength := length_encodeBase64 padded urlSafe bytes
  obtain ⟨st', hdecode, remainder, building, room', hat⟩ :=
    @decodeFrom_encodeBase64 0 padded urlSafe ⟨0, 0, List.replicate _ 0, 0⟩ [] _ bytes
      ⟨rfl, rfl, rfl, rfl⟩ (hlength.trans (length_replicate (a := (0 : UInt8))).ge)
  rw [decodeBase64, hdecode]
  simp only [Option.bind_eq_bind, Option.bind_some, Option.pure_def, Option.some.injEq]
  rw [finish_take (le_refl _), hat.buffer, hat.bufi, nil_append, take_left]

theorem decodeBase64_eq_none_iff : decodeBase64 encoded = none ↔
    ∃ c ∈ encoded.takeWhile (fun c => c ≠ 61), c ∉ dictionary false ∧ c ∉ dictionary true := by
  rw [decodeBase64, ← decodeFrom_eq_none_iff]
  cases decodeFrom encoded ⟨0, 0, List.replicate (encoded.length * 3 / 4) 0, 0⟩ <;> simp

end Base64

theorem decodeHex_encodeHex (bytes : Uint8Array) : decodeHex (encodeHex bytes) = some bytes := by
  have hdigit {n : ℕ} (h : n < 16) : decodeHexChar (hexChars[n]?.getD 0) = some n := by
    have hall : ∀ n : Fin 16, decodeHexChar (hexChars[n.val]?.getD 0) = some n.val := by decide
    exact hall ⟨n, h⟩
  induction bytes with
  | nil => rfl
  | cons x bytes ih =>
    have hx := x.toNat_lt
    have hlow : x.toNat &&& 0x0f = x.toNat % 16 := Nat.and_two_pow_sub_one_eq_mod _ 4
    rw [encodeHex] at ih ⊢
    simp only [flatMap_cons, cons_append, nil_append]
    rw [decodeHex, hlow, Nat.shiftRight_eq_div_pow, hdigit (by omega), hdigit (by omega), ih]
    simp only [Option.bind_eq_bind, Option.bind_some, Option.pure_def, Option.some.injEq,
      List.cons.injEq, and_true]
    rw [or_eq_add (show x.toNat % 16 < 2 ^ 4 by omega)]
    exact ofNat_eq (by omega)

section Numbers

variable {destination : Uint8Array} {value offset : ℕ}

def Framed (offset : ℕ) (old new : Uint8Array) : Prop :=
  ∀ k, k < offset ∨ offset + 4 ≤ k → new[k]? = old[k]?

theorem framed_set (offset : ℕ) (a b c d : UInt8) : Framed offset destination
    ((((destination.set (offset + 0) a).set (offset + 1) b).set (offset + 2) c).set
    (offset + 3) d) := by
  intro k hk
  rw [getElem?_set_ne (by omega), getElem?_set_ne (by omega),
    getElem?_set_ne (by omega), getElem?_set_ne (by omega)]

theorem toInt32_eq_iff (h : value < 2 ^ 32) : toInt32 value = value ↔ value < 2 ^ 31 := by
  unfold toInt32
  split <;> omega

theorem readUInt32LE_writeUInt32LE (hin : offset + 4 ≤ destination.length)
    (hvalue : value < 2 ^ 32) :
    readUInt32LE (writeUInt32LE destination value offset) offset = toInt32 value := by
  have hbyte (n : ℕ) : (UInt8.ofNat (n &&& 0b11111111)).toNat = n % 256 := by
    rw [UInt8.toNat_ofNat', show 0b11111111 = 2 ^ 8 - 1 from rfl, Nat.and_two_pow_sub_one_eq_mod]
    omega
  have hset {l : Uint8Array} {i j : ℕ} {x y : UInt8} (hne : i ≠ j) (h : l[j]?.getD 0 = y) :
      (l.set i x)[j]?.getD 0 = y := by
    rwa [getElem?_set_ne hne]
  have hget {l : Uint8Array} {i : ℕ} {x : UInt8} (h : i < l.length) :
      (l.set i x)[i]?.getD 0 = x := by
    rw [getElem?_set_self h, Option.getD_some]
  rw [readUInt32LE, writeUInt32LE]
  rw [hset (by omega) (hset (by omega) (hset (by omega) (hget (by omega)))),
    hset (by omega) (hset (by omega) (hget (by simp; omega))),
    hset (by omega) (hget (by simp; omega)), hget (by simp; omega)]
  simp only [hbyte, Nat.shiftRight_eq_div_pow, Nat.shiftLeft_zero]
  congr 1
  rw [Nat.or_comm _ (_ <<< 24), Nat.or_comm _ (_ <<< 16), Nat.or_comm _ (_ <<< 8),
    or_eq_add (show value % 256 < 2 ^ 8 by omega), or_eq_add (k := 16) (by omega),
    or_eq_add (k := 24) (by omega)]
  omega

theorem readUInt32BE_writeUInt32BE (hvalue : value < 2 ^ 32) : (destination.writeUInt32BE value
    offset).readUInt32BE offset = if offset + 4 ≤ destination.length then some value else none := by
  split
  · rename_i hin
    obtain ⟨x, y, z, w, rest, hdrop⟩ : ∃ x y z w rest,
        destination.drop offset = x :: y :: z :: w :: rest := by
      have hlength := @List.length_drop _ offset destination
      rcases hdrop : destination.drop offset with _ | ⟨x, _ | ⟨y, _ | ⟨z, _ | ⟨w, rest⟩⟩⟩⟩ <;>
        rw [hdrop] at hlength <;> simp only [length_nil, length_cons] at hlength
      · omega
      · omega
      · omega
      · omega
      · exact ⟨x, y, z, w, rest, rfl⟩
    have htake : (destination.take offset).length = offset := by
      rw [List.length_take]
      omega
    have hwrite := Uint8Array.writeUInt32BE_append (destination.take offset) x y z w rest value
    have hread := @Uint8Array.readUInt32BE_append (destination.take offset) rest value
      (by omega) (by omega)
    rw [← hdrop, take_append_drop, htake] at hwrite
    rw [htake] at hread
    rw [hwrite, hread, Int.toNat_natCast]
  · rename_i hout
    have hlast : (destination.writeUInt32BE value offset)[offset + 3]? = none := by
      refine getElem?_eq_none ?_
      simp only [Uint8Array.writeUInt32BE, List.length_set]
      omega
    rw [Uint8Array.readUInt32BE, hlast]
    simp only [Option.bind_eq_bind, Option.bind_none, Option.bind_fun_none]

end Numbers

/-- Buffers, texts and numbers come back from their encodings, and what is no encoding is refused,
exactly if the number has a place in the array and is below 2³¹: the little-endian reader gives a
signed number. -/
theorem encodings_roundTrip_iff (bytes destination : Uint8Array) (encoded : JsString)
    (value offset : ℕ) (hvalue : value < 2 ^ 32) :
    ((∀ padded urlSafe, decodeBase64 (encodeBase64 padded urlSafe bytes) = some bytes) ∧
      decodeHex (encodeHex bytes) = some bytes ∧
      (decodeBase64 encoded = none ↔ ∃ c ∈ encoded.takeWhile (fun c => c ≠ 61),
        c ∉ dictionary false ∧ c ∉ dictionary true) ∧
      ((destination.writeUInt32BE value offset).readUInt32BE offset = some value ∧
        Framed offset destination (destination.writeUInt32BE value offset)) ∧
      (readUInt32LE (writeUInt32LE destination value offset) offset = value ∧
        Framed offset destination (writeUInt32LE destination value offset))) ↔
      offset + 4 ≤ destination.length ∧ value < 2 ^ 31 := by
  have hframed : Framed offset destination (destination.writeUInt32BE value offset) := by
    intro k hk
    simp only [Uint8Array.writeUInt32BE]
    rw [List.getElem?_set_ne (by omega), List.getElem?_set_ne (by omega),
      List.getElem?_set_ne (by omega), List.getElem?_set_ne (by omega)]
  constructor
  · rintro ⟨-, -, -, ⟨hbig, -⟩, hlittle, -⟩
    rw [readUInt32BE_writeUInt32BE hvalue] at hbig
    have hin : offset + 4 ≤ destination.length := by
      by_contra hout
      rw [if_neg hout] at hbig
      cases hbig
    rw [readUInt32LE_writeUInt32LE hin hvalue, toInt32_eq_iff hvalue] at hlittle
    exact ⟨hin, hlittle⟩
  · rintro ⟨hin, hlt⟩
    refine ⟨fun padded urlSafe => decodeBase64_encodeBase64 padded urlSafe bytes,
      decodeHex_encodeHex bytes, decodeBase64_eq_none_iff, ⟨?_, hframed⟩, ?_,
      framed_set offset _ _ _ _⟩
    · rw [readUInt32BE_writeUInt32BE hvalue, if_pos hin]
    · rw [readUInt32LE_writeUInt32LE hin hvalue, toInt32_eq_iff hvalue]
      exact hlt

theorem encodings_roundTrip_small :
    decodeBase64 (encodeBase64 false true [1, 255]) = some [1, 255] ∧
      readUInt32LE (writeUInt32LE [0, 0, 0, 0, 0] 258 1) 1 = 258 := by
  obtain ⟨hbase64, -, -, -, hnumber, -⟩ :=
    (encodings_roundTrip_iff [1, 255] [0, 0, 0, 0, 0] [61] 258 1 (by decide)).mpr (by decide)
  exact ⟨hbase64 false true, hnumber⟩

/-- The number 2³¹ is read as a negative one. -/
theorem readUInt32LE_signed :
    readUInt32LE (writeUInt32LE [0, 0, 0, 0] 2147483648 0) 0 ≠ 2147483648 := by
  decide

end CodeOss.Buffer
