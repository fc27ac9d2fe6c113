import CodeOss.Base.JsString
import CodeOss.Base.Uint8Array

/-! Decoding UTF-16LE bytes into a string.
`TextDecoder` follows the Encoding standard, `decodeUTF16LE` is the editor's wrapper
around it, which decodes by hand when the text starts with a byte order mark. -/

namespace CodeOss

open List

def isHighSurrogate (charCode : CodeUnit) : Bool := 0xD800 ≤ charCode ∧ charCode ≤ 0xDBFF

def isLowSurrogate (charCode : CodeUnit) : Bool := 0xDC00 ≤ charCode ∧ charCode ≤ 0xDFFF

namespace TextDecoder

/-- The shared UTF-16 decoder: a surrogate without its partner becomes U+FFFD, and the
unit after a lone high surrogate is decoded anew. -/
def decodeUnits : List CodeUnit → JsString
  | [] => []
  | u :: us =>
    if isHighSurrogate u then
      match us with
      | [] => [0xFFFD]
      | v :: vs =>
        if isLowSurrogate v then u :: v :: decodeUnits vs else 0xFFFD :: decodeUnits (v :: vs)
    else if isLowSurrogate u then 0xFFFD :: decodeUnits us
    else u :: decodeUnits us

/-- `new TextDecoder('UTF-16LE').decode(view)`: a leading U+FEFF is dropped. -/
def decode (view : List CodeUnit) : JsString :=
  decodeUnits (if view.head? = some 0xFEFF then view.tail else view)

end TextDecoder

variable (source : Uint8Array)

/-- `new Uint16Array(source.buffer, offset, len)` on a little-endian machine. It throws, here
`none`, when it is not aligned or leaves the buffer. -/
def uint16View (offset len : Nat) : Option (List CodeUnit) :=
  if offset % 2 = 0 ∧ offset + 2 * len ≤ source.length then
    some ((List.range len).map fun i => UInt16.ofNat (source.readUInt16LE (offset + 2 * i)))
  else none

/-- The manual decoder: every pair of bytes is one code unit. -/
def compatDecodeUTF16LE (source : Uint8Array) (offset len : Nat) : JsString :=
  match len with
  | 0 => []
  | len + 1 => UInt16.ofNat (source.readUInt16LE offset) ::
      compatDecodeUTF16LE source (offset + 2) len

def startsWithMark (view : List CodeUnit) : Bool :=
  view.head? = some 0xFEFF ∨ view.head? = some 0xFFFE

def decodeUTF16LE (offset len : Nat) : Option JsString := do
  let view ← uint16View source offset len
  if startsWithMark view then return compatDecodeUTF16LE source offset len
  return TextDecoder.decode view

/-- Text without an unpaired surrogate. -/
inductive WellFormed : JsString → Prop
  | nil : WellFormed []
  | unit {u : CodeUnit} {s : JsString} (hhigh : isHighSurrogate u = false)
      (hlow : isLowSurrogate u = false) (h : WellFormed s) : WellFormed (u :: s)
  | pair {u v : CodeUnit} {s : JsString} (hhigh : isHighSurrogate u) (hlow : isLowSurrogate v)
      (h : WellFormed s) : WellFormed (u :: v :: s)

theorem isLowSurrogate_of_high {u : CodeUnit} (h : isHighSurrogate u) : isLowSurrogate u =
    false := by
  simp only [isHighSurrogate, isLowSurrogate, decide_eq_true_eq, decide_eq_false_iff_not,
    UInt16.le_iff_toNat_le, UInt16.reduceToNat] at *
  omega

namespace TextDecoder

variable {u : CodeUnit}

attribute [local simp] decodeUnits in
theorem decodeUnits_unit (us : List CodeUnit) (hhigh : isHighSurrogate u = false)
    (hlow : isLowSurrogate u = false) : decodeUnits (u :: us) = u :: decodeUnits us := by
  rw [decodeUnits.eq_def]
  simp [hhigh, hlow]

theorem decodeUnits_lone_low (us : List CodeUnit) (hhigh : isHighSurrogate u = false)
    (hlow : isLowSurrogate u) : decodeUnits (u :: us) = 0xFFFD :: decodeUnits us := by
  rw [decodeUnits.eq_def]
  simp [hhigh, hlow]

theorem decodeUnits_lone_high {u v : CodeUnit} (vs : List CodeUnit) (hhigh : isHighSurrogate u)
    (hlow : isLowSurrogate v = false) :
    decodeUnits (u :: v :: vs) = 0xFFFD :: decodeUnits (v :: vs) := by
  rw [decodeUnits.eq_def]
  simp [hhigh, hlow]

theorem decodeUnits_of_wellFormed {s : JsString} (h : WellFormed s) : decodeUnits s = s := by
  induction h with
  | nil => rfl
  | unit hhigh hlow _ ih => rw [decodeUnits_unit _ hhigh hlow, ih]
  | pair hhigh hlow _ ih => simp [decodeUnits, hhigh, hlow, ih]

theorem replacement_ne (h : isHighSurrogate u ∨ isLowSurrogate u) : (0xFFFD : CodeUnit) ≠ u := by
  rintro rfl
  exact absurd h (by decide)

theorem wellFormed_of_decodeUnits {s : JsString} (h : decodeUnits s = s) : WellFormed s := by
  induction s using decodeUnits.induct with
  | case1 => exact .nil
  | case2 u hhigh =>
    simp only [decodeUnits, hhigh, if_true, List.cons.injEq, and_true] at h
    exact absurd h (replacement_ne (.inl hhigh))
  | case3 u hhigh v vs hlow ih =>
    simp only [decodeUnits, hhigh, hlow, if_true, List.cons.injEq, true_and] at h
    exact .pair hhigh hlow (ih h)
  | case4 u hhigh v vs hlow ih =>
    rw [decodeUnits_lone_high vs hhigh (by simpa using hlow), List.cons.injEq] at h
    exact absurd h.1 (replacement_ne (.inl hhigh))
  | case5 u us hhigh hlow ih =>
    rw [decodeUnits_lone_low us (by simpa using hhigh) hlow, List.cons.injEq] at h
    exact absurd h.1 (replacement_ne (.inr hlow))
  | case6 u us hhigh hlow ih =>
    have hhigh' : isHighSurrogate u = false := by simpa using hhigh
    have hlow' : isLowSurrogate u = false := by simpa using hlow
    rw [decodeUnits_unit us hhigh' hlow', List.cons.injEq] at h
    exact .unit hhigh' hlow' (ih h.2)

theorem decodeUnits_eq_self_iff {s : JsString} : decodeUnits s = s ↔ WellFormed s :=
  ⟨wellFormed_of_decodeUnits, decodeUnits_of_wellFormed⟩

theorem length_decodeUnits (s : JsString) : (decodeUnits s).length = s.length := by
  induction s using decodeUnits.induct with
  | case1 => rfl
  | case2 u hhigh => simp [decodeUnits, hhigh]
  | case3 u hhigh v vs hlow ih => simp [decodeUnits, hhigh, hlow, ih]
  | case4 u hhigh v vs hlow ih =>
    rw [decodeUnits_lone_high vs hhigh (by simpa using hlow), length_cons, ih]
    rfl
  | case5 u us hhigh hlow ih =>
    rw [decodeUnits_lone_low us (by simpa using hhigh) hlow, length_cons, ih, length_cons]
  | case6 u us hhigh hlow ih =>
    rw [decodeUnits_unit us (by simpa using hhigh) (by simpa using hlow), length_cons, ih,
      length_cons]

end TextDecoder

variable (s : JsString)

def restored : JsString :=
  if startsWithMark s then s else TextDecoder.decodeUnits s

/-- The texts that are read back as they were written. -/
def Restorable : Prop := WellFormed s ∨ startsWithMark s

theorem restored_eq_self_iff {s : JsString} : restored s = s ↔ Restorable s := by
  unfold restored Restorable
  split_ifs with h
  · simp [h]
  · rw [TextDecoder.decodeUnits_eq_self_iff]
    simp [h]

theorem length_restored : (restored s).length = s.length := by
  unfold restored
  split_ifs with h
  · rfl
  · exact TextDecoder.length_decodeUnits s

def bytesUtf16LE : Uint8Array := s.flatMap fun u => Uint8Array.bytes16LE u.toNat

theorem length_bytesUtf16LE : (bytesUtf16LE s).length = 2 * s.length := by
  induction s with
  | nil => rfl
  | cons u s ih =>
    simp only [bytesUtf16LE, flatMap_cons, length_append, length_cons] at ih ⊢
    rw [ih, Uint8Array.bytes16LE, length_cons, length_singleton]
    omega

theorem compatDecodeUTF16LE_bytes (done rest : Uint8Array) (s : JsString) :
    compatDecodeUTF16LE (done ++ bytesUtf16LE s ++ rest) done.length s.length = s := by
  induction s generalizing done with
  | nil => rfl
  | cons u s ih =>
    have hu : (u.toNat : Int) < 2 ^ 16 := by exact_mod_cast u.toNat_lt
    have hsplit : done ++ bytesUtf16LE (u :: s) ++ rest =
        done ++ Uint8Array.bytes16LE u.toNat ++ (bytesUtf16LE s ++ rest) := by
      simp [bytesUtf16LE]
    have hstep := ih (done ++ Uint8Array.bytes16LE u.toNat)
    rw [hsplit, length_cons, compatDecodeUTF16LE,
      Uint8Array.readUInt16LE_append done _ (Int.natCast_nonneg _) hu]
    rw [length_append, append_assoc _ _ rest] at hstep
    refine congrArg₂ List.cons ?_ hstep
    rw [Int.toNat_natCast, UInt16.ofNat_toNat]

theorem map_range_readUInt16LE (offset len : Nat) : (List.range len).map (fun i => UInt16.ofNat
    (source.readUInt16LE (offset + 2 * i))) = compatDecodeUTF16LE source offset len := by
  induction len generalizing offset with
  | zero => rfl
  | succ len ih =>
    rw [range_succ_eq_map, map_cons, List.map_map, compatDecodeUTF16LE, ← ih]
    refine congrArg₂ List.cons rfl (map_congr_left fun i _ => ?_)
    simp only [Function.comp_apply]
    congr 2
    omega

theorem decodeUTF16LE_bytes (done rest : Uint8Array) (s : JsString) (heven : done.length % 2 = 0) :
    decodeUTF16LE (done ++ bytesUtf16LE s ++ rest) done.length s.length = some (restored s) := by
  have hroom : done.length + 2 * s.length ≤ (done ++ bytesUtf16LE s ++ rest).length := by
    simp only [length_append, length_bytesUtf16LE]
    omega
  have hview : uint16View (done ++ bytesUtf16LE s ++ rest) done.length s.length = some s := by
    rw [uint16View, if_pos ⟨heven, hroom⟩, map_range_readUInt16LE, compatDecodeUTF16LE_bytes]
  simp only [decodeUTF16LE, hview, Option.bind_eq_bind, Option.bind_some, Option.pure_def,
    compatDecodeUTF16LE_bytes, restored]
  split_ifs with hmark
  · rfl
  · have hfeff : s.head? ≠ some 0xFEFF := by
      intro h
      simp [startsWithMark, h] at hmark
    rw [TextDecoder.decode, if_neg hfeff]

end CodeOss
