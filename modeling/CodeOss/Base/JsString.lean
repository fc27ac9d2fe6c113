import Mathlib

/-! JavaScript strings as the editor sees them: sequences of 16-bit code units,
with no well-formedness asked of them. Only the `String` methods the modelled
code calls are here, each with its clamping of out-of-range arguments. -/

namespace CodeOss

abbrev CodeUnit := UInt16

abbrev JsString := List CodeUnit

instance JsString.instLawfulBEq : LawfulBEq JsString := inferInstanceAs (LawfulBEq (List CodeUnit))

namespace CharCode

def Tab : CodeUnit := 9
def LineFeed : CodeUnit := 10
def CarriageReturn : CodeUnit := 13

end CharCode

namespace JsString

variable (s : JsString)

/-- `Math.min(Math.max(i, 0), length)`, the clamping of `substring`. -/
def clamp (i : Int) : Nat := min i.toNat s.length

/-- `s.substring(a, b)`: both arguments are clamped, then swapped if reversed. -/
def substring (a b : Int) : JsString :=
  let lo := min (clamp s a) (clamp s b)
  let hi := max (clamp s a) (clamp s b)
  (s.drop lo).take (hi - lo)

def substringFrom (a : Int) : JsString := s.drop (clamp s a)

/-- `s.substr(start, length)` for the non-negative starts the code uses. -/
def substr (start : Nat) (length : Int) : JsString :=
  (s.drop start).take length.toNat

/-- `s.charCodeAt(i)`, where `none` stands for the `NaN` of an index outside `s`. -/
def charCodeAt (i : Int) : Option CodeUnit :=
  if 0 ≤ i then s[i.toNat]? else none

variable {a b : Int}

theorem substring_eq (ha : 0 ≤ a) (hab : a ≤ b) (hb : b ≤ s.length) :
    s.substring a b = (s.drop a.toNat).take (b - a).toNat := by
  have hlo : clamp s a = a.toNat := by simp only [clamp]; omega
  have hhi : clamp s b = b.toNat := by simp only [clamp]; omega
  simp only [substring, hlo, hhi]
  rw [min_eq_left (by omega), max_eq_right (by omega)]
  congr 1
  omega

theorem substringFrom_eq {a : Int} (hb : a ≤ s.length) : s.substringFrom a = s.drop a.toNat := by
  simp only [substringFrom, clamp]
  congr 1
  omega

theorem clamp_mono (h : a ≤ b) : s.clamp a ≤ s.clamp b := by
  simp only [clamp]
  omega

theorem substring_of_le (h : a ≤ b) :
    s.substring a b = (s.drop (s.clamp a)).take (s.clamp b - s.clamp a) := by
  have hle := s.clamp_mono h
  rw [substring, min_eq_left hle, max_eq_right hle]

theorem substring_append_substring {a b c : Int} (hab : a ≤ b) (hbc : b ≤ c) :
    s.substring a b ++ s.substring b c = s.substring a c := by
  have hle := s.clamp_mono hab
  have hle' := s.clamp_mono hbc
  rw [substring_of_le s hab, substring_of_le s hbc, substring_of_le s (hab.trans hbc),
    show s.drop (s.clamp b) = (s.drop (s.clamp a)).drop (s.clamp b - s.clamp a) by
      rw [List.drop_drop, Nat.add_sub_cancel' hle], ← List.take_add]
  congr 1
  omega

theorem substring_append_substringFrom (hab : a ≤ b) :
    s.substring a b ++ s.substringFrom b = s.substringFrom a := by
  have hle := s.clamp_mono hab
  rw [substring_of_le s hab, substringFrom, substringFrom,
    show s.drop (s.clamp b) = (s.drop (s.clamp a)).drop (s.clamp b - s.clamp a) by
      rw [List.drop_drop, Nat.add_sub_cancel' hle], List.take_append_drop]

/-- The code units as numbers. Texts are compared by them. -/
def codes : List Nat := s.map UInt16.toNat

theorem codes_injective : Function.Injective codes :=
  List.map_injective_iff.mpr fun _ _ => UInt16.toNat_inj.mp

end JsString

end CodeOss
