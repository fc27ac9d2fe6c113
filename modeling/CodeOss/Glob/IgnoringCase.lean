import CodeOss.Glob.Shapes

/-! Where case is ignored, the comparison with an ASCII name is that of regular expressions which
ignore case. -/

namespace CodeOss.Glob

open List

def toLowerAscii (c : CodeUnit) : CodeUnit := if 65 ≤ c ∧ c ≤ 90 then c + 32 else c

/-- ASCII is lowered unit by unit, and no other unit becomes ASCII. -/
def LowersTo (c d : CodeUnit) : Prop :=
  if c.toNat < 128 then d = toLowerAscii c else 128 ≤ d.toNat

/-- The two characters beside the letters of ASCII that have one in their lower case. -/
def exotic : List CodeUnit := [0x130, 0x212A]

/-- What is relied on of upper and lower case. -/
structure Platform.Unicode (P : Platform) : Prop where
  canonicalize_ascii : ∀ c : CodeUnit, c.toNat < 128 → P.canonicalize c = toUpperAscii c
  canonicalize_other : ∀ c : CodeUnit, 128 ≤ c.toNat → 128 ≤ (P.canonicalize c).toNat
  toLowerCase : ∀ s, (∀ c ∈ s, c ∉ exotic) → List.Forall₂ LowersTo s (P.toLowerCase s)

/-- It is relied on only where case is ignored. -/
def Platform.Known (P : Platform) (options : Options) : Prop :=
  options.ignoreCase = true → P.Unicode

def reading (P : Platform) (options : Options) : CodeUnit → CodeUnit :=
  if options.ignoreCase then P.canonicalize else id

section Fixed

variable {P : Platform} {options : Options} {c d : CodeUnit}

theorem isLowerAsciiLetter_iff : isLowerAsciiLetter c = true ↔ 97 ≤ c.toNat ∧ c.toNat ≤ 122 := by
  simp only [isLowerAsciiLetter, Bool.decide_and, Bool.and_eq_true, decide_eq_true_eq,
    UInt16.le_iff_toNat_le, UInt16.reduceToNat]

theorem toNat_toUpperAscii :
    (toUpperAscii c).toNat = if 97 ≤ c.toNat ∧ c.toNat ≤ 122 then c.toNat - 32 else c.toNat := by
  rw [toUpperAscii]
  simp only [isLowerAsciiLetter_iff]
  split
  · rename_i hc
    have h32 : (32 : CodeUnit).toNat = 32 := rfl
    rw [UInt16.toNat_sub_of_le _ _ (by rw [UInt16.le_iff_toNat_le, h32]; omega), h32]
  · rfl

theorem toUpperAscii_eq_iff :
    toUpperAscii c = toUpperAscii d ↔
      (if 97 ≤ c.toNat ∧ c.toNat ≤ 122 then c.toNat - 32 else c.toNat) =
        if 97 ≤ d.toNat ∧ d.toNat ≤ 122 then d.toNat - 32 else d.toNat := by
  rw [← UInt16.toNat_inj, toNat_toUpperAscii, toNat_toUpperAscii]

theorem canonicalize_iff (hP : P.Unicode) (hd : d.toNat < 128) :
    P.canonicalize c = P.canonicalize d ↔ c.toNat < 128 ∧ toUpperAscii c = toUpperAscii d := by
  rw [hP.canonicalize_ascii d hd]
  by_cases hc : c.toNat < 128
  · rw [hP.canonicalize_ascii c hc]
    exact ⟨fun h => ⟨hc, h⟩, fun h => h.2⟩
  · refine iff_of_false (fun heq => ?_) fun h => hc h.1
    have hother := hP.canonicalize_other c (not_lt.mp hc)
    rw [heq] at hother
    rw [toNat_toUpperAscii] at hother
    split at hother <;> omega

theorem fixes_of_not_letter (hP : P.Unicode) (hd : d.toNat < 128)
    (hupper : ¬ (65 ≤ d.toNat ∧ d.toNat ≤ 90)) (hlower : ¬ (97 ≤ d.toNat ∧ d.toNat ≤ 122)) :
    Fixes P.canonicalize d := by
  intro c
  rw [canonicalize_iff hP hd, toUpperAscii_eq_iff, if_neg hlower, ← UInt16.toNat_inj]
  split <;> omega

theorem fixesSeparators (hP : P.Known options) : FixesSeparators (reading P options) := by
  rw [reading]
  split
  · rename_i hcase
    exact ⟨fixes_of_not_letter (hP hcase) (by decide) (by decide) (by decide),
      fixes_of_not_letter (hP hcase) (by decide) (by decide) (by decide)⟩
  · exact fixesSeparators_id

end Fixed

section Comparison

variable {P : Platform} {options : Options} {a b : JsString}

def IsAscii (s : JsString) : Prop := ∀ c ∈ s, c.toNat < 128

theorem IsAscii.not_exotic (h : IsAscii b) : ∀ c ∈ b, c ∉ exotic := by
  intro c hc hmem
  have hlt := h c hc
  simp only [exotic, mem_cons, not_mem_nil, or_false] at hmem
  rcases hmem with rfl | rfl <;> exact absurd hlt (by decide)

theorem compareSubstringFrom_ne_zero {a b : JsString} {aEnd bEnd rounds i j : ℕ} {x y : CodeUnit}
    (hx : a[i]? = some x) (hy : b[j]? = some y) (hne : x ≠ y) :
    compareSubstringFrom a b aEnd bEnd (rounds + 1) i j ≠ 0 := by
  rw [compareSubstringFrom, hx, hy]
  simp only
  split_ifs with h1 h2
  · decide
  · decide
  · refine absurd (UInt16.toNat_inj.mp ?_) hne
    rw [UInt16.lt_iff_toNat_lt] at h1
    rw [gt_iff_lt, UInt16.lt_iff_toNat_lt] at h2
    omega

/-- A unit that is not ASCII is not ASCII in lower case, so the names differ there. -/
theorem compareSubstring_lower_ne_zero (hP : P.Unicode) (ha : ∀ c ∈ a, c ∉ exotic)
    (hb : IsAscii b) {i j rounds : ℕ} (hi : i + (rounds + 1) = a.length)
    (hj : j + (rounds + 1) = b.length) (hai : i < a.length) (hx : 128 ≤ a[i].toNat) :
    compareSubstring (P.toLowerCase a) (P.toLowerCase b) i a.length j b.length ≠ 0 := by
  have hlowera := hP.toLowerCase a ha
  have hlowerb := hP.toLowerCase b hb.not_exotic
  have hla : i < (P.toLowerCase a).length := hlowera.length_eq ▸ hai
  have hlb : j < (P.toLowerCase b).length := by
    rw [← hlowerb.length_eq]
    omega
  have hbj : j < b.length := by omega
  have hrounds : min (a.length - i) (b.length - j) = rounds + 1 := by omega
  rw [compareSubstring, hrounds]
  refine compareSubstringFrom_ne_zero (getElem?_eq_getElem hla) (getElem?_eq_getElem hlb) ?_
  have hxa := hlowera.get hai hla
  have hxb := hlowerb.get hbj hlb
  rw [get_eq_getElem, get_eq_getElem, LowersTo] at hxa hxb
  have hyb := hb b[j] (getElem_mem hbj)
  rw [if_neg (by simpa using hx)] at hxa
  rw [if_pos (by simpa using hyb)] at hxb
  intro heq
  have hlt : (toLowerAscii b[j]).toNat < 128 := by
    rw [toLowerAscii]
    split
    · rename_i hc
      rw [UInt16.le_iff_toNat_le, UInt16.le_iff_toNat_le] at hc
      have h90 : (90 : CodeUnit).toNat = 90 := rfl
      rw [UInt16.toNat_add]
      have h32 : (32 : CodeUnit).toNat = 32 := rfl
      omega
    · exact hyb
  simp only at hxa hxb
  rw [heq, hxb] at hxa
  omega

theorem compareIgnoreCaseFrom_iff (hP : P.Unicode) (ha : ∀ c ∈ a, c ∉ exotic) (hb : IsAscii b)
    {i j rounds : ℕ} (hi : i + rounds = a.length) (hj : j + rounds = b.length) :
    compareIgnoreCaseFrom P.toLowerCase a b a.length b.length rounds i j = 0 ↔
      Same P.canonicalize (a.drop i) (b.drop j) := by
  induction rounds generalizing i j with
  | zero =>
    rw [compareIgnoreCaseFrom, compareLengths, if_neg (by omega), if_neg (by omega),
      drop_eq_nil_of_le (by omega), drop_eq_nil_of_le (by omega)]
    exact iff_of_true rfl rfl
  | succ rounds ih =>
    have hai : i < a.length := by omega
    have hbj : j < b.length := by omega
    have hlt := hb b[j] (getElem_mem hbj)
    have hcons : Same P.canonicalize (a.drop i) (b.drop j) ↔
        P.canonicalize a[i] = P.canonicalize b[j] ∧
          Same P.canonicalize (a.drop (i + 1)) (b.drop (j + 1)) := by
      rw [drop_eq_getElem_cons hai, drop_eq_getElem_cons hbj, Same, map_cons,
        map_cons, List.cons.injEq]
      rfl
    have hrest := ih (i := i + 1) (j := j + 1) (by omega) (by omega)
    rw [hcons, compareIgnoreCaseFrom, getElem?_eq_getElem hai, getElem?_eq_getElem hbj]
    simp only
    split_ifs with heq hother hdiff
    · rw [hrest, heq]
      simp
    · have hx : 128 ≤ a[i].toNat := by
        rcases hother with h | h
        · exact h
        · exact absurd h (by rw [ge_iff_le, UInt16.le_iff_toNat_le]; exact not_le.mpr hlt)
      refine iff_of_false (compareSubstring_lower_ne_zero hP ha hb hi hj hai hx) fun h => ?_
      exact absurd ((canonicalize_iff hP hlt).mp h.1).1 (not_lt.mpr hx)
    · have hsame : toUpperAscii a[i] = toUpperAscii b[j] := by
        rw [← UInt16.toNat_inj]
        omega
      rw [hrest, canonicalize_iff hP hlt]
      have hx : a[i].toNat < 128 := by
        by_contra hx
        exact hother (.inl (not_lt.mp hx))
      simp [hsame, hx]
    · refine iff_of_false hdiff fun h => hdiff ?_
      have hsame := ((canonicalize_iff hP hlt).mp h.1).2
      rw [hsame]
      omega

theorem Same.length_eq {K : CodeUnit → CodeUnit} (h : Same K a b) : a.length = b.length := by
  have hlength := congrArg List.length h
  rwa [length_map, length_map] at hlength

theorem equals_iff (hP : P.Known options) (ha : options.ignoreCase = true → ∀ c ∈ a, c ∉ exotic)
    (hb : IsAscii b) : equals P options a b = true ↔ Same (reading P options) a b := by
  rw [equals, reading]
  split
  · rename_i hcase
    rw [equalsIgnoreCase, Bool.and_eq_true, decide_eq_true_eq, decide_eq_true_eq]
    constructor
    · rintro ⟨hlength, hcompare⟩
      rw [compareSubstringIgnoreCase, show min (a.length - 0) (b.length - 0) = a.length by omega,
        compareIgnoreCaseFrom_iff (hP hcase) (ha hcase) hb (by omega) (by omega)] at hcompare
      exact hcompare
    · intro h
      have hlength := h.length_eq
      refine ⟨hlength, ?_⟩
      rw [compareSubstringIgnoreCase, show min (a.length - 0) (b.length - 0) = a.length by omega,
        compareIgnoreCaseFrom_iff (hP hcase) (ha hcase) hb (by omega) (by omega)]
      exact h
  · rw [decide_eq_true_eq, Same, map_id, map_id]

theorem endsWith_iff (hP : P.Known options) (ha : options.ignoreCase = true → ∀ c ∈ a, c ∉ exotic)
    (hb : IsAscii b) :
    endsWith P options a b = true ↔ ∃ u v, a = u ++ v ∧ Same (reading P options) v b := by
  rw [endsWith, reading]
  split
  · rename_i hcase
    rw [endsWithIgnoreCase, Bool.and_eq_true, decide_eq_true_eq, decide_eq_true_eq]
    have hcompare (hle : b.length ≤ a.length) :
        compareSubstringIgnoreCase P.toLowerCase a b (a.length - b.length) a.length 0 b.length = 0 ↔
          Same P.canonicalize (a.drop (a.length - b.length)) b := by
      rw [compareSubstringIgnoreCase,
        show min (a.length - (a.length - b.length)) (b.length - 0) = b.length by omega]
      exact compareIgnoreCaseFrom_iff (hP hcase) (ha hcase) hb (by omega) (by omega)
    constructor
    · rintro ⟨hle, hzero⟩
      exact ⟨_, _, (take_append_drop (a.length - b.length) a).symm, (hcompare hle).mp hzero⟩
    · rintro ⟨u, v, rfl, hv⟩
      have hlength := hv.length_eq
      have hle : b.length ≤ (u ++ v).length := by
        rw [length_append]
        omega
      refine ⟨hle, (hcompare hle).mpr ?_⟩
      rw [length_append, ← hlength, Nat.add_sub_cancel, drop_left]
      exact hv
  · rw [isSuffixOf_iff_suffix]
    constructor
    · rintro ⟨u, rfl⟩
      exact ⟨u, b, rfl, rfl⟩
    · rintro ⟨u, v, rfl, hv⟩
      rw [Same, map_id, map_id] at hv
      exact ⟨u, by rw [hv]⟩

end Comparison

end CodeOss.Glob
