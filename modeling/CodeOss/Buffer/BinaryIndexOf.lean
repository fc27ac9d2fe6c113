import CodeOss.Base.Uint8Array

/-! `binaryIndexOf`: a needle of bytes is compared from its end, and a byte that does not fit moves
it on by what a table says. The table is shared by all calls. -/

namespace CodeOss.Buffer

open List

/-- A `Uint8Array` with an entry for each byte. -/
abbrev Table := UInt8 → UInt8

/-- `table[needle[i]] = needle.length - i - 1` for the bytes from the `i`-th on. -/
def setShifts (needleLen : ℕ) : List UInt8 → ℕ → Table → Table
  | [], _, table => table
  | b :: needle, i, table =>
    setShifts needleLen needle (i + 1)
      (Function.update table b (UInt8.ofNat (needleLen - i - 1)))

def fillTable (needle : Uint8Array) : Table :=
  setShifts needle.length needle 0 fun _ => UInt8.ofNat needle.length

/-- The loop. It gives nothing if it needs more rounds than it is allowed. -/
def search (table : Table) (haystack needle : Uint8Array) : ℕ → ℕ → ℕ → Option Int
  | 0, _, _ => none
  | rounds + 1, i, j =>
    match haystack[i]? with
    | none => some (-1)
    | some b =>
      if needle[j]? = some b then
        if j = 0 then some i else search table haystack needle rounds (i - 1) (j - 1)
      else
        search table haystack needle rounds
          (i + max (needle.length - j) (table b).toNat) (needle.length - 1)

/-- `Uint8Array.prototype.indexOf`. -/
def indexOfByte (haystack : Uint8Array) (b : UInt8) (offset : ℕ) : Int :=
  match (haystack.drop offset).idxOf? b with
  | none => -1
  | some i => offset + i

def binaryIndexOf (rounds : ℕ) (table : Table) (haystack needle : Uint8Array) (offset : ℕ) :
    Option (Int × Table) :=
  match needle with
  | [] => some (0, table)
  | [b] => some (indexOfByte haystack b offset, table)
  | _ =>
    if haystack.length < needle.length + offset then some (-1, table)
    else
      (search (fillTable needle) haystack needle rounds (offset + needle.length - 1)
        (needle.length - 1)).map (·, fillTable needle)

section Occurrences

variable {haystack needle : Uint8Array} {offset s i j : ℕ} {b : UInt8} {result : Int}

def OccursAt (haystack needle : Uint8Array) (i : ℕ) : Prop :=
  ∀ l < needle.length, haystack[i + l]? = needle[l]?

/-- What a search has to give: the first place from the offset on, or `-1`. -/
def IsFirst (haystack needle : Uint8Array) (offset : ℕ) (result : Int) : Prop :=
  (result = -1 ∧ ∀ i, offset ≤ i → ¬ OccursAt haystack needle i) ∨
    ∃ i : ℕ, result = i ∧ offset ≤ i ∧ OccursAt haystack needle i ∧
      ∀ k, offset ≤ k → k < i → ¬ OccursAt haystack needle k

theorem OccursAt.le_length (h : OccursAt haystack needle i) (hne : needle ≠ []) :
    i + needle.length ≤ haystack.length := by
  have hpos : 0 < needle.length := length_pos_iff.mpr hne
  have hlast := h (needle.length - 1) (by omega)
  rw [getElem?_eq_getElem (show needle.length - 1 < needle.length by omega)] at hlast
  obtain ⟨hlt, -⟩ := List.getElem?_eq_some_iff.mp hlast
  omega

theorem IsFirst.unique {result' : Int} (h : IsFirst haystack needle offset result)
    (h' : IsFirst haystack needle offset result') : result = result' := by
  rcases h with ⟨rfl, hnone⟩ | ⟨i, rfl, hi, hoccurs, hbefore⟩ <;>
    rcases h' with ⟨rfl, hnone'⟩ | ⟨k, rfl, hk, hoccurs', hbefore'⟩
  · rfl
  · exact (hnone k hk hoccurs').elim
  · exact (hnone' i hi hoccurs).elim
  · rcases lt_trichotomy i k with hlt | rfl | hlt
    · exact (hbefore' i hi hlt hoccurs).elim
    · rfl
    · exact (hbefore k hk hlt hoccurs').elim

theorem indexOfByte_first : IsFirst haystack [b] offset (indexOfByte haystack b offset) := by
  have hoccurs {i : ℕ} : OccursAt haystack [b] i ↔ haystack[i]? = some b := by
    refine ⟨fun h => h 0 Nat.zero_lt_one, fun h l hl => ?_⟩
    obtain rfl := Nat.lt_one_iff.mp hl
    exact h
  rw [indexOfByte]
  cases hindex : (haystack.drop offset).idxOf? b with
  | none =>
    refine .inl ⟨rfl, fun i hi h => ?_⟩
    rw [idxOf?_eq_none_iff] at hindex
    have hget := hoccurs.mp h
    rw [show i = offset + (i - offset) by omega, ← getElem?_drop] at hget
    exact hindex (mem_of_getElem? hget)
  | some i =>
    obtain ⟨hlt, hget, hbefore⟩ := idxOf?_eq_some_iff.mp hindex
    refine .inr ⟨offset + i, rfl, Nat.le_add_right _ _, hoccurs.mpr ?_, fun k hk hlt' h => ?_⟩
    · rw [← getElem?_drop, getElem?_eq_getElem hlt, hget]
    · have hget' := hoccurs.mp h
      rw [show k = offset + (k - offset) by omega, ← getElem?_drop,
        getElem?_eq_getElem (show k - offset < _ by omega)] at hget'
      exact hbefore (k - offset) (by omega) (Option.some.inj hget')

end Occurrences

section Tables

variable {needleLen : ℕ} {needle rest : List UInt8} {table : Table} {b : UInt8}

/-- What the entries say of the bytes before the `i`-th: where a byte occurs, its entry does not
move the needle beyond the last of these places. -/
def Bounds (needle : List UInt8) (i : ℕ) (table : Table) : Prop :=
  ∀ b, (table b).toNat ≤ needle.length ∧
    ∀ l < i, needle[l]? = some b → l + (table b).toNat < needle.length

theorem toNat_ofNat_le (n : ℕ) : (UInt8.ofNat n).toNat ≤ n := by
  rw [UInt8.toNat_ofNat']
  exact Nat.mod_le _ _

theorem Bounds.setShifts {i : ℕ} (h : Bounds needle i table) (hrest : needle.drop i = rest)
    (hi : i ≤ needle.length) :
    Bounds needle needle.length (setShifts needle.length rest i table) := by
  induction rest generalizing i table with
  | nil =>
    obtain rfl : i = needle.length := le_antisymm hi (drop_eq_nil_iff.mp hrest)
    exact h
  | cons c rest ih =>
    have hlt : i < needle.length := by
      by_contra hnot
      rw [drop_eq_nil_of_le (not_lt.mp hnot)] at hrest
      cases hrest
    rw [drop_eq_getElem_cons hlt] at hrest
    obtain ⟨rfl, htail⟩ := List.cons.inj hrest
    refine ih (fun b => ?_) htail hlt
    have hentry := toNat_ofNat_le (needle.length - i - 1)
    by_cases hb : b = needle[i]
    · subst hb
      rw [Function.update_self]
      refine ⟨by omega, fun l hl _ => by omega⟩
    · rw [Function.update_of_ne hb]
      refine ⟨(h b).1, fun l hl hget => ?_⟩
      rcases Nat.lt_succ_iff_lt_or_eq.mp hl with hl | rfl
      · exact (h b).2 l hl hget
      · rw [getElem?_eq_getElem hlt] at hget
        exact (hb (Option.some.inj hget).symm).elim

theorem fillTable_bounds (needle : List UInt8) :
    Bounds needle needle.length (fillTable needle) := by
  refine Bounds.setShifts (fun b => ⟨toNat_ofNat_le _, fun l hl => ?_⟩) rfl (Nat.zero_le _)
  exact (Nat.not_lt_zero l hl).elim

end Tables

section Loop

variable {table : Table} {haystack needle : Uint8Array} {offset i j : ℕ} {b : UInt8}

/-- The needle stands at `i - j`, its bytes behind the `j`-th fit, and it occurs nowhere before. -/
structure Searched (haystack needle : Uint8Array) (offset i j : ℕ) : Prop where
  le : offset + j ≤ i
  lt : j < needle.length
  fits : ∀ l, j < l → l < needle.length → haystack[i - j + l]? = needle[l]?
  before : ∀ k, offset ≤ k → k < i - j → ¬ OccursAt haystack needle k

theorem Searched.start (hne : needle ≠ []) :
    Searched haystack needle offset (offset + needle.length - 1) (needle.length - 1) := by
  have hpos : 0 < needle.length := List.length_pos_iff.mpr hne
  exact ⟨by omega, by omega, fun l hl hlt => by omega, fun k hk hlt => by omega⟩

section

variable (h : Searched haystack needle offset i j)
include h

theorem Searched.back (hj : j ≠ 0)
    (hfits : haystack[i]? = needle[j]?) : Searched haystack needle offset (i - 1) (j - 1) := by
  obtain ⟨hle, hlt, hfit, hbefore⟩ := h
  have hsame : i - 1 - (j - 1) = i - j := by omega
  refine ⟨by omega, by omega, fun l hl hlen => ?_, ?_⟩
  · rw [hsame]
    rcases Nat.lt_or_eq_of_le (show j ≤ l by omega) with hjl | rfl
    · exact hfit l hjl hlen
    · rwa [show i - j + j = i by omega]
  · rwa [hsame]

omit h in
theorem Searched.found (h : Searched haystack needle offset i 0)
    (hfits : haystack[i]? = needle[0]?) : IsFirst haystack needle offset i := by
  refine .inr ⟨i, rfl, h.le, fun l hl => ?_, h.before⟩
  rcases Nat.eq_zero_or_pos l with rfl | hpos
  · exact hfits
  · exact h.fits l hpos hl

/-- A byte does not fit. The needle is moved no further than to where that byte might. -/
theorem Searched.skip (htable : Bounds needle needle.length table)
    (hget : haystack[i]? = some b) (hnot : needle[j]? ≠ some b) : Searched haystack needle offset
    (i + max (needle.length - j) (table b).toNat) (needle.length - 1) := by
  obtain ⟨hle, hlt, hfit, hbefore⟩ := h
  obtain ⟨hmax, hplaces⟩ := htable b
  refine ⟨by omega, by omega, fun l hl hlen => by omega, fun k hk hlt' hoccurs => ?_⟩
  rcases lt_trichotomy k (i - j) with hbehind | rfl | hahead
  · exact hbefore k hk hbehind hoccurs
  · have hhere := hoccurs j hlt
    rw [show i - j + j = i by omega, hget] at hhere
    exact hnot hhere.symm
  · -- The byte stands at `i - k` of the needle, which its entry does not pass.
    have hplace := hoccurs (i - k) (by omega)
    rw [show k + (i - k) = i by omega, hget] at hplace
    have hentry := hplaces (i - k) (by omega) hplace.symm
    omega

theorem Searched.ended (hend : haystack.length ≤ i) : IsFirst haystack needle offset (-1) := by
  refine .inl ⟨rfl, fun k hk hoccurs => ?_⟩
  have hlength := hoccurs.le_length (length_pos_iff.mp (Nat.zero_lt_of_lt h.lt))
  refine h.before k hk ?_ hoccurs
  have hlt := h.lt
  have hle := h.le
  omega

end

def enough (haystack needle : Uint8Array) (i j : ℕ) : ℕ :=
  (haystack.length + 1 - (i - j)) * needle.length + j + 1

theorem search_eq (htable : Bounds needle needle.length table) {rounds : ℕ}
    (h : Searched haystack needle offset i j) (hrounds : enough haystack needle i j ≤ rounds) :
    ∃ result, search table haystack needle rounds i j = some result ∧
    IsFirst haystack needle offset result := by
  induction rounds generalizing i j with
  | zero =>
    rw [enough] at hrounds
    omega
  | succ rounds ih =>
    rw [search]
    cases hget : haystack[i]? with
    | none => exact ⟨-1, rfl, h.ended (List.getElem?_eq_none_iff.mp hget)⟩
    | some b =>
      have hi : i < haystack.length := (List.getElem?_eq_some_iff.mp hget).1
      by_cases hfits : needle[j]? = some b
      · simp only [hfits, if_true]
        by_cases hj : j = 0
        · subst hj
          exact ⟨i, if_pos rfl, h.found (hget.trans hfits.symm)⟩
        · rw [if_neg hj]
          refine ih (h.back hj (hget.trans hfits.symm)) ?_
          have hle := h.le
          rw [enough, show i - 1 - (j - 1) = i - j by omega]
          rw [enough] at hrounds
          omega
      · simp only [hfits, if_false]
        have hskip := h.skip htable hget hfits
        refine ih hskip ?_
        have hle := h.le
        have hlt := h.lt
        -- The needle has moved by one place at least.
        have hmoved : haystack.length + 1 - (i + max (needle.length - j) (table b).toNat -
            (needle.length - 1)) ≤ haystack.length - (i - j) := by omega
        have hless := Nat.mul_le_mul_right needle.length hmoved
        have hone : (haystack.length + 1 - (i - j)) * needle.length =
            (haystack.length - (i - j)) * needle.length + needle.length := by
          rw [show haystack.length + 1 - (i - j) = haystack.length - (i - j) + 1 by omega,
            Nat.succ_mul]
        rw [enough] at hrounds ⊢
        omega

theorem search_first (hne : needle ≠ []) (haystack : Uint8Array) (offset : ℕ) : ∃ result, IsFirst
    haystack needle offset result ∧ ∃ least, ∀ rounds, least ≤ rounds → search (fillTable needle)
    haystack needle rounds (offset + needle.length - 1) (needle.length - 1) = some result := by
  have hstart := @Searched.start haystack needle offset hne
  have hbounds := fillTable_bounds needle
  obtain ⟨result, -, hfirst⟩ := search_eq hbounds hstart (le_refl _)
  refine ⟨result, hfirst,
    enough haystack needle (offset + needle.length - 1) (needle.length - 1), ?_⟩
  intro rounds hrounds
  obtain ⟨result', hsearch, hfirst'⟩ := search_eq hbounds hstart hrounds
  rw [hsearch, hfirst.unique hfirst']

end Loop

example : (binaryIndexOf 20 (fun _ => 0) [1, 1, 2, 1, 1, 1, 2] [1, 1, 2] 1).map Prod.fst =
    some 4 := by decide

end CodeOss.Buffer
