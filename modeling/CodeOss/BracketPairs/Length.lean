import CodeOss.Base.JsString

/-! Lengths in lines and columns, packed into one number. -/

namespace CodeOss

open List

/-- What a text model holds: code units, and line breaks, each one symbol. -/
inductive Symbol where
  | unit (u : CodeUnit)
  | eol
  deriving DecidableEq

abbrev Document := List Symbol

namespace Document

def lastLine (d : Document) : Document := d.rtakeWhile (· ≠ .eol)

def breakCount (d : Document) : Nat := d.count .eol

theorem breakCount_append (s t : Document) : breakCount (s ++ t) = breakCount s + breakCount t :=
  count_append

theorem breakCount_eq_zero {d : Document} : breakCount d = 0 ↔ .eol ∉ d := count_eq_zero

theorem lastLine_append_of_mem {s t : Document} (h : .eol ∈ t) :
    lastLine (s ++ t) = lastLine t := by
  induction t using List.reverseRecOn with
  | nil => exact absurd h not_mem_nil
  | append_singleton t a ih =>
    rw [lastLine, lastLine, ← append_assoc, rtakeWhile_concat, rtakeWhile_concat]
    split_ifs with ha
    · have hmem : .eol ∈ t := by
        rcases List.mem_append.1 h with hmem | hlast
        · exact hmem
        · rw [mem_singleton] at hlast
          simp [← hlast] at ha
      exact congrArg (· ++ [a]) (ih hmem)
    · rfl

theorem lastLine_append_of_not_mem {s t : Document} (h : .eol ∉ t) :
    lastLine (s ++ t) = lastLine s ++ t := by
  induction t using List.reverseRecOn with
  | nil => rw [append_nil, append_nil]
  | append_singleton t a ih =>
    rw [List.mem_append, mem_singleton, not_or] at h
    rw [← append_assoc, lastLine, rtakeWhile_concat_pos _ _ _ (by simpa using Ne.symm h.2),
      ← lastLine, ih h.1, append_assoc]

theorem lastLine_of_not_mem {d : Document} (h : .eol ∉ d) : lastLine d = d :=
  rtakeWhile_eq_self_iff.2 fun x hx => by
    simpa using fun hxeol : x = .eol => h (hxeol ▸ hx)

theorem eol_not_mem_lastLine (d : Document) : .eol ∉ lastLine d := fun h => by
  simpa using mem_rtakeWhile_imp h

end Document

open Document

/-! ### The packed numbers

A `Length` is one number. -/

def lengthZero : Nat := 0

def lengthIsZero (length : Nat) : Bool := length == 0

def factor : Nat := 2 ^ 26

def toLength (lineCount columnCount : Nat) : Nat := lineCount * factor + columnCount

def lengthAdd (l1 l2 : Nat) : Nat :=
  let r := l1 + l2
  if l2 ≥ factor then r - l1 % factor else r

/-- `items.reduce((a, b) => lengthAdd(a, lengthFn(b)), lengthZero)` -/
def sumLengths {α : Type} (items : List α) (lengthFn : α → Nat) : Nat :=
  items.foldl (fun a b => lengthAdd a (lengthFn b)) lengthZero

def lengthEquals (length1 length2 : Nat) : Bool := length1 == length2

def lengthDiffNonNegative (l1 l2 : Nat) : Nat :=
  if l2 ≤ l1 then lengthZero
  else
    let lineCount1 := l1 / factor
    let lineCount2 := l2 / factor
    let colCount2 := l2 - lineCount2 * factor
    if lineCount1 = lineCount2 then
      let colCount1 := l1 - lineCount1 * factor
      toLength 0 (colCount2 - colCount1)
    else toLength (lineCount2 - lineCount1) colCount2

/-- `splitLines(str)`: one line less, and the length of the last one. -/
def lengthOfString (str : Document) : Nat := toLength str.breakCount str.lastLine.length

theorem toLength_div (lineCount : Nat) {columnCount : Nat} (h : columnCount < factor) :
    toLength lineCount columnCount / factor = lineCount := by
  rw [toLength, Nat.mul_comm, Nat.mul_add_div (by decide), Nat.div_eq_of_lt h, Nat.add_zero]

theorem toLength_mod (lineCount : Nat) {columnCount : Nat} (h : columnCount < factor) :
    toLength lineCount columnCount % factor = columnCount := by
  rw [toLength, Nat.mul_comm, Nat.mul_add_mod, Nat.mod_eq_of_lt h]

/-- `toLength` has 26 bits for the lines and 26 bits for the columns. -/
structure FitsLength (d : Document) : Prop where
  lines : d.breakCount < factor
  columns : ∀ run : Document, run <:+: d → .eol ∉ run → run.length < factor

namespace FitsLength

variable {s t d : Document}

theorem within (h : FitsLength d) (hs : s <:+: d) : FitsLength s :=
  ⟨lt_of_le_of_lt (hs.sublist.count_le _) h.lines, fun run hrun => h.columns run (hrun.trans hs)⟩

theorem left (h : FitsLength (s ++ t)) : FitsLength s := h.within (prefix_append s t).isInfix

theorem right (h : FitsLength (s ++ t)) : FitsLength t := h.within (suffix_append s t).isInfix

theorem lastLine_lt (h : FitsLength d) : d.lastLine.length < factor :=
  h.columns _ (rtakeWhile_suffix _ _).isInfix d.eol_not_mem_lastLine

variable (h : FitsLength (s ++ t))
include h

theorem lengthOfString_append :
    lengthOfString (s ++ t) = lengthAdd (lengthOfString s) (lengthOfString t) := by
  have hs := h.left.lastLine_lt
  have ht := h.right.lastLine_lt
  rw [lengthAdd]
  by_cases heol : .eol ∈ t
  · have hcount : 0 < t.breakCount := count_pos_iff.2 heol
    have hfactor := Nat.le_mul_of_pos_left factor hcount
    have hge : lengthOfString t ≥ factor := by
      rw [lengthOfString, toLength]
      omega
    rw [if_pos hge, lengthOfString, lengthOfString, toLength_mod _ hs, lengthOfString,
      breakCount_append, lastLine_append_of_mem heol]
    simp only [toLength, Nat.add_mul]
    omega
  · have hcount := breakCount_eq_zero.2 heol
    have hlt : ¬lengthOfString t ≥ factor := by
      rw [lengthOfString, hcount, toLength]
      omega
    rw [if_neg hlt, lengthOfString, lengthOfString, lengthOfString, breakCount_append,
      lastLine_append_of_not_mem heol, hcount, lastLine_of_not_mem heol,
      length_append, Nat.add_zero]
    simp only [toLength]
    omega

theorem lengthOfString_lt_append (ht : t ≠ []) : lengthOfString s < lengthOfString (s ++ t) := by
  have hs := h.left.lastLine_lt
  simp only [lengthOfString, breakCount_append, toLength, Nat.add_mul]
  by_cases heol : .eol ∈ t
  · have hcount := Nat.le_mul_of_pos_left factor (show 0 < t.breakCount from count_pos_iff.2 heol)
    omega
  · have hpos := length_pos_of_ne_nil ht
    rw [lastLine_append_of_not_mem heol, length_append]
    omega

theorem lengthOfString_le_append : lengthOfString s ≤ lengthOfString (s ++ t) := by
  by_cases ht : t = []
  · rw [ht, append_nil]
  · exact (h.lengthOfString_lt_append ht).le

theorem lengthDiff_append :
    lengthDiffNonNegative (lengthOfString s) (lengthOfString (s ++ t)) = lengthOfString t := by
  by_cases ht : t = []
  · subst ht
    simp [lengthDiffNonNegative, lengthOfString, lengthZero, lastLine, toLength, breakCount]
  · have hlt := h.lengthOfString_lt_append ht
    have hs := h.left.lastLine_lt
    have hst := h.lastLine_lt
    have hdiv : lengthOfString s / factor = s.breakCount := toLength_div _ hs
    have hdiv' : lengthOfString (s ++ t) / factor = s.breakCount + t.breakCount :=
      (toLength_div _ hst).trans (breakCount_append s t)
    rw [lengthDiffNonNegative, if_neg (by omega)]
    simp only [hdiv, hdiv']
    by_cases heol : .eol ∈ t
    · have hcount : 0 < t.breakCount := count_pos_iff.2 heol
      rw [if_neg (by omega), Nat.add_sub_cancel_left, lengthOfString, lengthOfString,
        breakCount_append, lastLine_append_of_mem heol]
      simp only [toLength, Nat.add_sub_cancel_left]
    · have hcount := breakCount_eq_zero.2 heol
      rw [if_pos (by omega), lengthOfString, lengthOfString, lengthOfString,
        breakCount_append, lastLine_append_of_not_mem heol,
        lastLine_of_not_mem heol, hcount, length_append, Nat.add_zero]
      simp only [toLength]
      omega

theorem lengthDiff_prefix :
    lengthDiffNonNegative (lengthOfString (s ++ t)) (lengthOfString s) = 0 :=
  if_pos h.lengthOfString_le_append

end FitsLength

variable {d : Document}

theorem fitsLength_of_length (h : d.length < factor) : FitsLength d :=
  ⟨lt_of_le_of_lt count_le_length h, fun _ hrun _ => lt_of_le_of_lt hrun.length_le h⟩

theorem lengthOfString_of_not_mem (h : .eol ∉ d) : lengthOfString d = d.length := by
  rw [lengthOfString, breakCount_eq_zero.2 h, lastLine_of_not_mem h, toLength,
    Nat.zero_mul, Nat.zero_add]

theorem lengthOfString_eq_zero : lengthOfString d = 0 ↔ d = [] := by
  refine ⟨fun h => ?_, fun h => by subst h; rfl⟩
  rw [lengthOfString, toLength, Nat.add_eq_zero_iff, Nat.mul_eq_zero] at h
  have heol : .eol ∉ d := breakCount_eq_zero.1 (h.1.resolve_right (by decide))
  rw [← lastLine_of_not_mem heol]
  exact eq_nil_of_length_eq_zero h.2

end CodeOss
