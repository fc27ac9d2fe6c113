import CodeOss.Base.JsString

/-! The key iterators of the ternary search tree. An iterator over one key is a
cursor, and `next` is a function of it; the segments of a key are the texts under
the cursors `next` leads through. -/

namespace CodeOss

namespace CharCode

def Period : CodeUnit := 46
def Slash : CodeUnit := 47
def Backslash : CodeUnit := 92

end CharCode

def compareLengths (aLen bLen : Int) : Int :=
  if aLen < bLen then -1 else if aLen > bLen then 1 else 0

def compareSubstringFrom (a b : JsString) (aEnd bEnd : Nat) : Nat → Nat → Nat → Int
  | 0, aStart, bStart => compareLengths ((aEnd : Int) - aStart) ((bEnd : Int) - bStart)
  | rounds + 1, aStart, bStart =>
    match a[aStart]?, b[bStart]? with
    | some codeA, some codeB =>
      if codeA < codeB then -1
      else if codeA > codeB then 1
      else compareSubstringFrom a b aEnd bEnd rounds (aStart + 1) (bStart + 1)
    -- `NaN` is neither less nor greater
    | _, _ => compareSubstringFrom a b aEnd bEnd rounds (aStart + 1) (bStart + 1)

def compareSubstring (a b : JsString) (aStart aEnd bStart bEnd : Nat) : Int :=
  compareSubstringFrom a b aEnd bEnd (min (aEnd - aStart) (bEnd - bStart)) aStart bStart

def isLowerAsciiLetter (code : CodeUnit) : Bool := 97 ≤ code ∧ code ≤ 122

/-- A lower-case letter of ASCII as the upper-case one. -/
def toUpperAscii (code : CodeUnit) : CodeUnit :=
  if isLowerAsciiLetter code then code - 32 else code

section IgnoreCase

variable (toLowerCase : JsString → JsString)

def compareIgnoreCaseFrom (a b : JsString) (aEnd bEnd : Nat) : Nat → Nat → Nat → Int
  | 0, aStart, bStart => compareLengths ((aEnd : Int) - aStart) ((bEnd : Int) - bStart)
  | rounds + 1, aStart, bStart =>
    match a[aStart]?, b[bStart]? with
    | some codeA, some codeB =>
      if codeA = codeB then
        compareIgnoreCaseFrom a b aEnd bEnd rounds (aStart + 1) (bStart + 1)
      else if codeA ≥ 128 ∨ codeB ≥ 128 then
        compareSubstring (toLowerCase a) (toLowerCase b) aStart aEnd bStart bEnd
      else
        let diff : Int := (toUpperAscii codeA).toNat - (toUpperAscii codeB).toNat
        if diff = 0 then
          compareIgnoreCaseFrom a b aEnd bEnd rounds (aStart + 1) (bStart + 1)
        else diff
    | _, _ => 0

def compareSubstringIgnoreCase (a b : JsString) (aStart aEnd bStart bEnd : Nat) : Int :=
  compareIgnoreCaseFrom toLowerCase a b aEnd bEnd (min (aEnd - aStart) (bEnd - bStart))
    aStart bStart

end IgnoreCase

structure IKeyIterator (K σ : Type) where
  reset : K → σ
  next : σ → σ
  hasNext : σ → Bool
  cmp : σ → JsString → Int
  value : σ → JsString
  /-- A bound on the segments ahead. -/
  ahead : σ → Nat
  ahead_next : ∀ c, hasNext c = true → ahead (next c) < ahead c
  cmp_value : ∀ c, cmp c (value c) = 0

namespace IKeyIterator

variable {K σ : Type} (it : IKeyIterator K σ)

/-- The cursors from `c` to the last one. -/
def trail (c : σ) : List σ := go (it.ahead c) c
where
  go : Nat → σ → List σ
    | 0, c => [c]
    | rounds + 1, c => if it.hasNext c then c :: go rounds (it.next c) else [c]

theorem go_eq {rounds rounds' : Nat} {c : σ} (h : it.ahead c ≤ rounds)
    (h' : it.ahead c ≤ rounds') : trail.go it rounds c = trail.go it rounds' c := by
  induction rounds generalizing rounds' c with
  | zero =>
    have hlast : it.hasNext c ≠ true := fun hn => by
      have := it.ahead_next c hn
      omega
    cases rounds' <;> simp [trail.go, hlast]
  | succ rounds ih =>
    by_cases hn : it.hasNext c = true
    · have hlt := it.ahead_next c hn
      cases rounds' with
      | zero => omega
      | succ rounds' =>
        simp only [trail.go, if_pos hn]
        rw [@ih rounds' (it.next c) (by omega) (by omega)]
    · cases rounds' <;> simp [trail.go, hn]

theorem trail_of_hasNext {c : σ} (h : it.hasNext c = true) :
    it.trail c = c :: it.trail (it.next c) := by
  have hlt := it.ahead_next c h
  obtain ⟨rounds, hr⟩ : ∃ rounds, it.ahead c = rounds + 1 := ⟨it.ahead c - 1, by omega⟩
  rw [trail, hr, trail.go, if_pos h, trail, it.go_eq (by omega) le_rfl]

theorem trail_of_last {c : σ} (h : it.hasNext c = false) : it.trail c = [c] := by
  rw [trail]
  cases it.ahead c <;> simp [trail.go, h]

theorem self_mem_trail (c : σ) : c ∈ it.trail c := by
  cases h : it.hasNext c with
  | true => simp [it.trail_of_hasNext h]
  | false => simp [it.trail_of_last h]

def cursors (key : K) : List σ := it.trail (it.reset key)

end IKeyIterator

structure StringIterator where
  value : JsString
  pos : Nat

namespace StringIterator

def reset (key : JsString) : StringIterator := ⟨key, 0⟩

variable (it : StringIterator)

def next : StringIterator := { it with pos := it.pos + 1 }

def hasNext : Bool := it.pos + 1 < it.value.length

/-- A code unit outside the string is `NaN`, which compares as equal. -/
def cmp (a : JsString) : Int :=
  match a[0]?, it.value[it.pos]? with
  | some aCode, some thisCode => aCode.toNat - thisCode.toNat
  | _, _ => 0

/-- The text under the cursor; an empty key has no segment to ask for. -/
def text : JsString := it.value[it.pos]?.toList

end StringIterator

def stringIterator : IKeyIterator JsString StringIterator where
  reset := StringIterator.reset
  next := StringIterator.next
  hasNext := StringIterator.hasNext
  cmp := StringIterator.cmp
  value := StringIterator.text
  ahead it := it.value.length - it.pos
  ahead_next it h := by
    have : it.pos + 1 < it.value.length := of_decide_eq_true h
    simp only [StringIterator.next]
    omega
  cmp_value it := by
    simp only [StringIterator.cmp, StringIterator.text]
    cases it.value[it.pos]? <;> simp

/-- `_value`, `_valueLen`, `_from` and `_to` of an iterator over the text between separators. -/
structure SegmentCursor where
  value : JsString
  valueLen : Nat
  start : Nat
  stop : Nat
  start_le : start ≤ stop
  stop_le : stop ≤ valueLen
  valueLen_le : valueLen ≤ value.length

namespace SegmentCursor

/-- The loop of `next` over the code units ahead: where the next segment starts and stops. -/
def scan (isSeparator : CodeUnit → Bool) : List CodeUnit → Bool → Nat → Nat → Nat × Nat
  | [], _, start, stop => (start, stop)
  | ch :: rest, justSeps, start, stop =>
    if isSeparator ch then
      if justSeps then scan isSeparator rest true (start + 1) (stop + 1)
      else (start, stop)
    else scan isSeparator rest false start (stop + 1)

variable (isSeparator : CodeUnit → Bool)

theorem scan_bounds (units : List CodeUnit) (justSeps : Bool) {start stop : Nat}
    (h : start ≤ stop) : (scan isSeparator units justSeps start stop).1 ≤ (scan isSeparator
    units justSeps start stop).2 ∧ stop ≤ (scan isSeparator units justSeps start stop).2 ∧
    (scan isSeparator units justSeps start stop).2 ≤ stop + units.length := by
  induction units generalizing justSeps start stop with
  | nil => exact ⟨h, le_rfl, le_rfl⟩
  | cons ch rest ih =>
    rw [scan]
    split_ifs
    · have := ih true (show start + 1 ≤ stop + 1 by omega)
      simp only [List.length_cons]
      omega
    · simp only [List.length_cons]
      omega
    · have := ih false (show start ≤ stop + 1 by omega)
      simp only [List.length_cons]
      omega

theorem lt_scan {units : List CodeUnit} (hunits : units ≠ []) (stop : Nat) :
    stop < (scan isSeparator units true stop stop).2 := by
  cases units with
  | nil => exact absurd rfl hunits
  | cons ch rest =>
    simp only [scan, if_true]
    split_ifs
    · exact (scan_bounds isSeparator rest true (le_refl (stop + 1))).2.1
    · exact (scan_bounds isSeparator rest false (Nat.le_succ stop)).2.1

variable (it : SegmentCursor)

/-- The code units from `_to` on. -/
def unread : List CodeUnit := (it.value.take it.valueLen).drop it.stop

theorem length_unread : it.unread.length = it.valueLen - it.stop := by
  have := it.valueLen_le
  simp only [unread, List.length_drop, List.length_take]
  omega

def next : SegmentCursor where
  value := it.value
  valueLen := it.valueLen
  start := (scan isSeparator it.unread true it.stop it.stop).1
  stop := (scan isSeparator it.unread true it.stop it.stop).2
  start_le := (scan_bounds isSeparator it.unread true le_rfl).1
  stop_le := by
    have h := (scan_bounds isSeparator it.unread true (le_refl it.stop)).2.2
    have := it.stop_le
    rw [length_unread] at h
    omega
  valueLen_le := it.valueLen_le

def hasNext : Bool := it.stop < it.valueLen

def text : JsString := it.value.substring it.start it.stop

theorem ahead_next (h : it.hasNext = true) :
    (it.next isSeparator).valueLen - (it.next isSeparator).stop < it.valueLen - it.stop := by
  have hlt : it.stop < it.valueLen := of_decide_eq_true h
  have hne : it.unread ≠ [] := by
    intro hnil
    have := it.length_unread
    rw [hnil, List.length_nil] at this
    omega
  have hs : it.stop < (it.next isSeparator).stop := lt_scan isSeparator hne it.stop
  have hle := (it.next isSeparator).stop_le
  have hlen : (it.next isSeparator).valueLen = it.valueLen := rfl
  omega

theorem text_eq : it.text = (it.value.drop it.start).take (it.stop - it.start) := by
  have h₁ := it.start_le
  have h₂ := it.stop_le
  have h₃ := it.valueLen_le
  rw [text, JsString.substring_eq _ (by omega) (by omega) (by omega)]
  congr 1
  omega

theorem length_text : it.text.length = it.stop - it.start := by
  have h₁ := it.start_le
  have h₂ := it.stop_le
  have h₃ := it.valueLen_le
  rw [text_eq, List.length_take, List.length_drop]
  omega

theorem getElem?_text {i : Nat} (h : i < it.stop - it.start) :
    it.text[i]? = it.value[it.start + i]? := by
  rw [text_eq, List.getElem?_take_of_lt h, List.getElem?_drop]

/-- `compareSubstring` or `compareSubstringIgnoreCase` of `a` with the segment. -/
def cmp (toLowerCase : JsString → JsString) (caseSensitive : Bool) (it : SegmentCursor)
    (a : JsString) : Int :=
  if caseSensitive then compareSubstring a it.value 0 a.length it.start it.stop
  else compareSubstringIgnoreCase toLowerCase a it.value 0 a.length it.start it.stop

end SegmentCursor

namespace ConfigKeysIterator

def isSeparator (ch : CodeUnit) : Bool := ch = CharCode.Period

def reset (key : JsString) : SegmentCursor :=
  SegmentCursor.next isSeparator
    { value := key, valueLen := key.length, start := 0, stop := 0, start_le := le_rfl,
      stop_le := Nat.zero_le _, valueLen_le := le_rfl }

end ConfigKeysIterator

namespace PathIterator

def isSeparator (splitOnBackslash : Bool) (ch : CodeUnit) : Bool :=
  ch = CharCode.Slash || splitOnBackslash && ch = CharCode.Backslash

/-- Separators at the end of the key are left out by `_valueLen`. -/
def reset (splitOnBackslash : Bool) (key : JsString) : SegmentCursor :=
  SegmentCursor.next (isSeparator splitOnBackslash)
    { value := key, valueLen := (key.rdropWhile (isSeparator splitOnBackslash)).length,
      start := 0, stop := 0, start_le := le_rfl, stop_le := Nat.zero_le _,
      valueLen_le := ( List.rdropWhile_prefix _ key).length_le }

end PathIterator

variable {aEnd bEnd rounds i j : Nat}

theorem compareSubstringFrom_self {a b : JsString}
    (ha : aEnd = i + rounds) (hb : bEnd = j + rounds) (h : ∀ n < rounds, a[i + n]? = b[j + n]?) :
    compareSubstringFrom a b aEnd bEnd rounds i j = 0 := by
  induction rounds generalizing i j with
  | zero =>
    simp only [compareSubstringFrom, compareLengths]
    rw [if_neg (by omega), if_neg (by omega)]
  | succ rounds ih =>
    have hfirst : a[i]? = b[j]? := h 0 (by omega)
    have hrest := ih (i := i + 1) (j := j + 1) (by omega) (by omega)
      fun n hn => by
        have := h (n + 1) (by omega)
        rwa [← Nat.add_assoc, ← Nat.add_assoc, Nat.add_right_comm i, Nat.add_right_comm j] at this
    rw [compareSubstringFrom, hfirst, hrest]
    cases b[j]? <;> simp

variable (toLowerCase : JsString → JsString)

theorem compareIgnoreCaseFrom_self {a b : JsString}
    (ha : aEnd = i + rounds) (hb : bEnd = j + rounds) (h : ∀ n < rounds, a[i + n]? = b[j + n]?) :
    compareIgnoreCaseFrom toLowerCase a b aEnd bEnd rounds i j = 0 := by
  induction rounds generalizing i j with
  | zero =>
    simp only [compareIgnoreCaseFrom, compareLengths]
    rw [if_neg (by omega), if_neg (by omega)]
  | succ rounds ih =>
    have hfirst : a[i]? = b[j]? := h 0 (by omega)
    have hrest := ih (i := i + 1) (j := j + 1) (by omega) (by omega)
      fun n hn => by
        have := h (n + 1) (by omega)
        rwa [← Nat.add_assoc, ← Nat.add_assoc, Nat.add_right_comm i, Nat.add_right_comm j] at this
    rw [compareIgnoreCaseFrom, hfirst, hrest]
    cases b[j]? <;> simp

theorem SegmentCursor.cmp_text (caseSensitive : Bool)
    (it : SegmentCursor) : it.cmp toLowerCase caseSensitive it.text = 0 := by
  have hlen := it.length_text
  have hle := it.start_le
  have hrounds : min (it.text.length - 0) (it.stop - it.start) = it.stop - it.start := by
    omega
  have hread : ∀ n < it.stop - it.start, it.text[0 + n]? = it.value[it.start + n]? := by
    intro n hn
    rw [Nat.zero_add, it.getElem?_text hn]
  simp only [cmp, compareSubstring, compareSubstringIgnoreCase, hrounds]
  rw [compareSubstringFrom_self (by omega) (by omega) hread,
    compareIgnoreCaseFrom_self toLowerCase (by omega) (by omega) hread]
  exact ite_self 0

def configKeysIterator (caseSensitive : Bool) : IKeyIterator JsString SegmentCursor where
  reset := ConfigKeysIterator.reset
  next := SegmentCursor.next ConfigKeysIterator.isSeparator
  hasNext := SegmentCursor.hasNext
  cmp := SegmentCursor.cmp toLowerCase caseSensitive
  value := SegmentCursor.text
  ahead it := it.valueLen - it.stop
  ahead_next := SegmentCursor.ahead_next _
  cmp_value := SegmentCursor.cmp_text toLowerCase caseSensitive

def pathIterator (splitOnBackslash caseSensitive : Bool) : IKeyIterator JsString SegmentCursor where
  reset := PathIterator.reset splitOnBackslash
  next := SegmentCursor.next (PathIterator.isSeparator splitOnBackslash)
  hasNext := SegmentCursor.hasNext
  cmp := SegmentCursor.cmp toLowerCase caseSensitive
  value := SegmentCursor.text
  ahead it := it.valueLen - it.stop
  ahead_next := SegmentCursor.ahead_next _
  cmp_value := SegmentCursor.cmp_text toLowerCase caseSensitive

end CodeOss
