import CodeOss.Base.JsString

/-! Positions and ranges of an editor: line numbers and columns count from one. -/

namespace CodeOss

structure Position where
  lineNumber : ℕ
  column : ℕ
  deriving DecidableEq

structure Range where
  startLineNumber : ℕ
  startColumn : ℕ
  endLineNumber : ℕ
  endColumn : ℕ
  deriving DecidableEq

namespace Range

def getStartPosition (range : Range) : Position := ⟨range.startLineNumber, range.startColumn⟩

end Range

end CodeOss

/-! `OffsetRange`: a half-open range of 0-based offsets.
The constructor of the source throws on a reversed range, so the model carries
`start ≤ endExclusive` in the structure and builds ranges through `new`. -/

namespace CodeOss

structure OffsetRange where
  start : Int
  endExclusive : Int
  le : start ≤ endExclusive
deriving DecidableEq, Repr

/-- The `BugIndicatingError`s of the range and edit classes, with their data. -/
inductive BugIndicatingError where
  | invalidRange (start endExclusive : Int)
  | invalidJoin (left right : OffsetRange)
  | unsortedEdits (replaceRange : OffsetRange) (lastEndEx : Int)
  | lastIntersectingUndefined
deriving DecidableEq, Repr

namespace OffsetRange

def new (start endExclusive : Int) : Except BugIndicatingError OffsetRange :=
  if h : start ≤ endExclusive then .ok ⟨start, endExclusive, h⟩
  else .error (.invalidRange start endExclusive)

def emptyAt (offset : Int) : OffsetRange := ⟨offset, offset, le_refl offset⟩

variable (r : OffsetRange)

def isEmpty : Bool := r.start == r.endExclusive

def length : Int := r.endExclusive - r.start

def delta (offset : Int) : OffsetRange :=
  ⟨r.start + offset, r.endExclusive + offset, by have := r.le; omega⟩

def ofStartAndLength (start length : Int) : Except BugIndicatingError OffsetRange :=
  new start (start + length)

def isBefore (r other : OffsetRange) : Bool := decide (r.endExclusive ≤ other.start)

def substring (str : JsString) : JsString :=
  str.substring r.start r.endExclusive

def joinRightTouching (r range : OffsetRange) : Except BugIndicatingError OffsetRange :=
  if r.endExclusive = range.start then new r.start range.endExclusive
  else .error (.invalidJoin r range)

theorem new_eq_ok {a b : Int} (h : a ≤ b) : new a b = .ok ⟨a, b, h⟩ := dif_pos h

@[simp] theorem emptyAt_start (p : Int) : (emptyAt p).start = p := rfl

@[simp] theorem emptyAt_endExclusive (p : Int) : (emptyAt p).endExclusive = p := rfl

@[simp] theorem delta_start (d : Int) : (r.delta d).start = r.start + d := rfl

@[simp] theorem delta_endExclusive (d : Int) :
    (r.delta d).endExclusive = r.endExclusive + d := rfl

theorem joinRightTouching_eq_ok {r range : OffsetRange} (h : r.endExclusive = range.start) :
    joinRightTouching r range =
      .ok ⟨r.start, range.endExclusive, by have := r.le; have := range.le; omega⟩ := by
  rw [joinRightTouching, if_pos h, new_eq_ok]

end OffsetRange

end CodeOss

/-! Counting the line breaks of a text. -/

namespace CodeOss

namespace CountEOL

/-- `eolCount`, `firstLineLength` and `lastLineStart` while the text is read. -/
structure Counts where
  eolCount : ℕ
  firstLineLength : ℕ
  lastLineStart : ℕ

/-- A line break at `i`; the next line begins at `next`. -/
def Counts.eol (counts : Counts) (i next : ℕ) : Counts :=
  { eolCount := counts.eolCount + 1
    firstLineLength := if counts.eolCount = 0 then i else counts.firstLineLength
    lastLineStart := next }

def loop (i : ℕ) (counts : Counts) : JsString → Counts
  | [] => counts
  | [chr] =>
    if chr = CharCode.CarriageReturn ∨ chr = CharCode.LineFeed then counts.eol i (i + 1)
    else counts
  | chr :: next :: rest =>
    if chr = CharCode.CarriageReturn then
      -- \r\n... case
      if next = CharCode.LineFeed then loop (i + 2) (counts.eol i (i + 2)) rest
      -- \r... case
      else loop (i + 1) (counts.eol i (i + 1)) (next :: rest)
    else if chr = CharCode.LineFeed then loop (i + 1) (counts.eol i (i + 1)) (next :: rest)
    else loop (i + 1) counts (next :: rest)

end CountEOL

/-- The number of line breaks and the lengths of the first and of the last line. -/
def countEOL (text : JsString) : ℕ × ℕ × ℕ :=
  let counts := CountEOL.loop 0 ⟨0, 0, 0⟩ text
  (counts.eolCount, if counts.eolCount = 0 then text.length else counts.firstLineLength,
    text.length - counts.lastLineStart)

example : countEOL [0x61, 13, 10, 0x62, 0x63, 10, 0x64] = (2, 1, 1) := by decide

end CodeOss
