import CodeOss.Core.Range
import CodeOss.Library.Patch

/-! `BaseEdit`: a sorted list of disjoint replacements, over any replacement type.
`normalize` and `compose` follow the loops of the source; every constructor call
that may throw stays in `Except`. -/

namespace CodeOss

class BaseReplacement (T : Type) where
  replaceRange : T → OffsetRange
  getNewLength : T → Int
  tryJoinTouching : T → T → Except BugIndicatingError (Option T)
  slice : T → OffsetRange → OffsetRange → T

namespace BaseReplacement

variable {T : Type} [BaseReplacement T]

def delta (r : T) (offset : Int) : Except BugIndicatingError T := do
  return slice r ((replaceRange r).delta offset) (← OffsetRange.new 0 (getNewLength r))

def getLengthDelta (r : T) : Int := getNewLength r - (replaceRange r).length

end BaseReplacement

open BaseReplacement

/-- The first replacement that starts before the end of the one it follows,
with that end: what the constructor of `BaseEdit` throws on. -/
def unsorted? {T : Type} [BaseReplacement T] (lastEndEx : Int) : List T → Option (OffsetRange × Int)
  | [] => none
  | r :: rs =>
    if lastEndEx ≤ (replaceRange r).start then unsorted? (replaceRange r).endExclusive rs
    else some (replaceRange r, lastEndEx)

structure BaseEdit (T : Type) [BaseReplacement T] where
  replacements : List T
  sorted : unsorted? (-1) replacements = none

namespace BaseEdit

variable {T : Type} [BaseReplacement T]

def new (replacements : List T) : Except BugIndicatingError (BaseEdit T) :=
  match h : unsorted? (-1) replacements with
  | none => .ok ⟨replacements, h⟩
  | some (range, lastEndEx) => .error (.unsortedEdits range lastEndEx)

theorem new_eq_ok {rs : List T} (h : unsorted? (-1) rs = none) : new rs = .ok ⟨rs, h⟩ := by
  unfold new
  split
  · rfl
  · simp_all

def empty : BaseEdit T := ⟨[], rfl⟩

def isEmpty (e : BaseEdit T) : Bool := e.replacements.isEmpty

/-- The loop of `normalize`, with `newReplacements` and `lastReplacement` as arguments. -/
def normalizeLoop : List T → List T → Option T → Except BugIndicatingError (List T)
  | [], newReplacements, lastReplacement => .ok (newReplacements ++ lastReplacement.toList)
  | r :: rs, newReplacements, lastReplacement =>
    if getNewLength r = 0 ∧ (replaceRange r).length = 0 then
      normalizeLoop rs newReplacements lastReplacement
    else
      match lastReplacement with
      | none => normalizeLoop rs newReplacements (some r)
      | some last =>
        if (replaceRange last).endExclusive = (replaceRange r).start then do
          match ← tryJoinTouching last r with
          | some joined => normalizeLoop rs newReplacements (some joined)
          | none => normalizeLoop rs (newReplacements ++ [last]) (some r)
        else normalizeLoop rs (newReplacements ++ [last]) (some r)

def normalize (e : BaseEdit T) : Except BugIndicatingError (BaseEdit T) := do
  new (← normalizeLoop e.replacements [] none)

/-- The variables of `compose` that live across its loops. -/
structure ComposeState (T : Type) where
  edit1Queue : List T
  edit1ToEdit2 : Int
  result : List T

/-- Copy over edit1 unmodified until it touches edit2. -/
def copyUntouched (r2Start : Int) : List T → Int → List T → ComposeState T
  | [], edit1ToEdit2, result => ⟨[], edit1ToEdit2, result⟩
  | r1 :: edit1Queue, edit1ToEdit2, result =>
    if (replaceRange r1).start + edit1ToEdit2 + getNewLength r1 ≥ r2Start then
      ⟨r1 :: edit1Queue, edit1ToEdit2, result⟩
    else
      copyUntouched r2Start edit1Queue
        (edit1ToEdit2 + (getNewLength r1 - (replaceRange r1).length)) (result ++ [r1])

/-- What the second inner loop leaves: the rest of the queue, the running offset and
the first and last replacement that intersect or touch `r2`. -/
structure Intersecting (T : Type) where
  edit1Queue : List T
  edit1ToEdit2 : Int
  firstIntersecting : Option T
  lastIntersecting : Option T

def collectIntersecting (r2EndExclusive : Int) :
    List T → Int → Option T → Option T → Intersecting T
  | [], edit1ToEdit2, first, last => ⟨[], edit1ToEdit2, first, last⟩
  | r1 :: edit1Queue, edit1ToEdit2, first, last =>
    if (replaceRange r1).start + edit1ToEdit2 > r2EndExclusive then
      ⟨r1 :: edit1Queue, edit1ToEdit2, first, last⟩
    else
      collectIntersecting r2EndExclusive edit1Queue
        (edit1ToEdit2 + (getNewLength r1 - (replaceRange r1).length))
        (some (first.getD r1)) (some r1)

/-- Push the part of the first intersecting replacement that lies before `r2`. -/
def pushPrefix (first : T) (newReplaceRangeStart prefixLength : Int) (result : List T) :
    Except BugIndicatingError (List T) :=
  if prefixLength > 0 then do
    let cut ← OffsetRange.new 0 prefixLength
    return result ++ [slice first (OffsetRange.emptyAt newReplaceRangeStart) cut]
  else return result

/-- Put the part of the last intersecting replacement that lies behind `r2` back on the
queue, and take it out of the running offset again. -/
def unshiftSuffix (last : T) (suffixLength : Int) (edit1Queue : List T) (edit1ToEdit2 : Int) :
    Except BugIndicatingError (List T × Int) :=
  if suffixLength > 0 then do
    let range ← OffsetRange.ofStartAndLength (replaceRange last).endExclusive 0
    let cut ← OffsetRange.new (getNewLength last - suffixLength) (getNewLength last)
    let e := slice last range cut
    return (e :: edit1Queue, edit1ToEdit2 - (getNewLength e - (replaceRange e).length))
  else return (edit1Queue, edit1ToEdit2)

def composeStep (r2 : T) (s : ComposeState T) :
    Except BugIndicatingError (ComposeState T) := do
  let range2 := replaceRange r2
  let c := copyUntouched range2.start s.edit1Queue s.edit1ToEdit2 s.result
  let firstEdit1ToEdit2 := c.edit1ToEdit2
  let i := collectIntersecting range2.endExclusive c.edit1Queue c.edit1ToEdit2 none none
  match i.firstIntersecting with
  | none => return ⟨i.edit1Queue, i.edit1ToEdit2, c.result ++ [← delta r2 (-i.edit1ToEdit2)]⟩
  | some first =>
    let newReplaceRangeStart := min (replaceRange first).start (range2.start - firstEdit1ToEdit2)
    let prefixLength := range2.start - ((replaceRange first).start + firstEdit1ToEdit2)
    let result ← pushPrefix first newReplaceRangeStart prefixLength c.result
    match i.lastIntersecting with
    | none => throw .lastIntersectingUndefined
    | some last =>
      let suffixLength :=
        (replaceRange last).endExclusive + i.edit1ToEdit2 - range2.endExclusive
      let rest ← unshiftSuffix last suffixLength i.edit1Queue i.edit1ToEdit2
      let newReplaceRange ← OffsetRange.new newReplaceRangeStart (range2.endExclusive - rest.2)
      let middle := slice r2 newReplaceRange (← OffsetRange.new 0 (getNewLength r2))
      return ⟨rest.1, rest.2, result ++ [middle]⟩

def composeLoop : List T → ComposeState T → Except BugIndicatingError (ComposeState T)
  | [], s => .ok s
  | r2 :: rs, s => do composeLoop rs (← composeStep r2 s)

def compose (this other : BaseEdit T) : Except BugIndicatingError (BaseEdit T) := do
  let edits1 ← this.normalize
  let edits2 ← other.normalize
  if edits1.isEmpty then return edits2
  if edits2.isEmpty then return edits1
  let s ← composeLoop edits2.replacements ⟨edits1.replacements, 0, []⟩
  (← new (s.result ++ s.edit1Queue)).normalize

end BaseEdit

end CodeOss

/-! `StringEdit`: replacements of ranges of a string, all applied at once. -/

namespace CodeOss

structure StringReplacement where
  replaceRange : OffsetRange
  newText : JsString
deriving DecidableEq, Repr

namespace StringReplacement

/-- `slice` of the source with its optional argument given, as every caller gives it. -/
def slice (r : StringReplacement) (range rangeInReplacement : OffsetRange) : StringReplacement :=
  ⟨range, rangeInReplacement.substring r.newText⟩

def tryJoinTouching (r other : StringReplacement) :
    Except BugIndicatingError (Option StringReplacement) := do
  return some ⟨← r.replaceRange.joinRightTouching other.replaceRange, r.newText ++ other.newText⟩

instance : BaseReplacement StringReplacement where
  replaceRange := replaceRange
  getNewLength r := r.newText.length
  tryJoinTouching := tryJoinTouching
  slice := slice

end StringReplacement

abbrev StringEdit := BaseEdit StringReplacement

namespace StringEdit

def applyLoop (base : JsString) : List StringReplacement → Int → JsString → JsString
  | [], pos, resultText => resultText ++ base.substringFrom pos
  | edit :: edits, pos, resultText =>
    applyLoop base edits edit.replaceRange.endExclusive
      (resultText ++ base.substring pos edit.replaceRange.start ++ edit.newText)

def apply (e : StringEdit) (base : JsString) : JsString := applyLoop base e.replacements 0 []

/-- The loop of `composeSequentialReplacements`; `curEditReplacements` is reverse sorted. -/
def composeSequentialLoop : List StringReplacement → StringEdit → List StringReplacement →
    Except BugIndicatingError StringEdit
  | [], edit, curEditReplacements => do edit.compose (← BaseEdit.new curEditReplacements.reverse)
  | r :: rs, edit, curEditReplacements =>
    let extendsRun :=
      match curEditReplacements.getLast? with
      | none => true
      | some last => r.replaceRange.isBefore last.replaceRange
    if extendsRun then composeSequentialLoop rs edit (curEditReplacements ++ [r])
    else do
      composeSequentialLoop rs
        (← edit.compose (← BaseEdit.new curEditReplacements.reverse)) [r]

def composeSequentialReplacements (replacements : List StringReplacement) :
    Except BugIndicatingError StringEdit :=
  composeSequentialLoop replacements BaseEdit.empty []

end StringEdit

end CodeOss
