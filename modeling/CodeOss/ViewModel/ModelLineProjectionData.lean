import CodeOss.Base.JsString

/-! A wrapped line (modelLineProjectionData.ts): offsets of the line itself, offsets once the
injected texts stand in it, and positions in the lines it is broken into. -/

namespace CodeOss.ViewModel

inductive PositionAffinity
  | left
  | right
  | none
  | leftOfInjectedText
  | rightOfInjectedText
  deriving DecidableEq

inductive InjectedTextCursorStops
  | both
  | right
  | left
  | none
  deriving DecidableEq

/-- One entry of `injectionOffsets` with its entry of `injectionOptions`. -/
structure Injection where
  offset : ℤ
  content : JsString
  cursorStops : Option InjectedTextCursorStops

namespace Injection

def length (t : Injection) : ℤ := t.content.length

def hasRightCursorStop (t : Injection) : Bool :=
  t.cursorStops.all fun stops => stops == .right || stops == .both

def hasLeftCursorStop (t : Injection) : Bool :=
  t.cursorStops.all fun stops => stops == .left || stops == .both

end Injection

/-- `injectionOffsets` and `injectionOptions` are one list; `null` is the empty list, over which
each of the loops does nothing. -/
structure ModelLineProjectionData where
  injections : List Injection
  breakOffsets : List ℤ
  wrappedTextIndentLength : ℤ

structure OutputPosition where
  outputLineIndex : ℕ
  outputOffset : ℤ
  deriving DecidableEq

/-- What `getInjectedTextAtOffset` finds; `injectedTextIndex` is where the list is cut, the texts
with a smaller index nearest first. -/
structure InjectedTextAt where
  before : List Injection
  text : Injection
  after : List Injection
  offsetInInputWithInjections : ℤ

/-- The loop of `translateToInputOffset`. -/
def removeInjections : List Injection → ℤ → ℤ
  | [], offsetInInput => offsetInInput
  | t :: rest, offsetInInput =>
    if offsetInInput > t.offset then
      if offsetInInput < t.offset + t.length then removeInjections rest t.offset
      else removeInjections rest (offsetInInput - t.length)
    else offsetInInput

/-- The loop of `translateToOutputPosition`: what is added to the input offset. -/
def injectedLengthBefore (inputOffset : ℤ) (affinity : PositionAffinity) : List Injection → ℤ
  | [] => 0
  | t :: rest =>
    if inputOffset < t.offset then 0
    else if affinity ≠ .right ∧ inputOffset = t.offset then 0
    else t.length + injectedLengthBefore inputOffset affinity rest

/-- The loop of `getInjectedTextAtOffset`, past the texts `before`. -/
def findInjectedText (offset : ℤ) (before : List Injection) (totalInjectedTextLengthBefore : ℤ) :
    List Injection → Option InjectedTextAt
  | [] => none
  | t :: rest =>
    if t.offset + totalInjectedTextLengthBefore > offset then none
    else if offset ≤ t.offset + totalInjectedTextLengthBefore + t.length then
      some
        { before, text := t, after := rest
          offsetInInputWithInjections := t.offset + totalInjectedTextLengthBefore }
    else findInjectedText offset (t :: before) (totalInjectedTextLengthBefore + t.length) rest

/-- Back over the texts at `offset`, from the left end `result` of one of them, to a cursor stop. -/
def leftCursorStop (offset : ℤ) : List Injection → ℤ → ℤ
  | [], result => result
  | p :: before, result =>
    if p.offset = offset then
      if p.hasRightCursorStop then result
      else if p.hasLeftCursorStop then result - p.length
      else leftCursorStop offset before (result - p.length)
    else result

def leftOfTouching (offset : ℤ) : List Injection → ℤ → ℤ
  | [], result => result
  | p :: before, result =>
    if p.offset = offset then leftOfTouching p.offset before (result - p.length) else result

def rightOfTouching (offset : ℤ) : List Injection → ℤ → ℤ
  | [], result => result
  | n :: after, result =>
    if n.offset = offset then rightOfTouching n.offset after (result + n.length) else result

namespace ModelLineProjectionData

variable (d : ModelLineProjectionData)

def getOutputLineCount : ℕ := d.breakOffsets.length

variable (outputLineIndex : ℕ)

def getMinOutputOffset : ℤ :=
  if outputLineIndex > 0 then d.wrappedTextIndentLength else 0

def breakOffset (index : ℕ) : ℤ := d.breakOffsets.getD index 0

def lineStart : ℤ :=
  if outputLineIndex > 0 then d.breakOffset (outputLineIndex - 1) else 0

def getLineLength : ℤ :=
  let lineLength := d.breakOffset outputLineIndex - d.lineStart outputLineIndex
  if outputLineIndex > 0 then lineLength + d.wrappedTextIndentLength else lineLength

def getMaxOutputOffset : ℤ := d.getLineLength outputLineIndex

variable (p : OutputPosition)

def outputPositionToOffsetInInputWithInjections : ℤ :=
  d.lineStart p.outputLineIndex +
    if p.outputLineIndex > 0 then max 0 (p.outputOffset - d.wrappedTextIndentLength)
    else p.outputOffset

def translateToInputOffset : ℤ :=
  removeInjections d.injections (d.outputPositionToOffsetInInputWithInjections p)

/-- The binary search of `offsetInInputWithInjectionsToOutputPosition` in the lines `low` to `high`;
`mid` is the line looked at last. -/
def searchLine (offset : ℤ) (affinity : PositionAffinity) (low high mid : ℤ) : ℤ :=
  if low ≤ high then
    let mid := low + (high - low) / 2
    let midStop := d.breakOffset mid.toNat
    let midStart := d.lineStart mid.toNat
    if affinity = .left then
      if offset ≤ midStart then searchLine offset affinity low (mid - 1) mid
      else if offset > midStop then searchLine offset affinity (mid + 1) high mid
      else mid
    else
      if offset < midStart then searchLine offset affinity low (mid - 1) mid
      else if offset ≥ midStop then searchLine offset affinity (mid + 1) high mid
      else mid
  else mid
  termination_by (high - low + 1).toNat
  decreasing_by all_goals omega

def offsetInInputWithInjectionsToOutputPosition (offset : ℤ) (affinity : PositionAffinity) :
    OutputPosition :=
  let mid := (d.searchLine offset affinity 0 (d.breakOffsets.length - 1) 0).toNat
  let outputOffset := offset - d.lineStart mid
  ⟨mid, if mid > 0 then outputOffset + d.wrappedTextIndentLength else outputOffset⟩

def translateToOutputPosition (inputOffset : ℤ) (affinity : PositionAffinity) : OutputPosition :=
  d.offsetInInputWithInjectionsToOutputPosition
    (inputOffset + injectedLengthBefore inputOffset affinity d.injections) affinity

def getInjectedTextAtOffset (offset : ℤ) : Option InjectedTextAt :=
  findInjectedText offset [] 0 d.injections

def normalizeOffsetInInputWithInjectionsAroundInjections (offset : ℤ)
    (affinity : PositionAffinity) : ℤ :=
  match d.getInjectedTextAtOffset offset with
  | none => offset
  | some injectedText =>
    let start := injectedText.offsetInInputWithInjections
    let text := injectedText.text
    match affinity with
    | .none =>
      if offset = start + text.length ∧ text.hasRightCursorStop then start + text.length
      else if text.hasLeftCursorStop then start
      else leftCursorStop text.offset injectedText.before start
    | .right | .rightOfInjectedText =>
      rightOfTouching text.offset injectedText.after (start + text.length)
    | .left | .leftOfInjectedText => leftOfTouching text.offset injectedText.before start

/-- The end of `normalizeOutputPosition`, where no injected text moves the position. -/
def normalizeAtBreak (affinity : PositionAffinity) : OutputPosition :=
  if affinity = .left then
    if p.outputLineIndex > 0 ∧ p.outputOffset = d.getMinOutputOffset p.outputLineIndex then
      ⟨p.outputLineIndex - 1, d.getMaxOutputOffset (p.outputLineIndex - 1)⟩
    else p
  else if affinity = .right then
    if p.outputLineIndex < d.getOutputLineCount - 1 ∧
        p.outputOffset = d.getMaxOutputOffset p.outputLineIndex then
      ⟨p.outputLineIndex + 1, d.getMinOutputOffset (p.outputLineIndex + 1)⟩
    else p
  else p

def normalizeOutputPosition (affinity : PositionAffinity) : OutputPosition :=
  let offset := d.outputPositionToOffsetInInputWithInjections p
  let normalized := d.normalizeOffsetInInputWithInjectionsAroundInjections offset affinity
  if normalized ≠ offset then d.offsetInInputWithInjectionsToOutputPosition normalized affinity
  else d.normalizeAtBreak p affinity

end ModelLineProjectionData

end CodeOss.ViewModel
