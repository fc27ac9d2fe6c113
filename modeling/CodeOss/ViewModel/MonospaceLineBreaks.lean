import CodeOss.Base.Utf16
import CodeOss.ViewModel.ModelLineProjectionData

/-! Where a line is wrapped (`createLineBreaks` of monospaceLineBreaksComputer.ts). Columns are
rationals: a full width character counts as the quotient of two font metrics. -/

namespace CodeOss.ViewModel

inductive CharacterClass
  | none
  | breakBefore
  | breakAfter
  | breakIdeographic
  deriving DecidableEq

inductive WrappingIndent
  | none
  | same
  | indent
  | deepIndent
  deriving DecidableEq

structure LineInjectedText where
  column : ℤ
  content : JsString
  cursorStops : Option InjectedTextCursorStops

structure WrappingOptions where
  classOf : CodeUnit → CharacterClass
  tabSize : ℕ
  firstLineBreakColumn : ℤ
  columnsForFullWidthChar : ℚ
  wrappingIndent : WrappingIndent
  isKeepAll : Bool
  wrapOnEscapedLineFeeds : Bool

/-- A projection with the visible column of each break. -/
structure LineBreaks extends ModelLineProjectionData where
  breakOffsetsVisibleColumn : List ℚ

/-- The rest of the loop of `applyInjectedText`. -/
def applyInjectedTextFrom (lineText : JsString) (lastOriginalOffset : ℤ) :
    List LineInjectedText → JsString
  | [] => lineText.substringFrom lastOriginalOffset
  | injectedText :: rest =>
    lineText.substring lastOriginalOffset (injectedText.column - 1) ++ injectedText.content ++
      applyInjectedTextFrom lineText (injectedText.column - 1) rest

def applyInjectedText (lineText : JsString) (injectedTexts : List LineInjectedText) : JsString :=
  if injectedTexts = [] then lineText else applyInjectedTextFrom lineText 0 injectedTexts

def isFullWidthCharacter (charCode : CodeUnit) : Bool :=
  charCode ≥ 0x2E80 && charCode ≤ 0xD7AF || charCode ≥ 0xF900 && charCode ≤ 0xFAFF ||
    charCode ≥ 0xFF01 && charCode ≤ 0xFF5E || charCode ≥ 0xFFE0 && charCode ≤ 0xFFE6

def modTabSize (visibleColumn : ℚ) (tabSize : ℕ) : ℚ :=
  visibleColumn - tabSize * ⌊visibleColumn / tabSize⌋

variable (o : WrappingOptions)

def computeCharWidth (charCode : CodeUnit) (visibleColumn : ℚ) : ℚ :=
  if charCode = CharCode.Tab then o.tabSize - modTabSize visibleColumn o.tabSize
  else if isFullWidthCharacter charCode then o.columnsForFullWidthChar
  else if charCode < 32 then o.columnsForFullWidthChar
  else 1

def tabCharacterWidth (visibleColumn : ℤ) (tabSize : ℕ) : ℤ := tabSize - visibleColumn % tabSize

/-- The backslashes before an `n`, read backwards. -/
def oddEscapes (escapeCount : ℕ) : JsString → Bool
  | [] => false
  | c :: before => if c = 92 then oddEscapes (escapeCount + 1) before else escapeCount % 2 == 1

def isEscapedLineBreakAtPosition (lineText : JsString) (i : ℕ) : Bool :=
  decide (i ≥ 2) && lineText[i - 1]? == some 110 && oddEscapes 0 (lineText.take (i - 1)).reverse

def canBreak (prevCharCodeClass : CharacterClass) (charCode : CodeUnit)
    (charCodeClass : CharacterClass) (isKeepAll : Bool) : Bool :=
  charCode != 32 &&
    (prevCharCodeClass == .breakAfter && charCodeClass != .breakAfter ||
      prevCharCodeClass != .breakBefore && charCodeClass == .breakBefore ||
      !isKeepAll && prevCharCodeClass == .breakIdeographic && charCodeClass != .breakAfter ||
      !isKeepAll && charCodeClass == .breakIdeographic && prevCharCodeClass != .breakBefore)

def indentLength (tabSize : ℕ) : JsString → ℤ → ℤ
  | [], length => length
  | c :: rest, length =>
    indentLength tabSize rest
      (length + if c = CharCode.Tab then tabCharacterWidth length tabSize else 1)

def addTabs (tabSize : ℕ) : ℕ → ℤ → ℤ
  | 0, length => length
  | n + 1, length => addTabs tabSize n (length + tabCharacterWidth length tabSize)

def computeWrappedTextIndentLength (lineText : JsString) : ℤ :=
  let whitespace := lineText.takeWhile fun c => c == 32 || c == CharCode.Tab
  if o.wrappingIndent = .none ∨ whitespace = lineText then 0
  else
    let numberOfAdditionalTabs :=
      if o.wrappingIndent = .deepIndent then 2 else if o.wrappingIndent = .indent then 1 else 0
    let length := addTabs o.tabSize numberOfAdditionalTabs (indentLength o.tabSize whitespace 0)
    if length + o.columnsForFullWidthChar > o.firstLineBreakColumn then 0 else length

structure Break where
  offset : ℕ
  visibleColumn : ℚ

/-- The variables of the loop; `breaks` are `breakingOffsets` and `breakingOffsetsVisibleColumn`. -/
structure Scan where
  prevCharCodeClass : CharacterClass
  visibleColumn : ℚ
  breakOffset : Break
  breakingColumn : ℚ
  breaks : List Break

def charClass (charCode : CodeUnit) : CharacterClass :=
  if isHighSurrogate charCode then .none else o.classOf charCode

def charWidth (charCode : CodeUnit) (visibleColumn : ℚ) : ℚ :=
  if isHighSurrogate charCode then 2 else computeCharWidth o charCode visibleColumn

/-- `i` is behind the first half of a surrogate pair. -/
def wrapsEscapedLineFeed (lineText : JsString) (charStartOffset : ℕ) (charCode : CodeUnit) : Bool :=
  let i := if isHighSurrogate charCode then charStartOffset + 1 else charStartOffset
  o.wrapOnEscapedLineFeeds && isEscapedLineBreakAtPosition lineText i

/-- The break offset once the character at `charStartOffset` is looked at. -/
def nextBreakOffset (lineText : JsString) (charStartOffset : ℕ)
    (charCode : CodeUnit) (s : Scan) : Break :=
  if wrapsEscapedLineFeed o lineText charStartOffset charCode ||
      canBreak s.prevCharCodeClass charCode (charClass o charCode) o.isKeepAll then
    ⟨charStartOffset, s.visibleColumn⟩
  else s.breakOffset

/-- The body of the loop for the character at `charStartOffset`. -/
def scanChar (lineText : JsString) (wrappedLineBreakColumn : ℚ)
    (charStartOffset : ℕ) (charCode : CodeUnit) (s : Scan) : Scan :=
  let width := charWidth o charCode s.visibleColumn
  let breakOffset := nextBreakOffset o lineText charStartOffset charCode s
  let visibleColumn := s.visibleColumn + width
  if visibleColumn > s.breakingColumn ∨ wrapsEscapedLineFeed o lineText charStartOffset charCode then
    let breakOffset :=
      if breakOffset.offset = 0 ∨
          visibleColumn - breakOffset.visibleColumn > wrappedLineBreakColumn then
        ⟨charStartOffset, visibleColumn - width⟩
      else breakOffset
    { prevCharCodeClass := charClass o charCode
      visibleColumn
      breakOffset := ⟨0, breakOffset.visibleColumn⟩
      breakingColumn := breakOffset.visibleColumn + wrappedLineBreakColumn
      breaks := s.breaks ++ [breakOffset] }
  else { s with prevCharCodeClass := charClass o charCode, visibleColumn, breakOffset }

/-- The loop over the code units from `i` on. -/
def scanFrom (o : WrappingOptions) (lineText : JsString) (wrappedLineBreakColumn : ℚ) (i : ℕ) :
    JsString → Scan → Scan
  | [], s => s
  | charCode :: rest, s =>
    let s' := scanChar o lineText wrappedLineBreakColumn i charCode s
    if isHighSurrogate charCode then
      scanFrom o lineText wrappedLineBreakColumn (i + 2) rest.tail s'
    else scanFrom o lineText wrappedLineBreakColumn (i + 1) rest s'
  termination_by rest => rest.length
  decreasing_by all_goals simp only [List.length_tail, List.length_cons]; omega

/-- The state before the loop, behind the first character. -/
def scanStart (first second : CodeUnit) : Scan where
  prevCharCodeClass := o.classOf (if isHighSurrogate first then second else first)
  visibleColumn := computeCharWidth o first 0 + if isHighSurrogate first then 1 else 0
  breakOffset := ⟨0, 0⟩
  breakingColumn := o.firstLineBreakColumn
  breaks := []

def createLineBreaks (lineText : JsString)
    (injectedTexts : List LineInjectedText) : Option LineBreaks :=
  let lineText := applyInjectedText lineText injectedTexts
  let injections := injectedTexts.map fun t => ⟨t.column - 1, t.content, t.cursorStops⟩
  let unwrapped : Option LineBreaks :=
    if injectedTexts = [] then none
    else
      some { injections, breakOffsets := [lineText.length], wrappedTextIndentLength := 0
             breakOffsetsVisibleColumn := [] }
  if o.firstLineBreakColumn = -1 then unwrapped
  else
    match lineText with
    | first :: second :: rest =>
      let wrappedTextIndentLength := computeWrappedTextIndentLength o lineText
      let wrappedLineBreakColumn := o.firstLineBreakColumn - wrappedTextIndentLength
      let start := scanStart o first second
      let s :=
        if isHighSurrogate first then scanFrom o lineText wrappedLineBreakColumn 2 rest start
        else scanFrom o lineText wrappedLineBreakColumn 1 (second :: rest) start
      if s.breaks = [] ∧ injectedTexts = [] then none
      else
        let breaks := s.breaks ++ [⟨lineText.length, s.visibleColumn⟩]
        some { injections, breakOffsets := breaks.map fun b => b.offset, wrappedTextIndentLength
               breakOffsetsVisibleColumn := breaks.map (·.visibleColumn) }
    | _ => unwrapped

end CodeOss.ViewModel
