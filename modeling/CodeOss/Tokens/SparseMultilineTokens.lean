import CodeOss.Core.Range

/-! Sparse tokens over a contiguous range of lines. -/

namespace CodeOss

namespace CharCode

def Digit0 : CodeUnit := 48
def Digit9 : CodeUnit := 57
def A : CodeUnit := 65
def Z : CodeUnit := 90
def a : CodeUnit := 97
def z : CodeUnit := 122

end CharCode

/-- One token; its line counts from the first line of the block. -/
structure SparseToken where
  deltaLine : ℕ
  startCharacter : ℕ
  endCharacter : ℕ
  metadata : ℕ
  deriving DecidableEq

namespace SparseMultilineTokensStorage

variable (tokens : List SparseToken)

def getMaxDeltaLine : ℤ :=
  match tokens.getLast? with
  | none => -1
  | some token => token.deltaLine

def getRange : Option Range :=
  match tokens.head?, tokens.getLast? with
  | some first, some last =>
    some ⟨0, first.startCharacter + 1, last.deltaLine, last.endCharacter + 1⟩
  | _, _ => none

/-- `getDeltaLine`; what is behind the tokens is not read. -/
def getDeltaLine (tokenIndex : ℕ) : ℕ := (tokens.map SparseToken.deltaLine).getD tokenIndex 0

/-- The first token of the line, when all from there to `mid` are of it. -/
def firstOfLine (deltaLine low : ℕ) : ℕ → ℕ
  | 0 => 0
  | min + 1 =>
    if low < min + 1 ∧ getDeltaLine tokens min = deltaLine then firstOfLine deltaLine low min
    else min + 1

def lastOfLine (deltaLine high max : ℕ) : ℕ :=
  if max < high ∧ getDeltaLine tokens (max + 1) = deltaLine then
    lastOfLine deltaLine high (max + 1)
  else max
termination_by high - max

def searchLine (deltaLine low : ℕ) (high : ℤ) : Option (List SparseToken) :=
  if low < high then
    let mid := low + (high.toNat - low) / 2
    let midDeltaLine := getDeltaLine tokens mid
    if midDeltaLine < deltaLine then searchLine deltaLine (mid + 1) high
    else if deltaLine < midDeltaLine then searchLine deltaLine low (mid - 1)
    else
      let min := firstOfLine tokens deltaLine low mid
      let max := lastOfLine tokens deltaLine high.toNat mid
      some ((tokens.drop min).take (max + 1 - min))
  else if getDeltaLine tokens low = deltaLine then some ((tokens.drop low).take 1)
  else none
termination_by (high + 1 - low).toNat

def getLineTokens (deltaLine : ℕ) : Option (List SparseToken) :=
  searchLine tokens deltaLine 0 (tokens.length - 1)

def reaches (startDeltaLine : ℤ) (startChar : ℕ) (token : SparseToken) : Bool :=
  startDeltaLine < token.deltaLine ∨
    (token.deltaLine : ℤ) = startDeltaLine ∧ startChar ≤ token.endCharacter

def reachedBy (endDeltaLine : ℤ) (endChar : ℕ) (token : SparseToken) : Bool :=
  token.deltaLine < endDeltaLine ∨
    (token.deltaLine : ℤ) = endDeltaLine ∧ token.startCharacter ≤ endChar

/-- The loop of `removeTokens`. The line of the first token that stays is known from then on,
and the lines count from it; whether the token also moves to the left makes no difference. -/
def removeLoop (startDeltaLine : ℤ) (startChar : ℕ) (endDeltaLine : ℤ) (endChar : ℕ) :
    Option ℕ → List SparseToken → List SparseToken × ℕ
  | firstDeltaLine, [] => ([], firstDeltaLine.getD 0)
  | firstDeltaLine, token :: tokens =>
    if reaches startDeltaLine startChar token ∧ reachedBy endDeltaLine endChar token then
      removeLoop startDeltaLine startChar endDeltaLine endChar firstDeltaLine tokens
    else
      let first := firstDeltaLine.getD token.deltaLine
      let (rest, delta) :=
        removeLoop startDeltaLine startChar endDeltaLine endChar (some first) tokens
      ({ token with deltaLine := token.deltaLine - first } :: rest, delta)

/-- The tokens that do not touch the range, and by how much the block starts further down. -/
def removeTokens (startDeltaLine : ℤ) (startChar : ℕ) (endDeltaLine : ℤ) (endChar : ℕ) :
    List SparseToken × ℕ :=
  removeLoop startDeltaLine startChar endDeltaLine endChar none tokens

/-- The loop of `split` once there is a token behind the range: `destFirstDeltaLine` is its line. -/
def splitBehind (startDeltaLine : ℤ) (startChar : ℕ) (endDeltaLine : ℤ) (endChar : ℕ)
    (destFirstDeltaLine : ℕ) : List SparseToken → List SparseToken
  | [] => []
  | token :: tokens =>
    let rest := splitBehind startDeltaLine startChar endDeltaLine endChar destFirstDeltaLine tokens
    if reaches startDeltaLine startChar token ∧ reachedBy endDeltaLine endChar token then rest
    else { token with deltaLine := token.deltaLine - destFirstDeltaLine } :: rest

/-- The tokens in front of the range and those behind it, with the line the latter count from. -/
def split (startDeltaLine : ℤ) (startChar : ℕ) (endDeltaLine : ℤ) (endChar : ℕ) :
    List SparseToken → List SparseToken × List SparseToken × ℕ
  | [] => ([], [], 0)
  | token :: tokens =>
    if reaches startDeltaLine startChar token then
      if reachedBy endDeltaLine endChar token then
        split startDeltaLine startChar endDeltaLine endChar tokens
      else
        ([], splitBehind startDeltaLine startChar endDeltaLine endChar token.deltaLine
          (token :: tokens), token.deltaLine)
    else
      let (a, b, delta) := split startDeltaLine startChar endDeltaLine endChar tokens
      (token :: a, b, delta)

/-- What the loop of `acceptDeleteRange` does at a token. -/
inductive Deletion where
  | keep (token : SparseToken)
  | delete
  | stop
  | notPossible

def deletion (horizontalShiftForFirstLineTokens startDeltaLine startCharacter endDeltaLine
    endCharacter : ℕ) (hasDeletedTokens : Bool) (token : SparseToken) : Deletion :=
  if token.deltaLine < startDeltaLine ∨
      token.deltaLine = startDeltaLine ∧ token.endCharacter ≤ startCharacter then
    -- 1a.
    .keep token
  else if token.deltaLine = startDeltaLine ∧ token.startCharacter < startCharacter then
    -- 1b, 1c, 1d
    if token.deltaLine = endDeltaLine ∧ endCharacter < token.endCharacter then
      .keep { token with endCharacter := token.endCharacter - (endCharacter - startCharacter) }
    else .keep { token with endCharacter := startCharacter }
  else if token.deltaLine = startDeltaLine ∧ token.startCharacter = startCharacter then
    -- 2a, 2b, 2c
    if token.deltaLine = endDeltaLine ∧ endCharacter < token.endCharacter then
      .keep { token with endCharacter := token.endCharacter - (endCharacter - startCharacter) }
    else .delete
  else if token.deltaLine < endDeltaLine ∨
      token.deltaLine = endDeltaLine ∧ token.startCharacter < endCharacter then
    -- 3a, 3b, 3c
    if token.deltaLine = endDeltaLine ∧ endCharacter < token.endCharacter then
      .keep { token with
        deltaLine := startDeltaLine
        startCharacter := startCharacter
        endCharacter := startCharacter + (token.endCharacter - endCharacter) }
    else .delete
  else if endDeltaLine < token.deltaLine then
    -- 4. on a line below
    if endDeltaLine - startDeltaLine = 0 ∧ hasDeletedTokens = false then .stop
    else .keep { token with deltaLine := token.deltaLine - (endDeltaLine - startDeltaLine) }
  else if token.deltaLine = endDeltaLine ∧ endCharacter ≤ token.startCharacter then
    -- 4. on the last line; a range of several lines may end at a smaller column than it starts
    let shift := if token.deltaLine = 0 then horizontalShiftForFirstLineTokens else 0
    .keep { token with
      deltaLine := token.deltaLine - (endDeltaLine - startDeltaLine)
      startCharacter := token.startCharacter + shift + startCharacter - endCharacter
      endCharacter := token.endCharacter + shift + startCharacter - endCharacter }
  else .notPossible

def deleteLoop (horizontalShiftForFirstLineTokens startDeltaLine startCharacter endDeltaLine
    endCharacter : ℕ) : Bool → List SparseToken → Option (List SparseToken)
  | _, [] => some []
  | hasDeletedTokens, token :: tokens =>
    match deletion horizontalShiftForFirstLineTokens startDeltaLine startCharacter endDeltaLine
        endCharacter hasDeletedTokens token with
    | .keep kept =>
      (deleteLoop horizontalShiftForFirstLineTokens startDeltaLine startCharacter endDeltaLine
        endCharacter hasDeletedTokens tokens).map (kept :: ·)
    | .delete => deleteLoop horizontalShiftForFirstLineTokens startDeltaLine startCharacter
        endDeltaLine endCharacter true tokens
    | .stop => some (token :: tokens)
    | .notPossible => none

/-- `none` is the error `Not possible!`. -/
def acceptDeleteRange (horizontalShiftForFirstLineTokens startDeltaLine startCharacter endDeltaLine
    endCharacter : ℕ) : Option (List SparseToken) :=
  deleteLoop horizontalShiftForFirstLineTokens startDeltaLine startCharacter endDeltaLine
    endCharacter false tokens

def isInsertingPreciselyOneWordCharacter (eolCount firstLineLength : ℕ) (firstCharCode : CodeUnit) :
    Bool :=
  eolCount = 0 ∧ firstLineLength = 1 ∧
    (CharCode.Digit0 ≤ firstCharCode ∧ firstCharCode ≤ CharCode.Digit9 ∨
      CharCode.A ≤ firstCharCode ∧ firstCharCode ≤ CharCode.Z ∨
      CharCode.a ≤ firstCharCode ∧ firstCharCode ≤ CharCode.z)

variable (deltaLine character eolCount firstLineLength lastLineLength : ℕ)

def insertion (isWordCharacter : Bool) (token : SparseToken) : SparseToken :=
  if token.deltaLine < deltaLine ∨
      token.deltaLine = deltaLine ∧ token.endCharacter < character then
    -- 1.
    token
  else if token.deltaLine = deltaLine ∧ token.endCharacter = character then
    -- 2.
    if isWordCharacter then { token with endCharacter := token.endCharacter + 1 } else token
  else if token.deltaLine = deltaLine ∧ token.startCharacter < character ∧
      character < token.endCharacter then
    -- 3.
    if eolCount = 0 then { token with endCharacter := token.endCharacter + firstLineLength }
    else { token with endCharacter := character }
  else if token.deltaLine = deltaLine ∧ token.startCharacter = character ∧ isWordCharacter then
    -- 4. the token keeps its end, too
    token
  else if token.deltaLine = deltaLine then
    -- 4. or 5.
    if eolCount = 0 then
      { token with
        startCharacter := token.startCharacter + firstLineLength
        endCharacter := token.endCharacter + firstLineLength }
    else
      let startCharacter := lastLineLength + (token.startCharacter - character)
      { token with
        deltaLine := token.deltaLine + eolCount
        startCharacter := startCharacter
        endCharacter := startCharacter + (token.endCharacter - token.startCharacter) }
  else { token with deltaLine := token.deltaLine + eolCount }

def acceptInsertText (firstCharCode : CodeUnit) : List SparseToken :=
  tokens.map (insertion deltaLine character eolCount firstLineLength lastLineLength
    (isInsertingPreciselyOneWordCharacter eolCount firstLineLength firstCharCode))

end SparseMultilineTokensStorage

structure SparseMultilineTokens where
  startLineNumber : ℕ
  tokens : List SparseToken
  deriving DecidableEq

namespace SparseMultilineTokens

open SparseMultilineTokensStorage

variable (block : SparseMultilineTokens)

/-- It is brought up to date at the end of every operation. -/
def endLineNumber : ℤ :=
  block.startLineNumber + getMaxDeltaLine block.tokens

def isEmpty : Bool := block.tokens.isEmpty

def getLineTokens (lineNumber : ℕ) : Option (List SparseToken) :=
  if block.startLineNumber ≤ lineNumber ∧ (lineNumber : ℤ) ≤ block.endLineNumber then
    SparseMultilineTokensStorage.getLineTokens block.tokens (lineNumber - block.startLineNumber)
  else none

def getRange : Option Range :=
  (SparseMultilineTokensStorage.getRange block.tokens).map fun deltaRange =>
    ⟨block.startLineNumber + deltaRange.startLineNumber, deltaRange.startColumn,
      block.startLineNumber + deltaRange.endLineNumber, deltaRange.endColumn⟩

def removeTokens (range : Range) : SparseMultilineTokens :=
  let startLineIndex := (range.startLineNumber : ℤ) - block.startLineNumber
  let endLineIndex := (range.endLineNumber : ℤ) - block.startLineNumber
  let (tokens, delta) := SparseMultilineTokensStorage.removeTokens block.tokens startLineIndex
    (range.startColumn - 1) endLineIndex (range.endColumn - 1)
  ⟨block.startLineNumber + delta, tokens⟩

/-- The tokens in front of the range, and those behind it. -/
def split (block : SparseMultilineTokens) (range : Range) :
    SparseMultilineTokens × SparseMultilineTokens :=
  let startLineIndex := (range.startLineNumber : ℤ) - block.startLineNumber
  let endLineIndex := (range.endLineNumber : ℤ) - block.startLineNumber
  let (a, b, bDeltaLine) := SparseMultilineTokensStorage.split startLineIndex
    (range.startColumn - 1) endLineIndex (range.endColumn - 1) block.tokens
  (⟨block.startLineNumber, a⟩, ⟨block.startLineNumber + bDeltaLine, b⟩)

def acceptDeleteRange (range : Range) : Option SparseMultilineTokens :=
  let firstLineIndex := (range.startLineNumber : ℤ) - block.startLineNumber
  let lastLineIndex := (range.endLineNumber : ℤ) - block.startLineNumber
  let tokenMaxDeltaLine := getMaxDeltaLine block.tokens
  if range.startLineNumber = range.endLineNumber ∧ range.startColumn = range.endColumn then
    -- Nothing to delete
    some block
  else if lastLineIndex < 0 then
    let deletedLinesCount := lastLineIndex - firstLineIndex
    some { block with startLineNumber := (block.startLineNumber - deletedLinesCount).toNat }
  else if tokenMaxDeltaLine + 1 ≤ firstLineIndex then some block
  else if firstLineIndex < 0 ∧ tokenMaxDeltaLine + 1 ≤ lastLineIndex then some ⟨0, []⟩
  else if firstLineIndex < 0 then
    let deletedBefore := -firstLineIndex
    (SparseMultilineTokensStorage.acceptDeleteRange block.tokens (range.startColumn - 1) 0 0
      lastLineIndex.toNat (range.endColumn - 1)).map fun tokens =>
        ⟨(block.startLineNumber - deletedBefore).toNat, tokens⟩
  else
    (SparseMultilineTokensStorage.acceptDeleteRange block.tokens 0 firstLineIndex.toNat
      (range.startColumn - 1) lastLineIndex.toNat (range.endColumn - 1)).map fun tokens =>
        { block with tokens := tokens }

def acceptInsertText (position : Position)
    (eolCount firstLineLength lastLineLength : ℕ) (firstCharCode : CodeUnit) :
    SparseMultilineTokens :=
  let lineIndex := (position.lineNumber : ℤ) - block.startLineNumber
  if eolCount = 0 ∧ firstLineLength = 0 then
    -- Nothing to insert
    block
  else if lineIndex < 0 then { block with startLineNumber := block.startLineNumber + eolCount }
  else if getMaxDeltaLine block.tokens + 1 ≤ lineIndex then block
  else { block with
    tokens := SparseMultilineTokensStorage.acceptInsertText block.tokens lineIndex.toNat
      (position.column - 1) eolCount firstLineLength lastLineLength firstCharCode }

def acceptEdit (range : Range)
    (eolCount firstLineLength lastLineLength : ℕ) (firstCharCode : CodeUnit) :
    Option SparseMultilineTokens :=
  (block.acceptDeleteRange range).map fun deleted =>
    deleted.acceptInsertText range.getStartPosition eolCount firstLineLength lastLineLength
      firstCharCode

end SparseMultilineTokens

end CodeOss
