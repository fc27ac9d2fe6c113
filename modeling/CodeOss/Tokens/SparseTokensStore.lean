import CodeOss.Tokens.ContiguousTokensEditing
import CodeOss.Tokens.SparseMultilineTokens

/-! The sparse tokens of a text model, in pieces, and the tokens of a line with them. -/

namespace CodeOss

namespace Range

def plusRange (a b : Range) : Range :=
  { startLineNumber := if b.startLineNumber < a.startLineNumber then b.startLineNumber
      else a.startLineNumber
    startColumn :=
      if b.startLineNumber < a.startLineNumber then b.startColumn
      else if b.startLineNumber = a.startLineNumber then min b.startColumn a.startColumn
      else a.startColumn
    endLineNumber := if a.endLineNumber < b.endLineNumber then b.endLineNumber
      else a.endLineNumber
    endColumn :=
      if a.endLineNumber < b.endLineNumber then b.endColumn
      else if b.endLineNumber = a.endLineNumber then max b.endColumn a.endColumn
      else a.endColumn }

end Range

namespace MetadataConsts

def ITALIC_MASK : ℕ := 0x800
def BOLD_MASK : ℕ := 0x1000
def UNDERLINE_MASK : ℕ := 0x2000
def STRIKETHROUGH_MASK : ℕ := 0x4000
def FOREGROUND_MASK : ℕ := 0xff8000
def BACKGROUND_MASK : ℕ := 0xff000000
def SEMANTIC_USE_ITALIC : ℕ := 0x1
def SEMANTIC_USE_BOLD : ℕ := 0x2
def SEMANTIC_USE_UNDERLINE : ℕ := 0x4
def SEMANTIC_USE_STRIKETHROUGH : ℕ := 0x8
def SEMANTIC_USE_FOREGROUND : ℕ := 0x10
def SEMANTIC_USE_BACKGROUND : ℕ := 0x20

end MetadataConsts

abbrev SparseTokensStore := List SparseMultilineTokens

namespace SparseTokensStore

open LineTokens MetadataConsts

/-- The range with the ranges of the first and the last new piece; `none` where one is empty. -/
def extendRange (range : Range) (pieces : List SparseMultilineTokens) : Option Range :=
  match pieces.head?, pieces.getLast? with
  | some first, some last =>
    match first.getRange, last.getRange with
    | some firstRange, some lastRange => some ((range.plusRange firstRange).plusRange lastRange)
    | _, _ => none
  | _, _ => some range

/-- The loop of `setPartial`. `done` are the pieces in front of the one at hand, so that its index
is their number; `insertPosition` is kept once it is known. -/
def setPartialLoop (range : Range) (done : List SparseMultilineTokens) (insertPosition : Option ℕ) :
    List SparseMultilineTokens → List SparseMultilineTokens × Option ℕ
  | [] => (done, insertPosition)
  | piece :: rest =>
    if piece.endLineNumber < range.startLineNumber then
      -- this piece is before the range
      setPartialLoop range (done ++ [piece]) insertPosition rest
    else if range.endLineNumber < piece.startLineNumber then
      -- this piece is after the range
      (done ++ piece :: rest, some (insertPosition.getD done.length))
    else
      let piece := piece.removeTokens range
      if piece.isEmpty then setPartialLoop range done insertPosition rest
      else if piece.endLineNumber < range.startLineNumber then
        -- after removal, this piece is before the range
        setPartialLoop range (done ++ [piece]) insertPosition rest
      else if range.endLineNumber < piece.startLineNumber then
        -- after removal, this piece is after the range
        setPartialLoop range (done ++ [piece]) (some (insertPosition.getD done.length)) rest
      else
        -- after removal, this piece contains the range
        let (a, b) := piece.split range
        if a.isEmpty then
          -- this piece is actually after the range
          setPartialLoop range (done ++ [piece]) (some (insertPosition.getD done.length)) rest
        else if b.isEmpty then
          -- this piece is actually before the range
          setPartialLoop range (done ++ [piece]) insertPosition rest
        else
          setPartialLoop range (done ++ [a, b]) (some (insertPosition.getD (done.length + 1)))
            rest

/-- The pieces, and the range that was set. -/
def setPartial (store : SparseTokensStore) (range : Range)
    (pieces : List SparseMultilineTokens) : SparseTokensStore × Range :=
  match extendRange range pieces with
  | none => (store, range)
  | some range =>
    let (kept, insertPosition) := setPartialLoop range [] none store
    let index := insertPosition.getD kept.length
    (kept.take index ++ pieces ++ kept.drop index, range)

/-- Empty pieces are removed. -/
def acceptEdit (range : Range) (eolCount firstLineLength lastLineLength : ℕ)
    (firstCharCode : CodeUnit) : SparseTokensStore → Option SparseTokensStore
  | [] => some []
  | piece :: rest => do
      let edited ← piece.acceptEdit range eolCount firstLineLength lastLineLength firstCharCode
      let others ← acceptEdit range eolCount firstLineLength lastLineLength firstCharCode rest
      return if edited.isEmpty then others else edited :: others

/-- From a piece with the line back to the first of those in front of it that have it, too. -/
def firstWithLine (pieces : List SparseMultilineTokens) (lineNumber low : ℕ) : ℕ → ℕ
  | 0 => 0
  | mid + 1 =>
    match pieces[mid]? with
    | none => mid + 1
    | some piece =>
      if low < mid + 1 ∧ piece.startLineNumber ≤ lineNumber ∧
          (lineNumber : ℤ) ≤ piece.endLineNumber then
        firstWithLine pieces lineNumber low mid
      else mid + 1

def findPieceLoop (pieces : List SparseMultilineTokens) (lineNumber low : ℕ) (high : ℤ) : ℕ :=
  if low < high then
    let mid := low + (high.toNat - low) / 2
    match pieces[mid]? with
    | none => low
    | some piece =>
      if piece.endLineNumber < lineNumber then findPieceLoop pieces lineNumber (mid + 1) high
      else if lineNumber < piece.startLineNumber then
        findPieceLoop pieces lineNumber low (mid - 1)
      else firstWithLine pieces lineNumber low mid
  else low
termination_by (high + 1 - low).toNat

def findFirstPieceWithLine (pieces : List SparseMultilineTokens) (lineNumber : ℕ) : ℕ :=
  findPieceLoop pieces lineNumber 0 (pieces.length - 1)

/-- `result` and `lastEndOffset` of `addSparseTokens`. -/
structure Emitter where
  result : List (ℕ × ℕ)
  lastEndOffset : ℕ

def Emitter.emitToken (emitter : Emitter) (endOffset metadata : ℕ) : Emitter :=
  if endOffset ≤ emitter.lastEndOffset then emitter
  else ⟨emitter.result ++ [(endOffset, metadata)], endOffset⟩

/-- `metadata & flag ? mask : 0` -/
def useMask (metadata flag mask : ℕ) : ℕ := if metadata &&& flag ≠ 0 then mask else 0

def bMask (bMetadata : ℕ) : ℕ :=
  useMask bMetadata SEMANTIC_USE_ITALIC ITALIC_MASK |||
    useMask bMetadata SEMANTIC_USE_BOLD BOLD_MASK |||
    useMask bMetadata SEMANTIC_USE_UNDERLINE UNDERLINE_MASK |||
    useMask bMetadata SEMANTIC_USE_STRIKETHROUGH STRIKETHROUGH_MASK |||
    useMask bMetadata SEMANTIC_USE_FOREGROUND FOREGROUND_MASK |||
    useMask bMetadata SEMANTIC_USE_BACKGROUND BACKGROUND_MASK

/-- `(~bMask) >>> 0` -/
def aMask (bMetadata : ℕ) : ℕ := bMask bMetadata ^^^ 0xffffffff

def mergeMetadata (aMetadata bMetadata : ℕ) : ℕ :=
  aMetadata &&& aMask bMetadata ||| bMetadata &&& bMask bMetadata

variable (aTokens : List (ℕ × ℕ))

def startOffset (tokenIndex : ℕ) : ℕ :=
  if 0 < tokenIndex then endOffset aTokens (tokenIndex - 1) else 0

/-- push any token from `a` that is before `b` -/
def pushBefore (bStartCharacter aIndex : ℕ) (emitter : Emitter) : ℕ × Emitter :=
  if aIndex < aTokens.length ∧ endOffset aTokens aIndex ≤ bStartCharacter then
    pushBefore bStartCharacter (aIndex + 1)
      (emitter.emitToken (endOffset aTokens aIndex) (metadata aTokens aIndex))
  else (aIndex, emitter)
termination_by aTokens.length - aIndex

/-- The tokens from `a` that are contained inside `b`. -/
def pushInside (bEndCharacter bMetadata aIndex : ℕ) (emitter : Emitter) : ℕ × Emitter :=
  if aIndex < aTokens.length ∧ endOffset aTokens aIndex < bEndCharacter then
    pushInside bEndCharacter bMetadata (aIndex + 1)
      (emitter.emitToken (endOffset aTokens aIndex)
        (mergeMetadata (metadata aTokens aIndex) bMetadata))
  else (aIndex, emitter)
termination_by aTokens.length - aIndex

/-- One token from `b`; what is behind the text is cut off. -/
def pushToken (textLength : ℕ) (bToken : SparseToken) (aIndex : ℕ) (emitter : Emitter) :
    ℕ × Emitter :=
  let bStartCharacter := min bToken.startCharacter textLength
  let bEndCharacter := min bToken.endCharacter textLength
  let bMetadata := bToken.metadata
  let (aIndex, emitter) := pushBefore aTokens bStartCharacter aIndex emitter
  -- push the token from `a` if it intersects the token from `b`
  let emitter :=
    if aIndex < aTokens.length ∧ startOffset aTokens aIndex < bStartCharacter then
      emitter.emitToken bStartCharacter (metadata aTokens aIndex)
    else emitter
  let (aIndex, emitter) := pushInside aTokens bEndCharacter bMetadata aIndex emitter
  if aIndex < aTokens.length then
    let emitter := emitter.emitToken bEndCharacter
      (mergeMetadata (metadata aTokens aIndex) bMetadata)
    (if endOffset aTokens aIndex = bEndCharacter then aIndex + 1 else aIndex, emitter)
  else
    let aMergeIndex := min (aIndex - 1) (aTokens.length - 1)
    (aIndex, emitter.emitToken bEndCharacter
      (mergeMetadata (metadata aTokens aMergeIndex) bMetadata))

def pushTokens (textLength : ℕ) (aIndex : ℕ) (emitter : Emitter) :
    List SparseToken → ℕ × Emitter
  | [] => (aIndex, emitter)
  | bToken :: bTokens =>
    let (aIndex, emitter) := pushToken aTokens textLength bToken aIndex emitter
    pushTokens textLength aIndex emitter bTokens

/-- push the remaining tokens from `a` -/
def pushRemaining (aIndex : ℕ) (emitter : Emitter) : Emitter :=
  if aIndex < aTokens.length then
    pushRemaining (aIndex + 1)
      (emitter.emitToken (endOffset aTokens aIndex) (metadata aTokens aIndex))
  else emitter
termination_by aTokens.length - aIndex

def addSparseTokens (store : SparseTokensStore) (lineNumber textLength : ℕ)
    (aTokens : List (ℕ × ℕ)) : List (ℕ × ℕ) :=
  if textLength = 0 then
    -- Don't do anything for empty lines
    aTokens
  else
    match store[findFirstPieceWithLine store lineNumber]? with
    | none => aTokens
    | some piece =>
      match piece.getLineTokens lineNumber with
      | none => aTokens
      | some bTokens =>
        let (aIndex, emitter) := pushTokens aTokens textLength 0 ⟨[], 0⟩ bTokens
        (pushRemaining aTokens aIndex emitter).result

end SparseTokensStore

end CodeOss
