import CodeOss.Tokens.ContiguousTokensEditing

/-! The tokens of a block of lines.
`τ` is what the block holds for a line. -/

namespace CodeOss

structure ContiguousMultilineTokens (τ : Type*) where
  startLineNumber : ℕ
  tokens : List τ

namespace ContiguousMultilineTokens

def endLineNumberExclusive {τ : Type*} (block : ContiguousMultilineTokens τ) : ℕ :=
  block.startLineNumber + block.tokens.length

/-- A block of tokens that is kept up to date while the text is edited. -/
abbrev Block := ContiguousMultilineTokens RawLineTokens

/-- `getLineTokens`, where a line outside of the block has none. -/
def getLineTokens (block : Block) (lineNumber : ℕ) : RawLineTokens :=
  if block.startLineNumber ≤ lineNumber then
    block.tokens.getD (lineNumber - block.startLineNumber) .null
  else .null

open ContiguousTokensEditing

def acceptDeleteRange (block : Block) (range : Range) : Block :=
  let tokens := block.tokens
  let firstLineIndex : ℤ := range.startLineNumber - block.startLineNumber
  let lastLineIndex : ℤ := range.endLineNumber - block.startLineNumber
  -- Nothing to delete
  if range.startLineNumber = range.endLineNumber ∧ range.startColumn = range.endColumn then block
  else if lastLineIndex < 0 then
    -- this deletion occurs entirely before this block, so we only need to adjust line numbers
    ⟨block.startLineNumber - (lastLineIndex - firstLineIndex).toNat, tokens⟩
  else if tokens.length ≤ firstLineIndex then
    -- this deletion occurs entirely after this block, so there is nothing to do
    block
  else if firstLineIndex < 0 ∧ tokens.length ≤ lastLineIndex then
    -- this deletion completely encompasses this block
    ⟨0, []⟩
  else if firstLineIndex = lastLineIndex then
    -- a delete on a single line
    ⟨block.startLineNumber, tokens.set firstLineIndex.toNat
      (delete (tokens.getD firstLineIndex.toNat .null) (range.startColumn - 1)
        (range.endColumn - 1))⟩
  else if 0 ≤ firstLineIndex then
    -- The first line survives
    let first := deleteEnding (tokens.getD firstLineIndex.toNat .null) (range.startColumn - 1)
    if lastLineIndex < tokens.length then
      -- The last line survives
      let lastLineTokens :=
        deleteBeginning (tokens.getD lastLineIndex.toNat .null) (range.endColumn - 1)
      let tokens := tokens.set firstLineIndex.toNat (append first lastLineTokens)
      ⟨block.startLineNumber,
        tokens.take (firstLineIndex + 1).toNat ++ tokens.drop (lastLineIndex + 1).toNat⟩
    else
      -- The last line does not survive
      let tokens := tokens.set firstLineIndex.toNat (append first .null)
      ⟨block.startLineNumber, tokens.take (firstLineIndex + 1).toNat⟩
  else
    -- The first line does not survive
    let deletedBefore := -firstLineIndex
    let last := deleteBeginning (tokens.getD lastLineIndex.toNat .null) (range.endColumn - 1)
    ⟨block.startLineNumber - deletedBefore.toNat,
      (tokens.set lastLineIndex.toNat last).drop lastLineIndex.toNat⟩

def insertLines (tokens : List RawLineTokens) (insertIndex insertCount : ℕ) :
    List RawLineTokens :=
  tokens.take insertIndex ++ List.replicate insertCount .null ++ tokens.drop insertIndex

def acceptInsertText (block : Block) (position : Position) (eolCount firstLineLength : ℕ) :
    Block :=
  let tokens := block.tokens
  let lineIndex : ℤ := position.lineNumber - block.startLineNumber
  -- Nothing to insert
  if eolCount = 0 ∧ firstLineLength = 0 then block
  else if lineIndex < 0 then
    -- this insertion occurs before this block, so we only need to adjust line numbers
    ⟨block.startLineNumber + eolCount, tokens⟩
  else if tokens.length ≤ lineIndex then
    -- this insertion occurs after this block, so there is nothing to do
    block
  else if eolCount = 0 then
    -- Inserting text on one line
    ⟨block.startLineNumber, tokens.set lineIndex.toNat
      (ContiguousTokensEditing.insert (tokens.getD lineIndex.toNat .null) (position.column - 1)
        firstLineLength)⟩
  else
    let kept := deleteEnding (tokens.getD lineIndex.toNat .null) (position.column - 1)
    -- the index to insert at is the number of the line
    ⟨block.startLineNumber, insertLines
      (tokens.set lineIndex.toNat
        (ContiguousTokensEditing.insert kept (position.column - 1) firstLineLength))
      position.lineNumber eolCount⟩

def applyEdit (block : Block) (range : Range) (text : JsString) : Block :=
  let (eolCount, firstLineLength, _) := countEOL text
  (block.acceptDeleteRange range).acceptInsertText range.getStartPosition eolCount
    firstLineLength

variable {block : Block} {lineNumber : ℕ}

theorem getLineTokens_of_le (h : block.startLineNumber ≤ lineNumber) :
    block.getLineTokens lineNumber =
      block.tokens.getD (lineNumber - block.startLineNumber) .null := if_pos h

theorem getLineTokens_of_lt (h : lineNumber < block.startLineNumber) :
    block.getLineTokens lineNumber = .null :=
  if_neg (not_le.2 h)

theorem getLineTokens_of_end_le (h : block.endLineNumberExclusive ≤ lineNumber) :
    block.getLineTokens lineNumber = .null := by
  rw [endLineNumberExclusive] at h
  rw [getLineTokens_of_le (by omega), List.getD_eq_default _ _ (by omega)]

end ContiguousMultilineTokens

end CodeOss
