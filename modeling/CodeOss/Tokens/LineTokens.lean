import CodeOss.Tokens.EditingSpec

/-! The tokens of one line with its text: texts inserted with tokens of their own, and slices. -/

namespace CodeOss

structure LineTokens where
  tokens : List (ℕ × ℕ)
  text : JsString
  deriving DecidableEq

structure InsertToken where
  offset : ℕ
  text : JsString
  tokenMetadata : ℕ
  deriving DecidableEq

namespace LineTokens

variable (line : LineTokens)

def getCount : ℕ := line.tokens.length

def getStartOffset (tokenIndex : ℕ) : ℕ :=
  if 0 < tokenIndex then endOffset line.tokens (tokenIndex - 1) else 0

def getEndOffset (tokenIndex : ℕ) : ℕ := endOffset line.tokens tokenIndex

def getMetadata (tokenIndex : ℕ) : ℕ := metadata line.tokens tokenIndex

def getTokenText (tokenIndex : ℕ) : JsString :=
  line.text.substring (line.getStartOffset tokenIndex) (line.getEndOffset tokenIndex)

/-- An offset before the line is before every token's end. -/
def findTokenIndexAtOffset (offset : ℤ) : ℕ :=
  if offset < 0 then 0 else findIndexInTokensArray line.tokens offset.toNat

/-- The text and the tokens that are made, and how far the original text is used up. -/
structure Inserting where
  text : JsString
  newTokens : List (ℕ × ℕ)
  originalEndOffset : ℕ

namespace Inserting

def push (state : Inserting) (text : JsString) (metadata : ℕ) : Inserting :=
  { state with
    text := state.text ++ text
    newTokens := state.newTokens ++ [((state.text ++ text).length, metadata)] }

def pushOriginal (source : JsString) (state : Inserting) (offset metadata : ℕ) : Inserting :=
  { state.push (source.substring state.originalEndOffset offset) metadata with
    originalEndOffset := offset }

/-- The insert token may be in the middle of the next token, with the metadata `metadata`. -/
def pushInsert (source : JsString) (state : Inserting) (insert : InsertToken) (metadata : ℕ) :
    Inserting :=
  (if insert.offset > state.originalEndOffset then
    state.pushOriginal source insert.offset metadata
  else state).push insert.text insert.tokenMetadata

end Inserting

def insertLoop (source : JsString) (original : List (ℕ × ℕ)) (inserts : List InsertToken)
    (state : Inserting) : LineTokens :=
  match original, inserts with
  | [], [] => ⟨state.newTokens, state.text⟩
  | [], insert :: inserts => insertLoop source [] inserts (state.pushInsert source insert 0)
  | token :: original, [] =>
    insertLoop source original [] (state.pushOriginal source token.1 token.2)
  | token :: original, insert :: inserts =>
    if token.1 ≤ insert.offset then
      insertLoop source original (insert :: inserts)
        (state.pushOriginal source token.1 token.2)
    else insertLoop source (token :: original) inserts (state.pushInsert source insert token.2)
termination_by original.length + inserts.length

def withInserted (insertTokens : List InsertToken) : LineTokens :=
  if insertTokens.length = 0 then line
  else insertLoop line.text line.tokens insertTokens ⟨[], [], 0⟩

end LineTokens

structure SliceLineTokens where
  source : LineTokens
  startOffset : ℕ
  endOffset : ℕ
  deltaOffset : ℤ
  firstTokenIndex : ℕ
  tokensCount : ℕ

def LineTokens.sliceAndInflate (line : LineTokens) (startOffset endOffset : ℕ)
    (deltaOffset : ℤ) : SliceLineTokens where
  source := line
  startOffset
  endOffset
  deltaOffset
  firstTokenIndex := line.findTokenIndexAtOffset startOffset
  tokensCount :=
    let firstTokenIndex := line.findTokenIndexAtOffset startOffset
    ((List.range' firstTokenIndex (line.getCount - firstTokenIndex)).takeWhile fun i =>
      line.getStartOffset i < endOffset).length

namespace SliceLineTokens

variable (slice : SliceLineTokens)

def getCount : ℕ := slice.tokensCount

def getMetadata (tokenIndex : ℕ) : ℕ :=
  slice.source.getMetadata (slice.firstTokenIndex + tokenIndex)

def getLineContent : JsString :=
  slice.source.text.substring slice.startOffset slice.endOffset

def getEndOffset (tokenIndex : ℕ) : ℤ :=
  let tokenEndOffset := slice.source.getEndOffset (slice.firstTokenIndex + tokenIndex)
  (min slice.endOffset tokenEndOffset : ℤ) - slice.startOffset + slice.deltaOffset

def findTokenIndexAtOffset (offset : ℤ) : ℤ :=
  slice.source.findTokenIndexAtOffset (offset + slice.startOffset - slice.deltaOffset) -
    (slice.firstTokenIndex : ℤ)

def getTokenText (tokenIndex : ℕ) : JsString :=
  let adjustedTokenIndex := slice.firstTokenIndex + tokenIndex
  let tokenStartOffset := slice.source.getStartOffset adjustedTokenIndex
  let tokenEndOffset := slice.source.getEndOffset adjustedTokenIndex
  let text := slice.source.getTokenText adjustedTokenIndex
  let text :=
    if tokenStartOffset < slice.startOffset then
      text.substringFrom ((slice.startOffset : ℤ) - tokenStartOffset)
    else text
  if tokenEndOffset > slice.endOffset then
    text.substring 0 ((text.length : ℤ) - (tokenEndOffset - slice.endOffset))
  else text

end SliceLineTokens

namespace LineTokens

/-- The ends go up strictly, and the last one is the end of the text. -/
structure Valid (line : LineTokens) : Prop where
  increasing : Runs.Increasing line.tokens
  stop : Runs.stop 0 line.tokens = line.text.length

/-- The insertions are made in order; the offsets are those before any of them. -/
def inserted {α : Type} (values : List α) (inserts : List (ℕ × List α)) : List α :=
  inserts.foldr (fun insert values => values.take insert.1 ++ insert.2 ++ values.drop insert.1)
    values

/-- A slice has the text and the metadata of its part of the line. -/
structure Sliced (line : LineTokens) (startOffset endOffset : ℕ) (slice : SliceLineTokens) :
    Prop where
  content : slice.getLineContent = (line.text.drop startOffset).take (endOffset - startOffset)
  texts : (List.range slice.getCount).flatMap slice.getTokenText = slice.getLineContent
  metadata : (List.range slice.getCount).flatMap (fun i =>
      List.replicate (slice.getTokenText i).length (slice.getMetadata i)) =
    ((metadataOf line.tokens).drop startOffset).take (endOffset - startOffset)
  nonempty : 0 < slice.getCount
  ends_le : ∀ i < slice.getCount, slice.deltaOffset ≤ slice.getEndOffset i
  ends_mono : ∀ i j, i ≤ j → j < slice.getCount → slice.getEndOffset i ≤ slice.getEndOffset j
  ends_last : slice.getEndOffset (slice.getCount - 1) =
    slice.deltaOffset + endOffset - startOffset
  found : ∀ k < endOffset - startOffset, ∃ i < slice.getCount,
    slice.findTokenIndexAtOffset (slice.deltaOffset + k) = i ∧
      line.getStartOffset (slice.firstTokenIndex + i) ≤ startOffset + k ∧
      startOffset + k < line.getEndOffset (slice.firstTokenIndex + i) ∧
      (∀ j < i, slice.getEndOffset j ≤ slice.deltaOffset + k) ∧
      slice.deltaOffset + k < slice.getEndOffset i ∧
      (metadataOf line.tokens)[startOffset + k]? = some (slice.getMetadata i)

end LineTokens

end CodeOss
