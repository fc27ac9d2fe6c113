import CodeOss.Library.Cut
import CodeOss.Tokens.ContiguousTokensEditing

/-! The tokens of a text model, line by line. -/

namespace CodeOss

open List

namespace MetadataConsts

def LANGUAGEID_MASK : ℕ := 0b11111111
def BALANCED_BRACKETS_MASK : ℕ := 0b100_00000000
def LANGUAGEID_OFFSET : ℕ := 0
def TOKEN_TYPE_OFFSET : ℕ := 8
def FONT_STYLE_OFFSET : ℕ := 11
def FOREGROUND_OFFSET : ℕ := 15
def BACKGROUND_OFFSET : ℕ := 24

end MetadataConsts

open MetadataConsts

def getLanguageId (metadata : ℕ) : ℕ := (metadata &&& LANGUAGEID_MASK) >>> LANGUAGEID_OFFSET

/-- `StandardTokenType.Other`, `FontStyle.None` and the default colors. -/
def getDefaultMetadata (topLevelLanguageId : ℕ) : ℕ :=
  topLevelLanguageId <<< LANGUAGEID_OFFSET ||| 0 <<< TOKEN_TYPE_OFFSET |||
    0 <<< FONT_STYLE_OFFSET ||| 1 <<< FOREGROUND_OFFSET ||| 2 <<< BACKGROUND_OFFSET |||
    BALANCED_BRACKETS_MASK

structure ContiguousTokensStore where
  lineTokens : List RawLineTokens

namespace ContiguousTokensStore

def empty : ContiguousTokensStore := ⟨[]⟩

variable (store : ContiguousTokensStore)

/-- What the store knows about a line; beyond its end it knows nothing. -/
def line (lineNumber : ℕ) : RawLineTokens :=
  store.lineTokens.getD (lineNumber - 1) .null

def massageTokens (topLevelLanguageId lineTextLength : ℕ) (tokens : Option (List (ℕ × ℕ))) :
    RawLineTokens :=
  let hasDifferentLanguageId := match tokens with
    | some (token :: _) => getLanguageId token.2 != topLevelLanguageId
    | _ => false
  if lineTextLength = 0 ∧ hasDifferentLanguageId = false then .EMPTY_LINE_TOKENS
  else
    match tokens with
    | none => .array [(lineTextLength, getDefaultMetadata topLevelLanguageId)]
    | some [] => .array [(lineTextLength, getDefaultMetadata topLevelLanguageId)]
    -- Ensure the last token covers the end of the text
    | some (token :: rest) => .array ((token :: rest).dropLast ++
        [(lineTextLength, ((token :: rest).getLastD (0, 0)).2)])

variable (lineTokens : List RawLineTokens)

def ensureLine (lineIndex : ℕ) : List RawLineTokens :=
  lineTokens ++ List.replicate (lineIndex + 1 - lineTokens.length) .null

def deleteLines (start deleteCount : ℕ) : List RawLineTokens :=
  lineTokens.take start ++ lineTokens.drop (start + deleteCount)

def insertLines (insertIndex insertCount : ℕ) : List RawLineTokens :=
  lineTokens.take insertIndex ++ List.replicate insertCount .null ++ lineTokens.drop insertIndex

def setTokens (topLevelLanguageId lineIndex lineTextLength : ℕ)
    (tokens : Option (List (ℕ × ℕ))) : ContiguousTokensStore :=
  ⟨(ensureLine store.lineTokens lineIndex).set lineIndex
    (massageTokens topLevelLanguageId lineTextLength tokens)⟩

open ContiguousTokensEditing

def acceptDeleteRange (range : Range) : ContiguousTokensStore :=
  let lineTokens := store.lineTokens
  let firstLineIndex := range.startLineNumber - 1
  if lineTokens.length ≤ firstLineIndex then store
  else if range.startLineNumber = range.endLineNumber then
    if range.startColumn = range.endColumn then store
    else ⟨lineTokens.set firstLineIndex (delete (lineTokens.getD firstLineIndex .null)
      (range.startColumn - 1) (range.endColumn - 1))⟩
  else
    let first := deleteEnding (lineTokens.getD firstLineIndex .null) (range.startColumn - 1)
    let lastLineIndex := range.endLineNumber - 1
    let lastLineTokens :=
      if lastLineIndex < lineTokens.length then
        deleteBeginning (lineTokens.getD lastLineIndex .null) (range.endColumn - 1)
      else .null
    -- Take remaining text on last line and append it to remaining text on first line
    let lineTokens := lineTokens.set firstLineIndex (append first lastLineTokens)
    -- Delete middle lines
    ⟨deleteLines lineTokens range.startLineNumber (range.endLineNumber - range.startLineNumber)⟩

def acceptInsertText (position : Position) (eolCount firstLineLength : ℕ) : ContiguousTokensStore :=
  let lineTokens := store.lineTokens
  let lineIndex := position.lineNumber - 1
  if eolCount = 0 ∧ firstLineLength = 0 then store
  else if lineTokens.length ≤ lineIndex then store
  else if eolCount = 0 then
    -- Inserting text on one line
    ⟨lineTokens.set lineIndex
      (insert (lineTokens.getD lineIndex .null) (position.column - 1) firstLineLength)⟩
  else
    let kept := deleteEnding (lineTokens.getD lineIndex .null) (position.column - 1)
    ⟨insertLines (lineTokens.set lineIndex (insert kept (position.column - 1) firstLineLength))
      position.lineNumber eolCount⟩

def acceptEdit (range : Range) (eolCount firstLineLength : ℕ) : ContiguousTokensStore :=
  (store.acceptDeleteRange range).acceptInsertText range.getStartPosition eolCount firstLineLength

/-! ### The lines behind an edit

Where the store ends it reads as `null`, and so do the lines an edit leaves there. -/

theorem getD_replicate_null (count n : ℕ) :
    (List.replicate count RawLineTokens.null).getD n .null = .null := by
  rw [getD_eq_getElem?_getD, getElem?_replicate]
  split_ifs <;> rfl

variable {lineNumber : ℕ}

theorem line_of_length_le {store : ContiguousTokensStore}
    (h : store.lineTokens.length ≤ lineNumber - 1) : store.line lineNumber = .null :=
  getD_eq_default _ _ h

theorem line_setTokens (topLevelLanguageId lineIndex lineTextLength
    : ℕ) (tokens : Option (List (ℕ × ℕ))) {lineNumber : ℕ} (hpos : 1 ≤ lineNumber) :
    (store.setTokens topLevelLanguageId lineIndex lineTextLength tokens).line lineNumber = if
    lineNumber = lineIndex + 1 then massageTokens topLevelLanguageId lineTextLength tokens else
    store.line lineNumber := by
  have hlen : lineIndex < (ensureLine store.lineTokens lineIndex).length := by
    rw [ensureLine, length_append, length_replicate]
    omega
  rw [line, setTokens, List.getD_set_eq _ _ _ _ _ hlen]
  by_cases heq : lineNumber = lineIndex + 1
  · rw [if_pos (by omega), if_pos heq]
  · rw [if_neg (by omega), if_neg heq, ensureLine, line]
    by_cases hlt : lineNumber - 1 < store.lineTokens.length
    · rw [getD_append _ _ _ _ hlt]
    · rw [getD_append_right _ _ _ _ (not_lt.1 hlt), getD_replicate_null,
        getD_eq_default _ _ (not_lt.1 hlt)]

theorem length_acceptDeleteRange {range : Range}
    (hstart : 1 ≤ range.startLineNumber) (hle : range.startLineNumber ≤ range.endLineNumber)
    {lineCount : ℕ} (hlines : store.lineTokens.length ≤ lineCount)
    (hend : range.endLineNumber ≤ lineCount) : (store.acceptDeleteRange range).lineTokens.length +
    (range.endLineNumber - range.startLineNumber) ≤ lineCount := by
  by_cases hout : store.lineTokens.length ≤ range.startLineNumber - 1
  · rw [acceptDeleteRange]
    simp only [if_pos hout]
    omega
  by_cases hone : range.startLineNumber = range.endLineNumber
  · rw [acceptDeleteRange]
    simp only [if_neg hout, if_pos hone]
    split_ifs
    · omega
    · rw [List.length_set]
      omega
  · rw [acceptDeleteRange]
    simp only [if_neg hout, if_neg hone, deleteLines, length_append, List.length_take,
      List.length_drop, List.length_set]
    omega

theorem length_acceptInsertText (position : Position) (eolCount firstLineLength : ℕ) {lineCount : ℕ}
    (hlines : store.lineTokens.length ≤ lineCount) (hline : position.lineNumber ≤ lineCount) :
    (store.acceptInsertText position eolCount firstLineLength).lineTokens.length ≤
    lineCount + eolCount := by
  rw [acceptInsertText]
  simp only
  split_ifs
  · omega
  · omega
  · rw [List.length_set]
    omega
  · simp only [insertLines, length_append, List.length_take, List.length_drop,
      List.length_set, length_replicate]
    omega

theorem line_acceptDeleteRange {range : Range} (hstart : 1 ≤
    range.startLineNumber) (hle : range.startLineNumber ≤ range.endLineNumber)
    (hpos : 1 ≤ lineNumber) : (store.acceptDeleteRange range).line lineNumber = if lineNumber <
    range.startLineNumber then store.line lineNumber else if lineNumber = range.startLineNumber then
    joinedTokens store.line range else store.line (lineNumber + (range.endLineNumber -
    range.startLineNumber)) := by
  by_cases hout : store.lineTokens.length ≤ range.startLineNumber - 1
  · -- nothing is known from the first line of the range on
    have hnull {n : ℕ} (hn : range.startLineNumber ≤ n) : store.line n = .null :=
      line_of_length_le (by omega)
    rw [acceptDeleteRange]
    simp only [if_pos hout]
    split_ifs with hlt heq
    · rfl
    · rw [joinedTokens, hnull (not_lt.1 hlt), hnull le_rfl, hnull hle]
      split_ifs <;> rfl
    · rw [hnull (not_lt.1 hlt), hnull (by omega)]
  by_cases hone : range.startLineNumber = range.endLineNumber
  · rw [joinedTokens, if_pos hone, ← hone, Nat.sub_self, Nat.add_zero, acceptDeleteRange]
    simp only [if_neg hout, if_pos hone]
    split_ifs with hcolumns hlt heq hlt heq
    · rfl
    · rw [heq, hcolumns, delete_self]
    · rfl
    · exact (List.getD_set_eq _ _ _ _ _ (by omega)).trans (if_neg (by omega))
    · exact (List.getD_set_eq _ _ _ _ _ (by omega)).trans (if_pos (by omega))
    · exact (List.getD_set_eq _ _ _ _ _ (by omega)).trans (if_neg (by omega))
  · have hlast : (if range.endLineNumber - 1 < store.lineTokens.length then
        deleteBeginning (store.line range.endLineNumber) (range.endColumn - 1) else .null) =
        deleteBeginning (store.line range.endLineNumber) (range.endColumn - 1) := by
      split_ifs with hend
      · rfl
      · rw [line_of_length_le (not_lt.1 hend), deleteBeginning]
    have hjoined : joinedTokens store.line range =
        append (deleteEnding (store.line range.startLineNumber) (range.startColumn - 1))
          (if range.endLineNumber - 1 < store.lineTokens.length then
            deleteBeginning (store.line range.endLineNumber) (range.endColumn - 1) else .null) := by
      rw [hlast, joinedTokens, if_neg hone]
    have hspliced := List.getD_splice (l := store.lineTokens.set (range.startLineNumber - 1)
      (joinedTokens store.line range)) (i := range.startLineNumber) (by rw [List.length_set]; omega)
      range.endLineNumber [] (lineNumber - 1) .null
    rw [append_nil] at hspliced
    have hresult : (store.acceptDeleteRange range).lineTokens =
        (store.lineTokens.set (range.startLineNumber - 1) (joinedTokens store.line range)).take
          range.startLineNumber ++
        (store.lineTokens.set (range.startLineNumber - 1) (joinedTokens store.line range)).drop
          range.endLineNumber := by
      rw [hjoined, acceptDeleteRange]
      simp only [if_neg hout, if_neg hone, deleteLines, Nat.add_sub_cancel' hle]
      rfl
    rw [line, hresult, hspliced]
    have hset := List.getD_set_eq store.lineTokens (range.startLineNumber - 1)
      (joinedTokens store.line range)
    by_cases hlt : lineNumber < range.startLineNumber
    · rw [if_pos (by omega), if_pos hlt, hset _ _ (by omega), if_neg (by omega)]
      rfl
    by_cases heq : lineNumber = range.startLineNumber
    · rw [if_pos (by omega), if_neg hlt, if_pos heq, hset _ _ (by omega), if_pos (by omega)]
    · rw [if_neg (by omega), if_neg (by simp only [length_nil]; omega), if_neg hlt, if_neg heq,
        hset _ _ (by omega), if_neg (by simp only [length_nil]; omega), line]
      congr 1
      simp only [length_nil]
      omega

theorem line_acceptInsertText {position : Position} (hstart : 1 ≤
    position.lineNumber) (eolCount firstLineLength : ℕ) (hpos : 1 ≤ lineNumber) :
    (store.acceptInsertText position eolCount firstLineLength).line lineNumber = if lineNumber <
    position.lineNumber then store.line lineNumber else if lineNumber = position.lineNumber then if
    eolCount = 0 then if firstLineLength = 0 then store.line lineNumber else insert (store.line
    lineNumber) (position.column - 1) firstLineLength else insert (deleteEnding (store.line
    lineNumber) (position.column - 1)) (position.column - 1) firstLineLength else if lineNumber ≤
    position.lineNumber + eolCount then .null else store.line (lineNumber - eolCount) := by
  by_cases hnothing : eolCount = 0 ∧ firstLineLength = 0
  · obtain ⟨rfl, rfl⟩ := hnothing
    rw [acceptInsertText, if_pos ⟨rfl, rfl⟩]
    split_ifs <;> first | rfl | omega
  by_cases hout : store.lineTokens.length ≤ position.lineNumber - 1
  · -- nothing is known from the line of the position on
    have hnull {n : ℕ} (hn : position.lineNumber ≤ n) : store.line n = .null :=
      line_of_length_le (by omega)
    rw [acceptInsertText, if_neg hnothing]
    simp only [if_pos hout]
    split_ifs with hlt heq heol hlen heol
    · rfl
    · rfl
    · rw [hnull (not_lt.1 hlt), ContiguousTokensEditing.insert]
    · rw [hnull (not_lt.1 hlt), deleteEnding, ContiguousTokensEditing.insert]
    · exact hnull (not_lt.1 hlt)
    · rw [hnull (not_lt.1 hlt), hnull (by omega)]
  rw [acceptInsertText, if_neg hnothing]
  simp only [if_neg hout]
  by_cases heol : eolCount = 0
  · have hlen : firstLineLength ≠ 0 := fun h => hnothing ⟨heol, h⟩
    rw [if_pos heol, if_pos heol, if_neg hlen, heol, line,
      List.getD_set_eq _ _ _ _ _ (not_le.1 hout)]
    by_cases heq : lineNumber = position.lineNumber
    · rw [if_pos (by omega), if_neg (by omega), if_pos heq, heq, ← line]
    · have hother : (if lineNumber ≤ position.lineNumber + 0 then RawLineTokens.null
          else store.line (lineNumber - 0)) = if lineNumber < position.lineNumber then .null
          else store.line lineNumber := by
        split_ifs <;> first | rfl | omega
      rw [if_neg (by omega), if_neg heq, hother, ← line]
      split_ifs <;> rfl
  · rw [if_neg heol, if_neg heol, line]
    simp only [insertLines]
    rw [List.getD_splice (by rw [List.length_set]; omega), length_replicate]
    have hset := List.getD_set_eq store.lineTokens (position.lineNumber - 1)
      (ContiguousTokensEditing.insert
        (deleteEnding (store.lineTokens.getD (position.lineNumber - 1) .null)
        (position.column - 1)) (position.column - 1) firstLineLength)
    by_cases hlt : lineNumber < position.lineNumber
    · rw [if_pos (by omega), if_pos hlt, hset _ _ (by omega), if_neg (by omega)]
      rfl
    by_cases heq : lineNumber = position.lineNumber
    · rw [if_pos (by omega), if_neg hlt, if_pos heq, hset _ _ (by omega), if_pos (by omega), heq]
      rfl
    by_cases hnew : lineNumber ≤ position.lineNumber + eolCount
    · rw [if_neg (by omega), if_pos (by omega), if_neg hlt, if_neg heq, if_pos hnew,
        getD_replicate_null]
    · rw [if_neg (by omega), if_neg (by omega), if_neg hlt, if_neg heq, if_neg hnew,
        hset _ _ (by omega), if_neg (by omega), line]
      congr 1
      omega

section Around

variable (store : ContiguousTokensStore) {range : Range} {position : Position}
  {eolCount firstLineLength lineNumber : ℕ}

section

variable (hstart : 1 ≤ range.startLineNumber)
include hstart

variable (hle : range.startLineNumber ≤ range.endLineNumber)
include hle

theorem line_acceptDeleteRange_of_lt
    (hpos : 1 ≤ lineNumber) (hlt : lineNumber < range.startLineNumber) :
    (store.acceptDeleteRange range).line lineNumber = store.line lineNumber := by
  rw [store.line_acceptDeleteRange hstart hle hpos, if_pos hlt]

theorem line_acceptDeleteRange_self :
    (store.acceptDeleteRange range).line range.startLineNumber = joinedTokens store.line range := by
  rw [store.line_acceptDeleteRange hstart hle hstart, if_neg (lt_irrefl _), if_pos rfl]

theorem line_acceptDeleteRange_of_gt
    (hgt : range.startLineNumber < lineNumber) : (store.acceptDeleteRange range).line lineNumber =
    store.line (lineNumber + (range.endLineNumber - range.startLineNumber)) := by
  rw [store.line_acceptDeleteRange hstart hle (by omega), if_neg (by omega), if_neg hgt.ne']

end

theorem line_acceptInsertText_of_lt (hstart : 1 ≤ position.lineNumber)
    (hpos : 1 ≤ lineNumber) (hlt : lineNumber < position.lineNumber) : (store.acceptInsertText
    position eolCount firstLineLength).line lineNumber = store.line lineNumber := by
  rw [store.line_acceptInsertText hstart _ _ hpos, if_pos hlt]

theorem line_acceptInsertText_of_gt (hstart : 1 ≤ position.lineNumber)
    (hgt : position.lineNumber + eolCount < lineNumber) : (store.acceptInsertText
    position eolCount firstLineLength).line lineNumber = store.line (lineNumber - eolCount) := by
  have hlt : ¬lineNumber < position.lineNumber := by omega
  have hne : ¬lineNumber = position.lineNumber := by omega
  rw [store.line_acceptInsertText hstart _ _ (by omega), if_neg hlt, if_neg hne,
    if_neg (not_le.2 hgt)]

end Around

end ContiguousTokensStore

end CodeOss
