import CodeOss.Core.Range
import CodeOss.Library.Cut

/-! A document as its lines, and what an edit does to each of them.
`α` is what a line is made of. -/

namespace CodeOss

open List

namespace Lines

variable {α : Type*}

variable (doc : List (List α))

/-- The characters of a line; a line that does not exist has none. -/
def line (lineNumber : ℕ) : List α := doc.getD (lineNumber - 1) []

/-- The text with something in front of its first line and something behind its last. -/
def between (before : List α) (text : List (List α)) (behind : List α) : List (List α) :=
  match text with
  | [] => [before ++ behind]
  | [only] => [before ++ only ++ behind]
  | first :: second :: rest => (before ++ first) ::
      ((second :: rest).dropLast ++ [(second :: rest).getLastD [] ++ behind])

/-- The document with the text of a range taken out. -/
def deleteRange (range : Range) : List (List α) :=
  doc.take (range.startLineNumber - 1) ++
    [(line doc range.startLineNumber).take (range.startColumn - 1) ++
      (line doc range.endLineNumber).drop (range.endColumn - 1)] ++
    doc.drop range.endLineNumber

/-- The document with text, given by its lines, put in at a position. -/
def insertText (position : Position) (text : List (List α)) : List (List α) :=
  doc.take (position.lineNumber - 1) ++
    between ((line doc position.lineNumber).take (position.column - 1)) text
      ((line doc position.lineNumber).drop (position.column - 1)) ++
    doc.drop position.lineNumber

def replaceRange (range : Range) (text : List (List α)) : List (List α) :=
  insertText (deleteRange doc range) range.getStartPosition text

structure Contains (doc : List (List α)) (range : Range) : Prop where
  startLine : 1 ≤ range.startLineNumber
  startColumn : 1 ≤ range.startColumn
  endColumn : 1 ≤ range.endColumn
  lines : range.startLineNumber ≤ range.endLineNumber
  endLine : range.endLineNumber ≤ doc.length
  columns : range.startLineNumber = range.endLineNumber → range.startColumn ≤ range.endColumn
  startFits : range.startColumn - 1 ≤ (line doc range.startLineNumber).length
  endFits : range.endColumn - 1 ≤ (line doc range.endLineNumber).length

variable {lineNumber : ℕ}

theorem line_splice {doc : List (List α)} {i : ℕ} (hi : i ≤ doc.length) (j : ℕ) (mid : List (List
    α)) (hpos : 1 ≤ lineNumber) : line (doc.take i ++ mid ++ doc.drop j) lineNumber
    = if lineNumber - 1 < i then line doc lineNumber else if lineNumber - 1 < i + mid.length then
    mid.getD (lineNumber - 1 - i) [] else line doc (lineNumber - i - mid.length + j) := by
  rw [line, List.getD_splice hi]
  split_ifs with h₁ h₂
  · rfl
  · rfl
  · rw [line]
    congr 1
    omega

theorem line_deleteRange {doc : List (List α)} {range : Range} (h : Contains doc range)
    (hpos : 1 ≤ lineNumber) : line (deleteRange doc range) lineNumber = if lineNumber <
    range.startLineNumber then line doc lineNumber else if lineNumber = range.startLineNumber then
    (line doc range.startLineNumber).take (range.startColumn - 1) ++ (line doc
    range.endLineNumber).drop (range.endColumn - 1) else line doc (lineNumber + (range.endLineNumber
    - range.startLineNumber)) := by
  obtain ⟨hstart, -, -, hlines, hend, -, -, -⟩ := h
  rw [deleteRange, line_splice (by omega) _ _ hpos, length_singleton]
  by_cases hlt : lineNumber < range.startLineNumber
  · rw [if_pos (by omega), if_pos hlt]
  rw [if_neg (by omega), if_neg hlt]
  by_cases heq : lineNumber = range.startLineNumber
  · rw [if_pos (by omega), if_pos heq, heq, Nat.sub_self]
    rfl
  · rw [if_neg (by omega), if_neg heq]
    congr 1
    omega

theorem length_between (before behind : List α) {text : List (List α)} (hne : text ≠ []) :
    (between before text behind).length = text.length := by
  match text with
  | [] => exact absurd rfl hne
  | [only] => rfl
  | first :: second :: rest => simp [between]

variable {rest : List (List α)}

theorem getD_between_zero (before behind first : List α) (hne : rest ≠ []) :
    (between before (first :: rest) behind).getD 0 [] = before ++ first := by
  cases rest with
  | nil => exact absurd rfl hne
  | cons second rest => rfl

theorem getD_between_last (before behind first : List α) (hne : rest ≠ []) :
    (between before (first :: rest) behind).getD rest.length [] = rest.getLastD [] ++ behind := by
  cases rest with
  | nil => exact absurd rfl hne
  | cons second rest =>
    rw [between, length_cons, getD_cons_succ, getD_append_right _ _ _ _ (by simp),
      length_dropLast, length_cons, Nat.add_sub_cancel, Nat.sub_self]
    rfl

theorem length_deleteRange {doc : List (List α)} {range : Range} (h : Contains doc range) :
    (deleteRange doc range).length + range.endLineNumber = doc.length + range.startLineNumber := by
  obtain ⟨hstart, -, -, hlines, hend, -, -, -⟩ := h
  simp only [deleteRange, length_append, List.length_take, length_singleton, List.length_drop]
  omega

variable {position : Position}

theorem length_insertText {doc : List (List α)} {text : List (List α)}
    (hstart : 1 ≤ position.lineNumber) (hend : position.lineNumber ≤ doc.length) (hne : text ≠ []) :
    (insertText doc position text).length = doc.length + (text.length - 1) := by
  have hpos := length_pos_iff.2 hne
  simp only [insertText, length_append, List.length_take, length_between _ _ hne, List.length_drop]
  omega

theorem line_insertText {doc : List (List α)} {first : List α} (hstart : 1 ≤ position.lineNumber)
    (hend : position.lineNumber ≤ doc.length) (hpos : 1 ≤ lineNumber) :
    (lineNumber < position.lineNumber →
      line (insertText doc position (first :: rest)) lineNumber = line doc lineNumber) ∧
    (lineNumber = position.lineNumber →
      line (insertText doc position (first :: rest)) lineNumber =
        (line doc lineNumber).take (position.column - 1) ++ first ++
          if rest = [] then (line doc lineNumber).drop (position.column - 1) else []) ∧
    (position.lineNumber + rest.length < lineNumber →
      line (insertText doc position (first :: rest)) lineNumber =
        line doc (lineNumber - rest.length)) := by
  have hlen := length_between ((line doc position.lineNumber).take (position.column - 1))
    ((line doc position.lineNumber).drop (position.column - 1)) (List.cons_ne_nil first rest)
  rw [List.length_cons] at hlen
  rw [insertText, line_splice (by omega) _ _ hpos, hlen]
  refine ⟨fun hlt => if_pos (by omega), fun heq => ?_, fun hgt => ?_⟩
  · rw [if_neg (by omega), if_pos (by omega), ← heq, Nat.sub_self]
    cases rest with
    | nil => rfl
    | cons second rest =>
      rw [getD_between_zero _ _ _ (List.cons_ne_nil second rest), if_neg (List.cons_ne_nil _ _),
        List.append_nil]
  · rw [if_neg (by omega), if_neg (by omega)]
    congr 1
    omega

theorem line_insertText_last {doc : List (List α)} {position : Position} (first : List α)
    {rest : List (List α)} (hstart : 1 ≤ position.lineNumber)
    (hend : position.lineNumber ≤ doc.length) (hne : rest ≠ []) :
    line (insertText doc position (first :: rest)) (position.lineNumber + rest.length) =
      rest.getLastD [] ++ (line doc position.lineNumber).drop (position.column - 1) := by
  have hlen := length_between ((line doc position.lineNumber).take (position.column - 1))
    ((line doc position.lineNumber).drop (position.column - 1)) (List.cons_ne_nil first rest)
  have hpos := List.length_pos_iff.2 hne
  rw [List.length_cons] at hlen
  rw [insertText, line_splice (by omega) _ _ (by omega), hlen, if_neg (by omega),
    if_pos (by omega), ← getD_between_last _ _ first hne]
  congr 1
  omega

section

variable {doc : List (List α)} {range : Range} {first : List α} {rest : List (List α)}

section

variable (h : Contains doc range)
include h

theorem startLine_le_length_deleteRange :
    range.startLineNumber ≤ (deleteRange doc range).length := by
  have hlength := length_deleteRange h
  have hend := h.endLine
  omega

theorem line_replaceRange_above {lineNumber : ℕ} (hpos : 1 ≤ lineNumber)
    (hlt : lineNumber < range.startLineNumber) :
    line (replaceRange doc range (first :: rest)) lineNumber = line doc lineNumber := by
  rw [replaceRange, (line_insertText h.startLine (startLine_le_length_deleteRange h) hpos).1 hlt,
    line_deleteRange h hpos, if_pos hlt]

theorem line_replaceRange_below {lineNumber : ℕ} (hlt : range.endLineNumber < lineNumber) :
    line (replaceRange doc range (first :: rest)) (lineNumber -
    (range.endLineNumber - range.startLineNumber) + rest.length) = line doc lineNumber := by
  have hlines := h.lines
  have hstart := h.startLine
  rw [replaceRange, (line_insertText hstart (startLine_le_length_deleteRange h) (by omega)).2.2
    (show range.startLineNumber + rest.length < _ by omega), Nat.add_sub_cancel,
    line_deleteRange h (by omega), if_neg (by omega), if_neg (by omega)]
  congr 1
  omega

theorem take_line_deleteRange : (line (deleteRange doc range) range.startLineNumber).take
    (range.startColumn - 1) = (line doc range.startLineNumber).take (range.startColumn - 1) := by
  have hlength : ((line doc range.startLineNumber).take (range.startColumn - 1)).length =
      range.startColumn - 1 := length_take_of_le h.startFits
  rw [line_deleteRange h h.startLine, if_neg (lt_irrefl _), if_pos rfl,
    take_append_of_le_length hlength.ge, take_of_length_le hlength.le]

theorem drop_line_deleteRange : (line (deleteRange doc range) range.startLineNumber).drop
    (range.startColumn - 1) = (line doc range.endLineNumber).drop (range.endColumn - 1) := by
  have hlength : ((line doc range.startLineNumber).take (range.startColumn - 1)).length =
      range.startColumn - 1 := length_take_of_le h.startFits
  rw [line_deleteRange h h.startLine, if_neg (lt_irrefl _), if_pos rfl,
    drop_append_of_le_length hlength.ge, drop_of_length_le hlength.le, nil_append]

theorem line_replaceRange_only : line (replaceRange doc range [first]) range.startLineNumber =
    (line doc range.startLineNumber).take (range.startColumn - 1) ++
    first ++ (line doc range.endLineNumber).drop (range.endColumn - 1) := by
  rw [replaceRange, (line_insertText h.startLine (startLine_le_length_deleteRange h)
    h.startLine).2.1 rfl, if_pos rfl, Range.getStartPosition, take_line_deleteRange h,
    drop_line_deleteRange h]

theorem line_replaceRange_first (hne : rest ≠ []) :
    line (replaceRange doc range (first :: rest)) range.startLineNumber =
      (line doc range.startLineNumber).take (range.startColumn - 1) ++ first := by
  rw [replaceRange, (line_insertText h.startLine (startLine_le_length_deleteRange h)
    h.startLine).2.1 rfl, if_neg hne, append_nil, Range.getStartPosition, take_line_deleteRange h]

theorem line_replaceRange_last (hne : rest ≠ []) :
    line (replaceRange doc range (first :: rest)) (range.startLineNumber + rest.length) =
      rest.getLastD [] ++ (line doc range.endLineNumber).drop (range.endColumn - 1) := by
  have hlast := @line_insertText_last α (deleteRange doc range) range.getStartPosition first rest
    h.startLine (startLine_le_length_deleteRange h) hne
  rw [Range.getStartPosition, drop_line_deleteRange h] at hlast
  exact hlast

end

end

end Lines

end CodeOss
