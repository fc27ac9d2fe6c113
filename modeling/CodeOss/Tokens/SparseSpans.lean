import CodeOss.Core.Lines

/-! Spans of text that an edit moves, shrinks, grows or takes away.
A span lies in one line and is given by its first column and the column behind its last,
both counting from zero. -/

open List

namespace CodeOss

structure TokenSpan where
  line : ℕ
  start : ℕ
  stop : ℕ
  metadata : ℕ
  deriving DecidableEq

namespace TokenSpan

variable {α : Type*} {range : Range} {position : Position}

def Nonempty (s : TokenSpan) : Prop := s.start < s.stop

def Before (s t : TokenSpan) : Prop := s.line < t.line ∨ s.line = t.line ∧ s.stop ≤ t.start

instance (s : TokenSpan) : Decidable s.Nonempty := inferInstanceAs (Decidable (_ < _))

instance (s t : TokenSpan) : Decidable (s.Before t) := inferInstanceAs (Decidable (_ ∨ _))

structure Tidy (spans : List TokenSpan) : Prop where
  nonempty : ∀ s ∈ spans, s.Nonempty
  sorted : spans.Pairwise Before

variable {spans others : List TokenSpan} {line column : ℕ}

theorem Tidy.left (h : Tidy (spans ++ others)) : Tidy spans :=
  ⟨fun s hs => h.nonempty s (mem_append_left _ hs), (pairwise_append.1 h.sorted).1⟩

theorem Tidy.right (h : Tidy (spans ++ others)) : Tidy others :=
  ⟨fun s hs => h.nonempty s (mem_append_right _ hs), (pairwise_append.1 h.sorted).2.1⟩

theorem Tidy.filter (h : Tidy spans) (p : TokenSpan → Bool) : Tidy (spans.filter p) :=
  ⟨fun s hs => h.nonempty s (mem_filter.1 hs).1, h.sorted.filter p⟩

theorem Tidy.append (h : Tidy spans) (h' : Tidy others)
    (hbefore : ∀ s ∈ spans, ∀ t ∈ others, s.Before t) : Tidy (spans ++ others) :=
  ⟨fun s hs => (List.mem_append.1 hs).elim (h.nonempty s) (h'.nonempty s),
    pairwise_append.2 ⟨h.sorted, h'.sorted, hbefore⟩⟩

def text (doc : List (List α)) (s : TokenSpan) : List α :=
  ((Lines.line doc s.line).take s.stop).drop s.start

/-- Where a position comes to lie when the range is taken out. -/
def columnAfter (range : Range) (line column : ℕ) : ℕ :=
  if line < range.startLineNumber ∨
      line = range.startLineNumber ∧ column ≤ range.startColumn - 1 then column
  else if line < range.endLineNumber ∨
      line = range.endLineNumber ∧ column ≤ range.endColumn - 1 then range.startColumn - 1
  else if line = range.endLineNumber then column + (range.startColumn - 1) - (range.endColumn - 1)
  else column

def lineAfter (range : Range) (line : ℕ) : ℕ :=
  if line ≤ range.startLineNumber then line
  else if line ≤ range.endLineNumber then range.startLineNumber
  else line - (range.endLineNumber - range.startLineNumber)

def moveTo (range : Range) (s : TokenSpan) : TokenSpan :=
  ⟨lineAfter range s.line, columnAfter range s.line s.start, columnAfter range s.line s.stop,
    s.metadata⟩

/-- What is left of a span when the range is taken out. -/
def delete (range : Range) (s : TokenSpan) : Option TokenSpan :=
  if (s.moveTo range).start < (s.moveTo range).stop then some (s.moveTo range) else none

structure Forward (range : Range) : Prop where
  lines : range.startLineNumber ≤ range.endLineNumber
  columns : range.startLineNumber = range.endLineNumber → range.startColumn ≤ range.endColumn

theorem columnAfter_front
    (h : line < range.startLineNumber ∨ line = range.startLineNumber ∧ column ≤ range.startColumn -
    1) :
    columnAfter range line column = column := if_pos h

theorem columnAfter_within
    (h : range.startLineNumber < line ∨ line = range.startLineNumber ∧ range.startColumn - 1 ≤
    column)
    (h' : line < range.endLineNumber ∨ line = range.endLineNumber ∧ column ≤ range.endColumn - 1) :
    columnAfter range line column = range.startColumn - 1 := by
  rw [columnAfter]
  by_cases hfront : line < range.startLineNumber ∨
      line = range.startLineNumber ∧ column ≤ range.startColumn - 1
  · rw [if_pos hfront]
    omega
  · rw [if_neg hfront, if_pos h']

section

variable (hforward : Forward range)
include hforward

theorem columnAfter_behind (h : range.endColumn - 1 ≤ column) : columnAfter range
    range.endLineNumber column = column + (range.startColumn - 1) - (range.endColumn - 1) := by
  obtain ⟨hlines, hcolumns⟩ := hforward
  rw [columnAfter]
  by_cases hfront : range.endLineNumber < range.startLineNumber ∨
      range.endLineNumber = range.startLineNumber ∧ column ≤ range.startColumn - 1
  · have := hcolumns (by omega)
    rw [if_pos hfront]
    omega
  rw [if_neg hfront]
  by_cases hwithin : range.endLineNumber < range.endLineNumber ∨
      range.endLineNumber = range.endLineNumber ∧ column ≤ range.endColumn - 1
  · rw [if_pos hwithin]
    omega
  · rw [if_neg hwithin, if_pos rfl]

theorem columnAfter_below (h : range.endLineNumber < line) :
    columnAfter range line column = column := by
  have hlines := hforward.lines
  rw [columnAfter, if_neg (by omega), if_neg (by omega), if_neg (by omega)]

theorem columnAfter_le_columnAfter (line : ℕ) {column' : ℕ}
    (h : column ≤ column') : columnAfter range line column ≤ columnAfter range line column' := by
  obtain ⟨hlines, hcolumns⟩ := hforward
  simp only [columnAfter]
  split_ifs <;> omega

theorem lineAfter_le_lineAfter {line' : ℕ} (h : line ≤ line') :
    lineAfter range line ≤ lineAfter range line' := by
  have hlines := hforward.lines
  simp only [lineAfter]
  split_ifs <;> omega

end

theorem columnAfter_le (hstart : range.startLineNumber ≤ line) (hend : line < range.endLineNumber)
    (column : ℕ) : columnAfter range line column ≤ range.startColumn - 1 := by
  rw [columnAfter]
  by_cases hfront : line < range.startLineNumber ∨
      line = range.startLineNumber ∧ column ≤ range.startColumn - 1
  · rw [if_pos hfront]
    exact (hfront.resolve_left hstart.not_gt).2
  · rw [if_neg hfront, if_pos (.inl hend)]

theorem le_columnAfter (hstart : range.startLineNumber < line) (hend : line ≤ range.endLineNumber)
    (column : ℕ) : range.startColumn - 1 ≤ columnAfter range line column := by
  rw [columnAfter, if_neg (by omega)]
  by_cases hwithin : line < range.endLineNumber ∨
      line = range.endLineNumber ∧ column ≤ range.endColumn - 1
  · rw [if_pos hwithin]
  · rw [if_neg hwithin, if_pos (by omega)]
    omega

/-- Two lines become one only as the first and the last of the range; what is left of the
first then ends where what is left of the last begins. -/
theorem columnAfter_joined (hforward : Forward range) {line' : ℕ} (h : line < line')
    (hjoin : lineAfter range line = lineAfter range line') (column column' : ℕ) :
    columnAfter range line column ≤ columnAfter range line' column' := by
  have hlines := hforward.lines
  have hplace : range.startLineNumber ≤ line ∧ line' ≤ range.endLineNumber := by
    rw [lineAfter, lineAfter] at hjoin
    split_ifs at hjoin <;> omega
  exact (columnAfter_le hplace.1 (h.trans_le hplace.2) column).trans
    (le_columnAfter (hplace.1.trans_lt h) hplace.2 column')

theorem Before.moveTo (hforward : Forward range) {s t : TokenSpan} (h : s.Before t) :
    (s.moveTo range).Before (t.moveTo range) := by
  rcases h with hlt | ⟨heq, hle⟩
  · rcases (lineAfter_le_lineAfter hforward hlt.le).lt_or_eq with hlt' | heq
    · exact .inl hlt'
    · exact .inr ⟨heq, columnAfter_joined hforward hlt heq _ _⟩
  · refine .inr ⟨congrArg (lineAfter range) heq, ?_⟩
    rw [TokenSpan.moveTo, TokenSpan.moveTo, heq]
    exact columnAfter_le_columnAfter hforward t.line hle

theorem delete_eq_some {s t : TokenSpan} :
    s.delete range = some t ↔ (s.moveTo range).Nonempty ∧ s.moveTo range = t := by
  rw [delete, Option.ite_none_right_eq_some, Option.some.injEq]
  rfl

theorem Tidy.delete (hforward : Forward range) (h : Tidy spans) :
    Tidy (spans.filterMap (TokenSpan.delete range)) := by
  constructor
  · intro t ht
    obtain ⟨s, -, hs⟩ := mem_filterMap.1 ht
    obtain ⟨hne, rfl⟩ := delete_eq_some.1 hs
    exact hne
  · refine h.sorted.filterMap _ fun s t hbefore s' hs' t' ht' => ?_
    obtain ⟨-, rfl⟩ := delete_eq_some.1 hs'
    obtain ⟨-, rfl⟩ := delete_eq_some.1 ht'
    exact hbefore.moveTo hforward

section

variable {s : TokenSpan}

theorem delete_front (h : s.line < range.startLineNumber ∨ s.line = range.startLineNumber ∧
    s.stop ≤ range.startColumn - 1) (hne : s.Nonempty) : s.delete range = some s := by
  have hlt : s.start < s.stop := hne
  have hmove : s.moveTo range = s := by
    rw [moveTo, columnAfter_front (by omega), columnAfter_front h, lineAfter, if_pos (by omega)]
  exact delete_eq_some.2 ⟨hmove.symm ▸ hne, hmove⟩

theorem delete_below (hforward : Forward range) (h : range.endLineNumber < s.line)
    (hne : s.Nonempty) : s.delete range = some
      { s with line := s.line - (range.endLineNumber - range.startLineNumber) } := by
  have hlines := hforward.lines
  have hmove : s.moveTo range =
      { s with line := s.line - (range.endLineNumber - range.startLineNumber) } := by
    rw [moveTo, columnAfter_below hforward h, columnAfter_below hforward h, lineAfter,
      if_neg (by omega), if_neg (by omega)]
  exact delete_eq_some.2 ⟨hmove.symm ▸ hne, hmove⟩

theorem lineAfter_endLineNumber (hforward : Forward range) :
    lineAfter range range.endLineNumber = range.startLineNumber := by
  have hlines := hforward.lines
  rw [lineAfter]
  by_cases hle : range.endLineNumber ≤ range.startLineNumber
  · rw [if_pos hle]
    omega
  · rw [if_neg hle, if_pos le_rfl]

theorem delete_reaching (hforward : Forward range) (hline : s.line = range.endLineNumber)
    (hstart : range.startLineNumber < range.endLineNumber ∨ range.startColumn - 1 ≤ s.start)
    (hstop : range.endColumn - 1 < s.stop) (hne : s.Nonempty) : s.delete range =
    some ⟨range.startLineNumber, range.startColumn - 1 + (s.start - (range.endColumn - 1)),
    range.startColumn - 1 + (s.stop - (range.endColumn - 1)), s.metadata⟩ := by
  have hlt : s.start < s.stop := hne
  have hlines := hforward.lines
  have hmoveStart : columnAfter range s.line s.start =
      range.startColumn - 1 + (s.start - (range.endColumn - 1)) := by
    rcases Nat.le_total s.start (range.endColumn - 1) with hle | hle
    · rw [columnAfter_within (by omega) (by omega), Nat.sub_eq_zero_of_le hle, Nat.add_zero]
    · rw [hline, columnAfter_behind hforward hle]
      omega
  have hmoveStop : columnAfter range s.line s.stop =
      range.startColumn - 1 + (s.stop - (range.endColumn - 1)) := by
    rw [hline, columnAfter_behind hforward hstop.le]
    omega
  rw [delete_eq_some, moveTo, hmoveStart, hmoveStop, hline, lineAfter_endLineNumber hforward]
  refine ⟨?_, rfl⟩
  rw [Nonempty]
  simp only
  omega

theorem delete_within (hstart : range.startLineNumber < s.line ∨ s.line = range.startLineNumber ∧
    range.startColumn - 1 ≤ s.start) (hstop : s.line < range.endLineNumber ∨ s.line =
    range.endLineNumber ∧ s.stop ≤ range.endColumn - 1) (hne : s.Nonempty) :
    s.delete range = none := by
  have hlt : s.start < s.stop := hne
  have hmove : ¬ (s.moveTo range).start < (s.moveTo range).stop := by
    rw [moveTo, columnAfter_within hstart (by omega), columnAfter_within (by omega) hstop]
    exact lt_irrefl _
  rw [delete, if_neg hmove]

theorem delete_into (hline : s.line = range.startLineNumber)
    (hstart : s.start < range.startColumn - 1) (hstop : range.startColumn - 1 ≤ s.stop)
    (hend : range.startLineNumber < range.endLineNumber ∨ range.startLineNumber =
      range.endLineNumber ∧ s.stop ≤ range.endColumn - 1) :
    s.delete range = some { s with stop := range.startColumn - 1 } := by
  have hmove : s.moveTo range = { s with stop := range.startColumn - 1 } := by
    rw [moveTo, columnAfter_front (by omega), columnAfter_within (by omega) (by omega), lineAfter,
      if_pos hline.le]
  exact delete_eq_some.2 ⟨hmove.symm ▸ hstart, hmove⟩

theorem delete_nothing (hlines : range.startLineNumber = range.endLineNumber)
    (hcolumns : range.startColumn = range.endColumn) (hne : s.Nonempty) :
    s.delete range = some s := by
  have hcolumn (column : ℕ) : columnAfter range s.line column = column := by
    simp only [columnAfter]
    split_ifs <;> omega
  have hline : lineAfter range s.line = s.line := by
    simp only [lineAfter]
    split_ifs <;> omega
  have hmove : s.moveTo range = s := by
    rw [moveTo, hcolumn, hcolumn, hline]
  exact delete_eq_some.2 ⟨hmove.symm ▸ hne, hmove⟩

/-- The span has its first character that is left right behind the range. -/
def BeginsBehind (range : Range) (s : TokenSpan) : Prop :=
  s.line = range.endLineNumber ∧ s.start ≤ range.endColumn - 1 ∧ range.endColumn - 1 < s.stop ∧
    (range.startLineNumber < range.endLineNumber ∨ range.startColumn - 1 ≤ s.start)

instance (range : Range) (s : TokenSpan) : Decidable (s.BeginsBehind range) :=
  inferInstanceAs (Decidable (_ ∧ _))

theorem beginsBehind_of_delete (hforward : Forward range) {t : TokenSpan}
    (h : s.delete range = some t) (hline : t.line = range.startLineNumber)
    (hstart : t.start = range.startColumn - 1) : s.BeginsBehind range := by
  obtain ⟨hlines, hcolumns⟩ := hforward
  obtain ⟨hne, rfl⟩ := delete_eq_some.1 h
  replace hline : lineAfter range s.line = range.startLineNumber := hline
  replace hstart : columnAfter range s.line s.start = range.startColumn - 1 := hstart
  replace hne : columnAfter range s.line s.start < columnAfter range s.line s.stop := hne
  have hplace : range.startLineNumber ≤ s.line ∧ s.line ≤ range.endLineNumber := by
    rw [lineAfter] at hline
    split_ifs at hline <;> omega
  -- on a line above the last one the span would end in front of the range
  have hlast : s.line = range.endLineNumber := by
    by_contra hother
    have hstop := columnAfter_le hplace.1 (hplace.2.lt_of_ne hother) s.stop
    omega
  have hstop : range.endColumn - 1 < s.stop := by
    by_contra hle
    rw [hstart, columnAfter] at hne
    split_ifs at hne <;> omega
  refine ⟨hlast, ?_, hstop, ?_⟩
  · rw [columnAfter] at hstart
    split_ifs at hstart <;> omega
  · by_contra hfront
    rw [columnAfter, if_pos (by omega)] at hstart
    omega

theorem delete_around (hforward : Forward range) (hline : s.line = range.startLineNumber)
    (hlines : range.startLineNumber = range.endLineNumber)
    (hstart : s.start < range.startColumn - 1) (hstop : range.endColumn - 1 < s.stop) :
    s.delete range = some { s with
      stop := range.startColumn - 1 + (s.stop - (range.endColumn - 1)) } := by
  have hcolumns := hforward.columns hlines
  have hmove : s.moveTo range = { s with
      stop := range.startColumn - 1 + (s.stop - (range.endColumn - 1)) } := by
    have hmoveStop := columnAfter_behind hforward hstop.le
    rw [← hlines, ← hline] at hmoveStop
    rw [moveTo, columnAfter_front (by omega), hmoveStop, lineAfter, if_pos hline.le]
    congr 1
    omega
  refine delete_eq_some.2 ⟨?_, hmove⟩
  rw [hmove, Nonempty]
  simp only
  omega

end

/-! ### Inserting text

The text has `eolCount` line breaks; its first line has `firstLineLength` characters and its
last `lastLineLength`. A span that ends where text is put in may grow by `growth`. -/

def insert (position : Position) (eolCount firstLineLength lastLineLength growth : ℕ)
    (s : TokenSpan) :
    TokenSpan :=
  if s.line < position.lineNumber then s
  else if position.lineNumber < s.line then { s with line := s.line + eolCount }
  else if s.stop < position.column - 1 then s
  else if s.stop = position.column - 1 then { s with stop := s.stop + growth }
  else if s.start < position.column - 1 then
    { s with stop := if eolCount = 0 then s.stop + firstLineLength else position.column - 1 }
  else if eolCount = 0 then
    { s with start := s.start + firstLineLength, stop := s.stop + firstLineLength }
  else
    { s with
      line := s.line + eolCount
      start := lastLineLength + (s.start - (position.column - 1))
      stop := lastLineLength + (s.stop - (position.column - 1)) }

section

variable {eolCount firstLineLength lastLineLength growth : ℕ} {s t : TokenSpan}

theorem insert_above (h : s.line < position.lineNumber) :
    s.insert position eolCount firstLineLength lastLineLength growth = s := if_pos h

theorem insert_below (h : position.lineNumber < s.line) :
    s.insert position eolCount firstLineLength lastLineLength growth =
      { s with line := s.line + eolCount } := by
  rw [insert, if_neg (by omega), if_pos h]

section

variable (hline : s.line = position.lineNumber)
include hline

theorem insert_front (h : s.stop < position.column - 1) :
    s.insert position eolCount firstLineLength lastLineLength growth = s := by
  rw [insert, if_neg (by omega), if_neg (by omega), if_pos h]

theorem insert_touching
    (h : s.stop = position.column - 1) :
    s.insert position eolCount firstLineLength lastLineLength growth =
      { s with stop := s.stop + growth } := by
  rw [insert, if_neg (by omega), if_neg (by omega), if_neg (by omega), if_pos h]

theorem insert_around (h : s.start < position.column - 1)
    (h' : position.column - 1 < s.stop) :
    s.insert position eolCount firstLineLength lastLineLength growth =
      { s with stop := if eolCount = 0 then s.stop + firstLineLength
                       else position.column - 1 } := by
  rw [insert, if_neg (by omega), if_neg (by omega), if_neg (by omega), if_neg (by omega), if_pos h]

theorem insert_behind (h : position.column - 1 ≤ s.start)
    (hne : s.Nonempty) :
    s.insert position eolCount firstLineLength lastLineLength growth =
      if eolCount = 0 then
        { s with start := s.start + firstLineLength, stop := s.stop + firstLineLength }
      else
        { s with
          line := s.line + eolCount
          start := lastLineLength + (s.start - (position.column - 1))
          stop := lastLineLength + (s.stop - (position.column - 1)) } := by
  have hlt : s.start < s.stop := hne
  rw [insert, if_neg (by omega), if_neg (by omega), if_neg (by omega), if_neg (by omega),
    if_neg (by omega)]

end

theorem place_cases (position : Position) (s : TokenSpan) :
    s.line < position.lineNumber ∨ position.lineNumber < s.line ∨ s.line = position.lineNumber ∧
    s.stop < position.column - 1 ∨ s.line = position.lineNumber ∧ s.stop = position.column - 1 ∨
    s.line = position.lineNumber ∧ s.start < position.column - 1 ∧ position.column - 1 <
    s.stop ∨ s.line = position.lineNumber ∧ position.column - 1 ≤ s.start := by
  omega

theorem Nonempty.insert (hne : s.Nonempty) :
    (s.insert position eolCount firstLineLength lastLineLength growth).Nonempty := by
  have hlt : s.start < s.stop := hne
  rcases place_cases position s with hplace | hplace | ⟨hline, hplace⟩ | ⟨hline, hplace⟩ |
    ⟨hline, hplace, hstop⟩ | ⟨hline, hplace⟩
  · rwa [insert_above hplace]
  · rwa [insert_below hplace]
  · rwa [insert_front hline hplace]
  · rw [insert_touching hline hplace]
    exact hlt.trans_le (Nat.le_add_right _ _)
  · rw [insert_around hline hplace hstop, Nonempty]
    by_cases hbreak : eolCount = 0
    · rw [if_pos hbreak]
      exact hlt.trans_le (Nat.le_add_right _ _)
    · rwa [if_neg hbreak]
  · rw [insert_behind hline hplace hne, Nonempty]
    by_cases hbreak : eolCount = 0
    · rw [if_pos hbreak]
      exact Nat.add_lt_add_right hlt _
    · rw [if_neg hbreak]
      simp only
      omega

theorem insert_nothing : s.insert position 0 0 lastLineLength 0 = s := by
  rw [insert, if_pos rfl, if_pos rfl]
  split_ifs <;> rfl

theorem Before.insert_right (ht : t.Nonempty) (h : s.Before t) :
    s.Before (t.insert position eolCount firstLineLength lastLineLength growth) := by
  rcases place_cases position t with hplace | hplace | ⟨hline, hplace⟩ | ⟨hline, hplace⟩ |
    ⟨hline, hplace, hstop⟩ | ⟨hline, hplace⟩
  · rwa [insert_above hplace]
  · rw [insert_below hplace]
    exact h.elim (fun hlt => .inl (hlt.trans_le (Nat.le_add_right _ _))) fun ⟨heq, hle⟩ => by
      rcases Nat.eq_zero_or_pos eolCount with rfl | hpos
      · exact .inr ⟨heq, hle⟩
      · exact .inl (heq.trans_lt (Nat.lt_add_of_pos_right hpos))
  · rwa [insert_front hline hplace]
  · rwa [insert_touching hline hplace]
  · rwa [insert_around hline hplace hstop]
  · rw [insert_behind hline hplace ht]
    by_cases hbreak : eolCount = 0
    · rw [if_pos hbreak]
      exact h.imp_right fun ⟨heq, hle⟩ => ⟨heq, hle.trans (Nat.le_add_right _ _)⟩
    · rw [if_neg hbreak]
      have hle : s.line ≤ t.line := h.elim le_of_lt fun heq => heq.1.le
      exact .inl (hle.trans_lt (Nat.lt_add_of_pos_right (Nat.pos_of_ne_zero hbreak)))

theorem insert_line_le (hne : s.Nonempty) :
    (s.insert position eolCount firstLineLength lastLineLength growth).line ≤ s.line +
    eolCount := by
  rcases place_cases position s with hplace | hplace | ⟨hline, hplace⟩ | ⟨hline, hplace⟩ |
    ⟨hline, hplace, hstop⟩ | ⟨hline, hplace⟩
  · rw [insert_above hplace]
    exact Nat.le_add_right _ _
  · rw [insert_below hplace]
  · rw [insert_front hline hplace]
    exact Nat.le_add_right _ _
  · rw [insert_touching hline hplace]
    exact Nat.le_add_right _ _
  · rw [insert_around hline hplace hstop]
    exact Nat.le_add_right _ _
  · rw [insert_behind hline hplace hne]
    by_cases hbreak : eolCount = 0
    · rw [if_pos hbreak]
      exact Nat.le_add_right _ _
    · rw [if_neg hbreak]

theorem Before.insert (hs : s.Nonempty) (ht : t.Nonempty) (h : s.Before t)
    (hgrowth : growth ≤ firstLineLength) :
    (s.insert position eolCount firstLineLength lastLineLength growth).Before
      (t.insert position eolCount firstLineLength lastLineLength growth) := by
  by_cases hfront : s.line < position.lineNumber ∨
      s.line = position.lineNumber ∧ s.stop < position.column - 1
  · have hsame : s.insert position eolCount firstLineLength lastLineLength growth = s :=
      hfront.elim insert_above fun hboth => insert_front hboth.1 hboth.2
    rw [hsame]
    exact h.insert_right ht
  rcases h with hlt | ⟨heq, hle⟩
  · rw [insert_below (s := t) (by omega)]
    exact .inl ((insert_line_le hs).trans_lt (Nat.add_lt_add_right hlt eolCount))
  rcases place_cases position s with hplace | hplace | ⟨hline, hplace⟩ | ⟨hline, hplace⟩ |
    ⟨hline, hplace, hstop⟩ | ⟨hline, hplace⟩
  · exact absurd (.inl hplace) hfront
  · rw [insert_below hplace, insert_below (s := t) (heq ▸ hplace)]
    exact .inr ⟨congrArg (· + eolCount) heq, hle⟩
  · exact absurd (.inr ⟨hline, hplace⟩) hfront
  all_goals
    have hstart : position.column - 1 ≤ t.start := by
      have hlt : s.start < s.stop := hs
      omega
    rw [insert_behind (s := t) (heq ▸ hline) hstart ht]
  · rw [insert_touching hline hplace]
    by_cases heol : eolCount = 0
    · rw [if_pos heol]
      exact .inr ⟨heq, Nat.add_le_add hle hgrowth⟩
    · rw [if_neg heol, heq]
      exact .inl (Nat.lt_add_of_pos_right (Nat.pos_of_ne_zero heol))
  · rw [insert_around hline hplace hstop]
    by_cases heol : eolCount = 0
    · rw [if_pos heol, if_pos heol]
      exact .inr ⟨heq, Nat.add_le_add_right hle firstLineLength⟩
    · rw [if_neg heol, if_neg heol, heq]
      exact .inl (Nat.lt_add_of_pos_right (Nat.pos_of_ne_zero heol))
  · rw [insert_behind hline hplace hs]
    by_cases heol : eolCount = 0
    · rw [if_pos heol, if_pos heol]
      exact .inr ⟨heq, Nat.add_le_add_right hle firstLineLength⟩
    · rw [if_neg heol, if_neg heol, heq]
      exact .inr ⟨rfl, Nat.add_le_add_left (Nat.sub_le_sub_right hle _) lastLineLength⟩

theorem Tidy.insert {spans : List TokenSpan} (h : Tidy spans) (hgrowth : growth ≤ firstLineLength) :
    Tidy
    (spans.map (TokenSpan.insert position eolCount firstLineLength lastLineLength growth)) := by
  constructor
  · intro t ht
    obtain ⟨s, hs, rfl⟩ := List.mem_map.1 ht
    exact (h.nonempty s hs).insert
  · refine List.pairwise_map.2 (List.Pairwise.imp_of_mem ?_ h.sorted)
    intro s t hs ht hbefore
    exact hbefore.insert (h.nonempty s hs) (h.nonempty t ht) hgrowth

end

def edit (range : Range) (eolCount firstLineLength lastLineLength growth : ℕ) (s : TokenSpan) :
    Option TokenSpan :=
  (s.delete range).map
    (insert range.getStartPosition eolCount firstLineLength lastLineLength growth)

/-- The column behind the text put in. -/
def columnBehind (range : Range) (eolCount firstLineLength lastLineLength : ℕ) : ℕ :=
  if eolCount = 0 then range.startColumn - 1 + firstLineLength else lastLineLength

theorem Tidy.edit (h : Tidy spans) (hforward : Forward range)
    {eolCount firstLineLength lastLineLength growth : ℕ} (hgrowth : growth ≤ firstLineLength) : Tidy
    (spans.filterMap (TokenSpan.edit range eolCount firstLineLength lastLineLength growth)) := by
  have htidy := @Tidy.insert range.getStartPosition eolCount firstLineLength lastLineLength growth
    _ (h.delete hforward) hgrowth
  rwa [map_filterMap] at htidy

section

variable {eolCount firstLineLength lastLineLength growth : ℕ} {s : TokenSpan}

theorem edit_of_delete {t : TokenSpan} (h : s.delete range = some t) :
    s.edit range eolCount firstLineLength lastLineLength growth =
      some (t.insert range.getStartPosition eolCount firstLineLength lastLineLength growth) := by
  rw [edit, h]
  rfl

theorem edit_front (hne : s.Nonempty) (h : s.line < range.startLineNumber ∨ s.line =
    range.startLineNumber ∧ s.stop < range.startColumn - 1) :
    s.edit range eolCount firstLineLength lastLineLength growth = some s := by
  rw [edit_of_delete (delete_front (by omega) hne)]
  rcases h with habove | ⟨hline, hstop⟩
  · exact congrArg some (insert_above habove)
  · exact congrArg some (insert_front hline hstop)

theorem edit_touching (hne : s.Nonempty) (hline : s.line = range.startLineNumber)
    (hstop : s.stop = range.startColumn - 1) :
    s.edit range eolCount firstLineLength lastLineLength growth =
      some { s with stop := s.stop + growth } := by
  rw [edit_of_delete (delete_front (by omega) hne)]
  exact congrArg some (insert_touching hline hstop)

theorem edit_below (hforward : Forward range) (hne : s.Nonempty)
    (h : range.endLineNumber < s.line) :
    s.edit range eolCount firstLineLength lastLineLength growth = some { s with
      line := s.line - (range.endLineNumber - range.startLineNumber) + eolCount } := by
  have hlines := hforward.lines
  rw [edit_of_delete (delete_below hforward h hne)]
  refine congrArg some (insert_below ?_)
  show range.startLineNumber < s.line - (range.endLineNumber - range.startLineNumber)
  omega

theorem edit_reaching (hforward : Forward range) (hline : s.line = range.endLineNumber)
    (hstart : range.startLineNumber < range.endLineNumber ∨ range.startColumn - 1 ≤ s.start)
    (hstop : range.endColumn - 1 < s.stop) (hne : s.Nonempty) :
    s.edit range eolCount firstLineLength lastLineLength growth =
    some ⟨range.startLineNumber + eolCount, columnBehind range
    eolCount firstLineLength lastLineLength + (s.start - (range.endColumn - 1)), columnBehind range
    eolCount firstLineLength lastLineLength + (s.stop - (range.endColumn - 1)), s.metadata⟩ := by
  have hdelete := delete_reaching hforward hline hstart hstop hne
  obtain ⟨hleft, hmove⟩ := delete_eq_some.1 hdelete
  rw [hmove] at hleft
  rw [edit_of_delete hdelete, insert_behind rfl (Nat.le_add_right _ _) hleft]
  by_cases hbreak : eolCount = 0
  · rw [if_pos hbreak, columnBehind, if_pos hbreak, hbreak]
    simp only [Option.some.injEq, TokenSpan.mk.injEq, and_true]
    omega
  · rw [if_neg hbreak, columnBehind, if_neg hbreak]
    simp only [Range.getStartPosition, Option.some.injEq, TokenSpan.mk.injEq, true_and, and_true]
    omega

theorem edit_within (hstart : range.startLineNumber < s.line ∨ s.line = range.startLineNumber ∧
    range.startColumn - 1 ≤ s.start) (hstop : s.line < range.endLineNumber ∨ s.line =
    range.endLineNumber ∧ s.stop ≤ range.endColumn - 1) (hne : s.Nonempty) :
    s.edit range eolCount firstLineLength lastLineLength growth = none := by
  rw [edit, delete_within hstart hstop hne]
  rfl

theorem edit_into (hline : s.line = range.startLineNumber)
    (hstart : s.start < range.startColumn - 1) (hstop : range.startColumn - 1 ≤ s.stop)
    (hend : range.startLineNumber < range.endLineNumber ∨ range.startLineNumber =
      range.endLineNumber ∧ s.stop ≤ range.endColumn - 1) :
    s.edit range eolCount firstLineLength lastLineLength growth =
      some { s with stop := range.startColumn - 1 + growth } := by
  rw [edit_of_delete (delete_into hline hstart hstop hend)]
  exact congrArg some (insert_touching hline rfl)

theorem edit_around (hforward : Forward range) (hline : s.line = range.startLineNumber)
    (hlines : range.startLineNumber = range.endLineNumber)
    (hstart : s.start < range.startColumn - 1) (hstop : range.endColumn - 1 < s.stop) :
    s.edit range eolCount firstLineLength lastLineLength growth = some { s with
      stop := if eolCount = 0 then
          range.startColumn - 1 + firstLineLength + (s.stop - (range.endColumn - 1))
        else range.startColumn - 1 } := by
  rw [edit_of_delete (delete_around hforward hline hlines hstart hstop), insert_around hline hstart]
  · simp only
    congr 3
    omega
  · simp only [Range.getStartPosition]
    omega

end

end TokenSpan

end CodeOss

/-! The text under a span before and after an edit. -/

namespace CodeOss

namespace TokenSpan

variable {α : Type*} {doc : List (List α)} {range : Range} {first : List α} {rest : List (List α)}
  {s : TokenSpan}

/-- What a span covers in front of a column, and behind one. -/
def textUpTo (doc : List (List α)) (s : TokenSpan) (column : ℕ) : List α :=
  ((Lines.line doc s.line).take column).drop s.start

def textFrom (doc : List (List α)) (s : TokenSpan) (column : ℕ) : List α :=
  ((Lines.line doc s.line).take s.stop).drop column

variable (h : Lines.Contains doc range)
include h

theorem forward_of_contains : Forward range := by
  refine ⟨h.lines, h.columns⟩

theorem text_front (hpos : 1 ≤ s.line) (hfront : s.line < range.startLineNumber ∨ s.line =
    range.startLineNumber ∧ s.stop ≤ range.startColumn - 1) :
    text (Lines.replaceRange doc range (first :: rest)) s = text doc s := by
  rcases hfront with habove | ⟨hline, hstop⟩
  · rw [text, Lines.line_replaceRange_above h hpos habove]
    rfl
  · have hlength : ((Lines.line doc s.line).take (range.startColumn - 1)).length =
        range.startColumn - 1 := length_take_of_le (hline ▸ h.startFits)
    have hfirst : ∃ tail, Lines.line (Lines.replaceRange doc range (first :: rest)) s.line =
        (Lines.line doc s.line).take (range.startColumn - 1) ++ tail := by
      rw [hline]
      by_cases hrest : rest = []
      · rw [hrest, Lines.line_replaceRange_only h, append_assoc]
        exact ⟨_, rfl⟩
      · exact ⟨first, Lines.line_replaceRange_first h hrest⟩
    obtain ⟨tail, hline'⟩ := hfirst
    rw [text, hline', List.stretch_append_left (hlength.symm ▸ hstop), List.take_take,
      Nat.min_eq_left hstop]
    rfl

theorem text_below (hbelow : range.endLineNumber < s.line) :
    text (Lines.replaceRange doc range (first :: rest)) { s with
      line := s.line - (range.endLineNumber - range.startLineNumber) + rest.length } =
        text doc s := by
  rw [text, Lines.line_replaceRange_below h hbelow]
  rfl

theorem exists_line_behind (first : List α) (rest : List (List α)) : ∃ front, front.length =
    columnBehind range rest.length first.length ((first :: rest).getLastD []).length ∧ Lines.line
    (Lines.replaceRange doc range (first :: rest)) (range.startLineNumber + rest.length) =
    front ++ (Lines.line doc range.endLineNumber).drop (range.endColumn - 1) := by
  have hlength : ((Lines.line doc range.startLineNumber).take (range.startColumn - 1)).length =
      range.startColumn - 1 := length_take_of_le h.startFits
  rw [columnBehind]
  by_cases hrest : rest = []
  · subst hrest
    refine ⟨_, ?_, Lines.line_replaceRange_only h⟩
    rw [length_append, hlength, length_nil, if_pos rfl]
  · refine ⟨_, ?_, Lines.line_replaceRange_last h hrest⟩
    rw [if_neg (mt length_eq_zero_iff.1 hrest)]
    cases rest with
    | nil => exact absurd rfl hrest
    | cons second rest => rfl

theorem text_reaching (hline : s.line = range.endLineNumber)
    (hstop : range.endColumn - 1 ≤ s.stop) : text (Lines.replaceRange doc range (first :: rest))
    ⟨range.startLineNumber + rest.length, columnBehind range rest.length first.length
    ((first :: rest).getLastD []).length + (s.start - (range.endColumn - 1)),
    columnBehind range rest.length first.length ((first :: rest).getLastD []).length + (s.stop -
    (range.endColumn - 1)), s.metadata⟩ = textFrom doc s (max s.start (range.endColumn - 1)) := by
  obtain ⟨front, hfront, hbehind⟩ := exists_line_behind h first rest
  rw [text, hbehind, ← hfront, List.stretch_append_right, textFrom, hline, take_drop,
    List.drop_drop]
  congr 2 <;> omega

theorem text_into (hline : s.line = range.startLineNumber)
    (hstart : s.start ≤ range.startColumn - 1) {gained : List α}
    (hgained : gained = [] ∨ rest = [] ∧ gained = first) :
    text (Lines.replaceRange doc range (first :: rest))
      { s with stop := range.startColumn - 1 + gained.length } =
        textUpTo doc s (range.startColumn - 1) ++ gained := by
  have hlength : ((Lines.line doc s.line).take (range.startColumn - 1)).length =
      range.startColumn - 1 := length_take_of_le (hline ▸ h.startFits)
  rcases hgained with rfl | ⟨rfl, rfl⟩
  · rw [append_nil]
    exact text_front (s := { s with stop := range.startColumn - 1 }) h (hline ▸ h.startLine)
      (.inr ⟨hline, le_rfl⟩)
  · simp only [text]
    rw [hline, Lines.line_replaceRange_only h, ← hline, append_assoc]
    nth_rewrite 1 [← hlength]
    rw [List.stretch_append_over (hlength.symm ▸ hstart), take_left]
    rfl

theorem text_around (hline : s.line = range.startLineNumber)
    (hlines : range.startLineNumber = range.endLineNumber)
    (hstart : s.start ≤ range.startColumn - 1) (hstop : range.endColumn - 1 ≤ s.stop) :
    text (Lines.replaceRange doc range [first]) { s with stop :=
      range.startColumn - 1 + first.length + (s.stop - (range.endColumn - 1)) } =
        textUpTo doc s (range.startColumn - 1) ++ first ++
          textFrom doc s (range.endColumn - 1) := by
  have hlength : ((Lines.line doc s.line).take (range.startColumn - 1)).length =
      range.startColumn - 1 := length_take_of_le (hline ▸ h.startFits)
  have hfront : ((Lines.line doc s.line).take (range.startColumn - 1) ++ first).length =
      range.startColumn - 1 + first.length := by
    rw [length_append, hlength]
  simp only [text]
  rw [hline, Lines.line_replaceRange_only h, ← hlines, ← hline, ← hfront,
    List.stretch_append_over (by omega), drop_append_of_le_length (by omega), take_drop,
    textFrom]
  congr 2
  congr 2
  omega

end TokenSpan

end CodeOss
