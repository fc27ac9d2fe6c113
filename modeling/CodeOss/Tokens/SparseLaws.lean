import CodeOss.Tokens.SparseBlocks

/-! The tokens of a block follow the text of the document through any edit.

A token that ends where text is put in grows when the text is one word character. Two kinds of
tokens are not looked after: one that begins right behind the range keeps its columns when one word
character is put in, and one that ends behind a range which begins above the block does not get the
columns in front of the range. -/

namespace CodeOss

open SparseMultilineTokensStorage TokenSpan

/-- What the edit tells of the first character of a text, given by its lines. -/
def firstCharCode : List (List CodeUnit) → CodeUnit
  | (unit :: _) :: _ => unit
  | [] :: _ :: _ => CharCode.LineFeed
  | _ => 0

variable (text : List (List CodeUnit))

def isOneWordCharacter : Bool :=
  isInsertingPreciselyOneWordCharacter (text.length - 1) (text.headD []).length (firstCharCode text)

/-- What a token gains that ends where the text is put in. -/
def wordCharacter : List CodeUnit :=
  if isOneWordCharacter text then text.headD [] else []

def SparseMultilineTokens.acceptText (block : SparseMultilineTokens) (range : Range)
    (text : List (List CodeUnit)) : Option SparseMultilineTokens :=
  block.acceptEdit range (text.length - 1) (text.headD []).length (text.getLastD []).length
    (firstCharCode text)

/-- What becomes of a token, by where it lies; `gained` is added to one whose end is where the text
is put in. -/
structure SpanFollows (gained : List CodeUnit) (doc : List (List CodeUnit)) (range : Range)
    (text : List (List CodeUnit)) (s : TokenSpan) (after : Option TokenSpan) : Prop where
  before : s.line < range.startLineNumber ∨
    s.line = range.startLineNumber ∧ s.stop < range.startColumn - 1 → after = some s
  touching : s.line = range.startLineNumber → s.stop = range.startColumn - 1 →
    after = some { s with stop := s.stop + gained.length }
  below : range.endLineNumber < s.line → ∃ t, after = some t ∧ t = { s with
      line := s.line - (range.endLineNumber - range.startLineNumber) + (text.length - 1) } ∧
    t.text (Lines.replaceRange doc range text) = s.text doc
  behind : s.line = range.endLineNumber → range.endColumn - 1 ≤ s.start → ∃ t, after = some t ∧
    t.line = range.startLineNumber + (text.length - 1) ∧
    t.start = columnBehind range (text.length - 1) (text.headD []).length
      (text.getLastD []).length + (s.start - (range.endColumn - 1)) ∧
    t.stop - t.start = s.stop - s.start ∧ t.metadata = s.metadata ∧
    t.text (Lines.replaceRange doc range text) = s.text doc
  inside : (range.startLineNumber < s.line ∨
      s.line = range.startLineNumber ∧ range.startColumn - 1 ≤ s.start) →
    (s.line < range.endLineNumber ∨
      s.line = range.endLineNumber ∧ s.stop ≤ range.endColumn - 1) → after = none
  overStart : s.line = range.startLineNumber → s.start < range.startColumn - 1 →
    range.startColumn - 1 < s.stop →
    range.startLineNumber < range.endLineNumber ∨ s.stop ≤ range.endColumn - 1 →
    ∃ t, after = some t ∧ t.line = s.line ∧ t.start = s.start ∧ t.metadata = s.metadata ∧
      t.text (Lines.replaceRange doc range text) =
        s.textUpTo doc (range.startColumn - 1) ++ gained
  overEnd : s.line = range.endLineNumber → s.start < range.endColumn - 1 →
    range.endColumn - 1 < s.stop →
    range.startLineNumber < range.endLineNumber ∨ range.startColumn - 1 ≤ s.start →
    ∃ t, after = some t ∧ t.line = range.startLineNumber + (text.length - 1) ∧
      t.start = columnBehind range (text.length - 1) (text.headD []).length
        (text.getLastD []).length ∧ t.metadata = s.metadata ∧
      t.text (Lines.replaceRange doc range text) = s.textFrom doc (range.endColumn - 1)
  around : s.line = range.startLineNumber → range.startLineNumber = range.endLineNumber →
    s.start < range.startColumn - 1 → range.endColumn - 1 < s.stop → ∃ t, after = some t ∧
      t.line = s.line ∧ t.start = s.start ∧ t.metadata = s.metadata ∧
      (∀ inserted, text = [inserted] → t.text (Lines.replaceRange doc range text) =
        s.textUpTo doc (range.startColumn - 1) ++ inserted ++
          s.textFrom doc (range.endColumn - 1)) ∧
      (1 < text.length → t.text (Lines.replaceRange doc range text) =
        s.textUpTo doc (range.startColumn - 1))

/-- The tokens stay sorted, disjoint and non-empty, and each follows its text. -/
def TokensFollow (gained : List CodeUnit) (block : SparseMultilineTokens)
    (doc : List (List CodeUnit)) (range : Range) (text : List (List CodeUnit)) : Prop :=
  ∃ edited, block.acceptText range text = some edited ∧ Tidy edited.spans ∧
    ∃ fate, edited.spans = block.spans.filterMap fate ∧
      ∀ s ∈ block.spans, SpanFollows gained doc range text s (fate s)

theorem length_wordCharacter :
    (wordCharacter text).length = if isOneWordCharacter text then 1 else 0 := by
  rw [wordCharacter]
  by_cases hword : isOneWordCharacter text = true
  · rw [if_pos hword, if_pos hword]
    rw [isOneWordCharacter, isInsertingPreciselyOneWordCharacter, decide_eq_true_eq] at hword
    exact hword.2.1
  · rw [if_neg hword, if_neg hword]
    rfl

theorem wordCharacter_cases (first : List CodeUnit) (rest : List (List CodeUnit)) :
    wordCharacter (first :: rest) = [] ∨ rest = [] ∧ wordCharacter (first :: rest) = first := by
  rw [wordCharacter]
  by_cases hword : isOneWordCharacter (first :: rest) = true
  · rw [if_pos hword]
    rw [isOneWordCharacter, isInsertingPreciselyOneWordCharacter, decide_eq_true_eq] at hword
    exact .inr ⟨List.length_eq_zero_iff.1 hword.1, rfl⟩
  · exact .inl (if_neg hword)

theorem length_wordCharacter_le : (wordCharacter text).length ≤ (text.headD []).length := by
  rw [wordCharacter]
  split_ifs
  · exact le_rfl
  · exact Nat.zero_le _

theorem spanFollows_edit {doc : List (List CodeUnit)} {range : Range} (h : Lines.Contains doc range)
    {first : List CodeUnit} {rest : List (List CodeUnit)} {gained : List CodeUnit}
    (hgained : gained = [] ∨ rest = [] ∧ gained = first) {s : TokenSpan} (hne : s.Nonempty) :
    SpanFollows gained doc range (first :: rest) s
    (s.edit range rest.length first.length ((first :: rest).getLastD []).length gained.length) := by
  have hforward := forward_of_contains h
  have hlt : s.start < s.stop := hne
  constructor
  · exact edit_front hne
  · exact edit_touching hne
  · exact fun hbelow => ⟨_, edit_below hforward hne hbelow, rfl, text_below h hbelow⟩
  · intro hline hstart
    have hstart' : range.startLineNumber < range.endLineNumber ∨
        range.startColumn - 1 ≤ s.start := by
      have hlines := hforward.lines
      have hcolumns := hforward.columns
      omega
    refine ⟨_, edit_reaching hforward hline hstart' (by omega) hne, rfl, rfl, ?_, rfl, ?_⟩
    · simp only
      omega
    · refine (text_reaching h hline (by omega)).trans ?_
      rw [Nat.max_eq_left hstart]
      rfl
  · exact fun hstart hstop => edit_within hstart hstop hne
  · intro hline hstart hstop hend
    refine ⟨_, edit_into hline hstart hstop.le ?_, rfl, rfl, rfl,
      text_into h hline hstart.le hgained⟩
    have hlines := hforward.lines
    omega
  · intro hline hstart hstop hfront
    refine ⟨_, edit_reaching hforward hline hfront hstop hne, rfl, ?_, rfl, ?_⟩
    · exact congrArg (_ + ·) (Nat.sub_eq_zero_of_le hstart.le)
    · refine (text_reaching h hline hstop.le).trans ?_
      rw [Nat.max_eq_right hstart.le]
  · intro hline hlines hstart hstop
    refine ⟨_, edit_around hforward hline hlines hstart hstop, rfl, rfl, rfl, ?_, ?_⟩
    · rintro inserted hinserted
      obtain ⟨rfl, rfl⟩ := List.cons.inj hinserted
      exact text_around h hline hlines hstart.le hstop.le
    · intro hlong
      have hbreak : rest.length ≠ 0 := by
        rw [List.length_cons] at hlong
        omega
      rw [if_neg hbreak]
      exact (text_into h hline hstart.le (.inl rfl)).trans (List.append_nil _)

/-- The tokens of a block follow the text, wherever the block is and whatever the edit. -/
theorem sparse_tokens_follow {block : SparseMultilineTokens} {doc : List (List CodeUnit)}
    {range : Range} {text : List (List CodeUnit)} (htidy : Tidy block.spans)
    (hrange : Lines.Contains doc range) (htext : text ≠ []) (hshift : block.ShiftsTokens range)
    (hgrows : isOneWordCharacter text = true → ∀ s ∈ block.spans, ¬ s.BeginsBehind range) :
    TokensFollow (wordCharacter text) block doc range text := by
  obtain ⟨first, rest, rfl⟩ := List.exists_cons_of_ne_nil htext
  have hforward := forward_of_contains hrange
  have hcases := wordCharacter_cases first rest
  obtain ⟨edited, hedited, hspans⟩ := SparseMultilineTokens.acceptEdit_spans htidy hforward hshift
    ((first :: rest).getLastD []).length (length_wordCharacter (first :: rest)) hgrows
  refine ⟨edited, hedited, ?_, _, hspans,
    fun s hs => spanFollows_edit hrange hcases (htidy.nonempty s hs)⟩
  rw [hspans]
  exact htidy.edit hforward (length_wordCharacter_le (first :: rest))

/-- `foo bar` on the second line, `oo` replaced by `x`. -/
theorem sparse_tokens_follow_replaced : TokensFollow [0x78]
    ⟨2, [⟨0, 0, 3, 7⟩, ⟨0, 4, 7, 8⟩]⟩ [[0x61], [0x66, 0x6f, 0x6f, 0x20, 0x62, 0x61, 0x72]]
    ⟨2, 2, 2, 4⟩ [[0x78]] :=
  sparse_tokens_follow ⟨by decide, by decide⟩
    ⟨by decide, by decide, by decide, by decide, by decide, by decide, by decide, by decide⟩
    (List.cons_ne_nil _ _) (fun hlt => absurd hlt (lt_irrefl 2)) (by decide)

/-- `cdef` of `abcdef` is replaced by `x`: a token over `abcd` then covers `abx`. -/
theorem sparse_tokens_grow : ¬ ∀ (block : SparseMultilineTokens) (doc : List (List CodeUnit))
    (range : Range) (text : List (List CodeUnit)), Tidy block.spans → Lines.Contains doc range →
      text ≠ [] → TokensFollow [] block doc range text := by
  intro h
  obtain ⟨edited, hedited, -, fate, hspans, hfate⟩ := h ⟨1, [⟨0, 0, 4, 7⟩]⟩
    [[0x61, 0x62, 0x63, 0x64, 0x65, 0x66]] ⟨1, 3, 1, 7⟩ [[0x78]] ⟨by decide, by decide⟩
    ⟨by decide, by decide, by decide, by decide, by decide, by decide, by decide, by decide⟩
    (List.cons_ne_nil _ _)
  obtain ⟨t, ht, -, -, -, htext⟩ := (hfate ⟨1, 0, 4, 7⟩ List.mem_cons_self).overStart rfl
    (by decide) (by decide) (.inr (by decide))
  obtain rfl : (⟨1, [⟨0, 0, 3, 7⟩]⟩ : SparseMultilineTokens) = edited := Option.some.inj hedited
  have hone : ([⟨1, 0, 3, 7⟩] : List TokenSpan) = [t] :=
    hspans.trans (List.filterMap_cons_some ht)
  obtain rfl := List.singleton_inj.1 hone
  exact absurd htext (by decide)

end CodeOss
