import CodeOss.Tokens.SparseEdits

/-! What an edit makes of the spans of a block. -/

namespace CodeOss

open List

theorem SparseToken.span_line (token : SparseToken) (startLineNumber : ℕ) :
    (token.span startLineNumber).line = startLineNumber + token.deltaLine := rfl

namespace SparseMultilineTokens

open SparseMultilineTokensStorage TokenSpan

variable {block : SparseMultilineTokens} {range : Range}

def spans (block : SparseMultilineTokens) : List TokenSpan :=
  block.tokens.map (SparseToken.span block.startLineNumber)

theorem sorted_of_tidy (h : Tidy block.spans) :
    block.tokens.Pairwise (·.deltaLine ≤ ·.deltaLine) := by
  refine (pairwise_map.1 h.sorted).imp fun {token other} hbefore => ?_
  rcases hbefore with hlt | ⟨heq, -⟩
  · exact le_of_lt (Nat.lt_of_add_lt_add_left hlt)
  · exact (Nat.add_left_cancel heq).le

theorem nonempty_of_tidy (h : Tidy block.spans) {token : SparseToken}
    (htoken : token ∈ block.tokens) : token.startCharacter < token.endCharacter :=
  h.nonempty _ (mem_map_of_mem htoken)

variable {g : TokenSpan → Option TokenSpan}

theorem spans_filterMap {n m : ℕ} {tokens : List SparseToken} {f : SparseToken → Option SparseToken}
    (h : ∀ token ∈ tokens, (f token).map (SparseToken.span m) = g (token.span n)) :
    (tokens.filterMap f).map (SparseToken.span m) =
      (tokens.map (SparseToken.span n)).filterMap g := by
  rw [map_filterMap, filterMap_map]
  exact filterMap_congr h

theorem filterMap_eq_self {spans : List TokenSpan} (h : ∀ s ∈ spans, g s = some s) :
    spans.filterMap g = spans :=
  (filterMap_congr h).trans filterMap_some

theorem map_eq_filterMap {n m : ℕ} {tokens : List SparseToken}
    (h : ∀ token ∈ tokens, g (token.span n) = some (token.span m)) :
    tokens.map (SparseToken.span m) = (tokens.map (SparseToken.span n)).filterMap g := by
  rw [filterMap_map, ← filterMap_eq_map]
  exact filterMap_congr fun token htoken => (h token htoken).symm

/-- Where the block starts on a line below the first of the range, whose characters in front of the
range then come in front of a token, the token is on the first line of the block, behind the range
and not at the start of its line. -/
def ShiftsTokens (block : SparseMultilineTokens) (range : Range) : Prop :=
  range.startLineNumber < block.startLineNumber → 1 < range.startColumn →
    ∀ s ∈ block.spans, s.line = range.endLineNumber → range.endColumn - 1 < s.stop →
      s.line = block.startLineNumber ∧ range.endColumn - 1 ≤ s.start ∧ 0 < s.start

variable (htidy : Tidy block.spans)
include htidy

theorem acceptDeleteRange_spans (hforward : Forward range)
    (hshift : block.ShiftsTokens range) : ∃ deleted, block.acceptDeleteRange range = some deleted ∧
      deleted.spans = block.spans.filterMap (TokenSpan.delete range) := by
  have hlines := hforward.lines
  have hsorted := sorted_of_tidy htidy
  have hmax := le_getMaxDeltaLine hsorted
  rw [acceptDeleteRange]
  simp only
  by_cases hnothing : range.startLineNumber = range.endLineNumber ∧
      range.startColumn = range.endColumn
  · exact ⟨block, if_pos hnothing, (filterMap_eq_self fun s hs =>
      delete_nothing hnothing.1 hnothing.2 (htidy.nonempty s hs)).symm⟩
  rw [if_neg hnothing]
  by_cases hbefore : (range.endLineNumber : ℤ) - block.startLineNumber < 0
  · refine ⟨_, if_pos hbefore, ?_⟩
    refine map_eq_filterMap fun token htoken => ?_
    have hline := token.span_line block.startLineNumber
    rw [delete_below (s := token.span block.startLineNumber) hforward (by omega)
      (nonempty_of_tidy htidy htoken)]
    simp only [SparseToken.span, Option.some.injEq, TokenSpan.mk.injEq, and_true]
    omega
  rw [if_neg hbefore]
  by_cases hbehind : getMaxDeltaLine block.tokens + 1 ≤
      (range.startLineNumber : ℤ) - block.startLineNumber
  · refine ⟨block, if_pos hbehind, map_eq_filterMap fun token htoken => ?_⟩
    have hline := token.span_line block.startLineNumber
    have hle := hmax token htoken
    exact delete_front (.inl (by omega)) (nonempty_of_tidy htidy htoken)
  rw [if_neg hbehind]
  by_cases haround : (range.startLineNumber : ℤ) - block.startLineNumber < 0 ∧
      getMaxDeltaLine block.tokens + 1 ≤ (range.endLineNumber : ℤ) - block.startLineNumber
  · refine ⟨⟨0, []⟩, if_pos haround, (filterMap_eq_nil_iff.2 fun s hs => ?_).symm⟩
    obtain ⟨token, htoken, rfl⟩ := mem_map.1 hs
    have hline := token.span_line block.startLineNumber
    have hle := hmax token htoken
    exact delete_within (.inl (by omega)) (.inl (by omega)) (nonempty_of_tidy htidy htoken)
  rw [if_neg haround]
  by_cases habove : (range.startLineNumber : ℤ) - block.startLineNumber < 0
  · rw [if_pos habove, SparseMultilineTokensStorage.acceptDeleteRange,
      deleteLoop_eq (Nat.zero_le _) _ _ _ _ hsorted]
    refine ⟨_, rfl, ?_⟩
    have hstart : ((block.startLineNumber : ℤ) -
        -((range.startLineNumber : ℤ) - block.startLineNumber)).toNat = range.startLineNumber := by
      omega
    have hlast : ((range.endLineNumber : ℤ) - block.startLineNumber).toNat =
        range.endLineNumber - block.startLineNumber := by
      omega
    rw [spans, hstart, hlast]
    refine spans_filterMap fun token htoken => survivor_above hforward (by omega) (by omega)
      (nonempty_of_tidy htidy htoken) ?_
    rcases Nat.lt_or_ge 1 range.startColumn with hcolumn | hcolumn
    · refine .inr fun hline hstop => ?_
      obtain ⟨hfirst, hrest⟩ := hshift (by omega) hcolumn _ (mem_map_of_mem htoken) hline hstop
      exact ⟨Nat.left_eq_add.1 hfirst.symm, hrest⟩
    · exact .inl hcolumn
  · rw [if_neg habove, SparseMultilineTokensStorage.acceptDeleteRange,
      deleteLoop_eq (by omega) _ _ _ _ hsorted]
    refine ⟨_, rfl, ?_⟩
    have hfirst : ((range.startLineNumber : ℤ) - block.startLineNumber).toNat =
        range.startLineNumber - block.startLineNumber := by
      omega
    have hlast : ((range.endLineNumber : ℤ) - block.startLineNumber).toNat =
        range.endLineNumber - block.startLineNumber := by
      omega
    rw [spans, hfirst, hlast]
    exact spans_filterMap fun token htoken =>
      survivor_inside (n := block.startLineNumber) hforward (by omega)
        (nonempty_of_tidy htidy htoken)

variable {eolCount firstLineLength : ℕ}

theorem acceptInsertText_spans {position : Position} (lastLineLength : ℕ) {firstCharCode : CodeUnit}
    {growth : ℕ} (hgrowth :
    growth = if isInsertingPreciselyOneWordCharacter eolCount firstLineLength firstCharCode then 1
    else 0) (hgrows : isInsertingPreciselyOneWordCharacter eolCount firstLineLength firstCharCode =
    true → ∀ s ∈ block.spans, ¬ (s.line = position.lineNumber ∧ s.start = position.column - 1)) :
    (block.acceptInsertText position eolCount firstLineLength lastLineLength firstCharCode).spans =
    block.spans.map (TokenSpan.insert position eolCount firstLineLength lastLineLength growth) := by
  have hmax := le_getMaxDeltaLine (sorted_of_tidy htidy)
  rw [acceptInsertText]
  by_cases hnothing : eolCount = 0 ∧ firstLineLength = 0
  · have hzero : growth = 0 := by
      rw [hgrowth, isInsertingPreciselyOneWordCharacter, hnothing.2]
      simp
    rw [if_pos hnothing, hnothing.1, hnothing.2, hzero]
    exact ((map_congr_left fun s _ => insert_nothing).trans (map_id _)).symm
  rw [if_neg hnothing, spans, spans, List.map_map]
  by_cases hbefore : (position.lineNumber : ℤ) - block.startLineNumber < 0
  · rw [if_pos hbefore]
    refine map_congr_left fun token _ => ?_
    have hline := token.span_line block.startLineNumber
    rw [Function.comp_apply, insert_below (s := token.span block.startLineNumber) (by omega)]
    simp only [SparseToken.span, TokenSpan.mk.injEq, and_true]
    omega
  rw [if_neg hbefore]
  by_cases hbehind : getMaxDeltaLine block.tokens + 1 ≤
      (position.lineNumber : ℤ) - block.startLineNumber
  · rw [if_pos hbehind]
    refine map_congr_left fun token htoken => ?_
    have hline := token.span_line block.startLineNumber
    have hle := hmax token htoken
    exact (insert_above (s := token.span block.startLineNumber) (by omega)).symm
  · have hindex : ((position.lineNumber : ℤ) - block.startLineNumber).toNat =
        position.lineNumber - block.startLineNumber := by
      omega
    rw [if_neg hbehind, hindex, SparseMultilineTokensStorage.acceptInsertText, List.map_map]
    exact map_congr_left fun token htoken => insertion_span (n := block.startLineNumber) (by omega)
      (nonempty_of_tidy htidy htoken) _ _ _ hgrowth
      fun hword => hgrows hword _ (mem_map_of_mem htoken)

theorem acceptEdit_spans (hforward : Forward range) (hshift :
    block.ShiftsTokens range) (lastLineLength : ℕ) {firstCharCode :
    CodeUnit} {growth : ℕ} (hgrowth : growth = if isInsertingPreciselyOneWordCharacter eolCount
    firstLineLength firstCharCode then 1 else 0) (hgrows : isInsertingPreciselyOneWordCharacter
    eolCount firstLineLength firstCharCode = true → ∀ s ∈ block.spans, ¬ s.BeginsBehind range) : ∃
    edited, block.acceptEdit range eolCount firstLineLength lastLineLength firstCharCode = some
    edited ∧ edited.spans = block.spans.filterMap (TokenSpan.edit range eolCount firstLineLength
    lastLineLength growth) := by
  obtain ⟨deleted, hdeleted, hspans⟩ := acceptDeleteRange_spans htidy hforward hshift
  refine ⟨_, by rw [acceptEdit, hdeleted]; rfl, ?_⟩
  have htidy' : Tidy deleted.spans := hspans ▸ htidy.delete hforward
  rw [acceptInsertText_spans htidy' lastLineLength hgrowth, hspans, map_filterMap]
  · rfl
  · rintro hword t ht ⟨hline, hstart⟩
    rw [hspans] at ht
    obtain ⟨s, hs, hdelete⟩ := mem_filterMap.1 ht
    exact hgrows hword s hs (beginsBehind_of_delete hforward hdelete hline hstart)

end SparseMultilineTokens

end CodeOss
