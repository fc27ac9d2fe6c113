import CodeOss.Tokens.ContiguousMultilineTokens
import CodeOss.Tokens.ContiguousTokensStore

/-! Blocks and the store after the same edit. -/

namespace CodeOss

open List

namespace ContiguousMultilineTokens

open ContiguousTokensEditing

variable {block : Block} {range : Range}

variable (tokens : List RawLineTokens)

theorem getLineTokens_mk {startLineNumber lineNumber : ℕ} (h : startLineNumber ≤ lineNumber) :
    getLineTokens ⟨startLineNumber, tokens⟩ lineNumber =
      tokens.getD (lineNumber - startLineNumber) .null := if_pos h

theorem deleteBeginning_null (toChIndex : ℕ) : deleteBeginning .null toChIndex = .null := rfl

section

variable (hle : range.startLineNumber ≤ range.endLineNumber)
include hle

theorem acceptDeleteRange_before
    (h : range.endLineNumber < block.startLineNumber) : block.acceptDeleteRange range =
      ⟨block.startLineNumber - (range.endLineNumber - range.startLineNumber), block.tokens⟩ := by
  rw [acceptDeleteRange]
  simp only
  by_cases hnothing : range.startLineNumber = range.endLineNumber ∧
      range.startColumn = range.endColumn
  · rw [if_pos hnothing, hnothing.1, Nat.sub_self, Nat.sub_zero]
  · rw [if_neg hnothing, if_pos (by omega)]
    congr 2
    omega

theorem acceptDeleteRange_behind (h : block.endLineNumberExclusive ≤ range.startLineNumber) :
    block.acceptDeleteRange range = block := by
  rw [endLineNumberExclusive] at h
  rw [acceptDeleteRange]
  simp only
  by_cases hnothing : range.startLineNumber = range.endLineNumber ∧
      range.startColumn = range.endColumn
  · rw [if_pos hnothing]
  · rw [if_neg hnothing, if_neg (by omega), if_pos (by omega)]

omit hle in
theorem acceptDeleteRange_around (hstart : range.startLineNumber < block.startLineNumber)
    (hend : block.endLineNumberExclusive ≤ range.endLineNumber) :
    block.acceptDeleteRange range = ⟨0, []⟩ := by
  rw [endLineNumberExclusive] at hend
  rw [acceptDeleteRange]
  simp only
  rw [if_neg (by omega), if_neg (by omega), if_neg (by omega), if_pos (by omega)]

theorem acceptDeleteRange_inside (hstart : block.startLineNumber ≤ range.startLineNumber)
    (hend : range.startLineNumber < block.endLineNumberExclusive) :
    block.acceptDeleteRange range = ⟨block.startLineNumber, block.tokens.take
    (range.startLineNumber - block.startLineNumber) ++ [joinedTokens block.getLineTokens range] ++
    block.tokens.drop (range.endLineNumber + 1 - block.startLineNumber)⟩ := by
  rw [endLineNumberExclusive] at hend
  set i := range.startLineNumber - block.startLineNumber with hi
  have hlt : i < block.tokens.length := by omega
  have hset (x : RawLineTokens) : (block.tokens.set i x).take (i + 1) =
      block.tokens.take i ++ [x] := by
    rw [take_add_one, take_set, set_eq_of_length_le (by rw [List.length_take]; omega),
      getElem?_set_self hlt]
    rfl
  have hindex : ((range.startLineNumber : ℤ) - block.startLineNumber).toNat = i := by omega
  have hlastIndex : ((range.endLineNumber : ℤ) - block.startLineNumber).toNat =
      range.endLineNumber - block.startLineNumber := by omega
  have hfirst : block.getLineTokens range.startLineNumber = block.tokens.getD i .null :=
    getLineTokens_of_le hstart
  have hlast : block.getLineTokens range.endLineNumber =
      block.tokens.getD (range.endLineNumber - block.startLineNumber) .null :=
    getLineTokens_of_le (hstart.trans hle)
  rw [joinedTokens, hfirst, hlast, acceptDeleteRange]
  simp only [hindex, hlastIndex]
  by_cases hone : range.startLineNumber = range.endLineNumber
  · have hdrop : range.endLineNumber + 1 - block.startLineNumber = i + 1 := by omega
    have hwhole (x : RawLineTokens) : block.tokens.take i ++ [x] ++ block.tokens.drop (i + 1) =
        block.tokens.set i x := by
      rw [set_eq_take_append_cons_drop, if_pos hlt, append_assoc]
      rfl
    rw [if_pos hone, hdrop, hwhole]
    by_cases hcolumns : range.startColumn = range.endColumn
    · rw [if_pos ⟨hone, hcolumns⟩, hcolumns, delete_self, getD_eq_getElem _ _ hlt, set_getElem_self]
    · rw [if_neg fun h => hcolumns h.2, if_neg (by omega), if_neg (by omega), if_neg (by omega),
        if_pos (by omega)]
  · rw [if_neg fun h => hone h.1, if_neg (by omega), if_neg (by omega), if_neg (by omega),
      if_neg (by omega), if_pos (by omega), if_neg hone]
    have hnext : ((range.startLineNumber : ℤ) - block.startLineNumber + 1).toNat = i + 1 := by
      omega
    have hbehind : ((range.endLineNumber : ℤ) - block.startLineNumber + 1).toNat =
        range.endLineNumber + 1 - block.startLineNumber := by omega
    rw [hnext, hset, hset, hbehind, drop_set_of_lt (by omega)]
    split_ifs with hinside
    · rfl
    · have hnull : block.tokens.getD (range.endLineNumber - block.startLineNumber) .null = .null :=
        getD_eq_default _ _ (by omega)
      rw [hnull, deleteBeginning_null, drop_of_length_le (by omega), append_nil]

omit hle in
theorem acceptDeleteRange_front (hstart : range.startLineNumber < block.startLineNumber)
    (hend : block.startLineNumber ≤ range.endLineNumber)
    (hinside : range.endLineNumber < block.endLineNumberExclusive) :
    block.acceptDeleteRange range = ⟨range.startLineNumber,
    deleteBeginning (block.getLineTokens range.endLineNumber) (range.endColumn - 1)
    :: block.tokens.drop (range.endLineNumber + 1 - block.startLineNumber)⟩ := by
  rw [endLineNumberExclusive] at hinside
  have hlastIndex : ((range.endLineNumber : ℤ) - block.startLineNumber).toNat =
      range.endLineNumber - block.startLineNumber := by omega
  rw [acceptDeleteRange]
  simp only
  rw [if_neg (by omega), if_neg (by omega), if_neg (by omega), if_neg (by omega),
    if_neg (by omega), if_neg (by omega), hlastIndex, getLineTokens_of_le hend]
  set j := range.endLineNumber - block.startLineNumber with hj
  have hjlt : j < block.tokens.length := by omega
  congr 1
  · omega
  · have hlt : j < (block.tokens.set j
        (deleteBeginning (block.tokens.getD j .null) (range.endColumn - 1))).length := by
      rw [List.length_set]
      exact hjlt
    rw [drop_eq_getElem_cons hlt, getElem_set_self, drop_set_of_lt (by omega)]
    congr 2
    omega

theorem getLineTokens_acceptDeleteRange (hend : block.startLineNumber ≤ range.endLineNumber)
    {lineNumber : ℕ} (hgt : range.startLineNumber < lineNumber) :
    (block.acceptDeleteRange range).getLineTokens lineNumber =
    block.getLineTokens (lineNumber + (range.endLineNumber - range.startLineNumber)) := by
  by_cases hbehind : block.endLineNumberExclusive ≤ range.startLineNumber
  · rw [acceptDeleteRange_behind hle hbehind, getLineTokens_of_end_le (by omega),
      getLineTokens_of_end_le (by omega)]
  by_cases hfirst : block.startLineNumber ≤ range.startLineNumber
  · rw [acceptDeleteRange_inside hle hfirst (not_le.1 hbehind)]
    rw [endLineNumberExclusive] at hbehind
    rw [getLineTokens_mk _ (by omega), getLineTokens_of_le (by omega),
      List.getD_splice (by omega), if_neg (by omega), if_neg (by rw [length_singleton]; omega),
      length_singleton]
    congr 1
    omega
  by_cases haround : block.endLineNumberExclusive ≤ range.endLineNumber
  · rw [acceptDeleteRange_around (not_le.1 hfirst) haround,
      getLineTokens_of_end_le (show 0 + 0 ≤ lineNumber from Nat.zero_le _),
      getLineTokens_of_end_le (by omega)]
  · rw [acceptDeleteRange_front (not_le.1 hfirst) hend (not_le.1 haround),
      getLineTokens_of_le (by simp only; omega), getLineTokens_of_le (by omega)]
    obtain ⟨i, rfl⟩ : ∃ i, lineNumber = range.startLineNumber + (i + 1) :=
      ⟨lineNumber - range.startLineNumber - 1, by omega⟩
    rw [Nat.add_sub_cancel_left, getD_cons_succ, List.getD_drop']
    have hindex : range.endLineNumber + 1 - block.startLineNumber + i =
        range.startLineNumber + (i + 1) + (range.endLineNumber - range.startLineNumber) -
          block.startLineNumber := by omega
    rw [hindex, getLineTokens_of_le (by omega)]

end

/-- The lines a block and the store hold agree, but for those that are `unknown`. -/
def AgreeOn (unknown : ℕ → Prop) (block : Block) (store : ContiguousTokensStore) : Prop :=
  ∀ lineNumber, block.startLineNumber ≤ lineNumber → lineNumber < block.endLineNumberExclusive →
    block.getLineTokens lineNumber = store.line lineNumber ∨
      unknown lineNumber ∧
        (block.getLineTokens lineNumber = .null ∨ store.line lineNumber = .null)

variable {store : ContiguousTokensStore} {position : Position} {eolCount firstLineLength : ℕ}

theorem acceptInsertText_before (h : position.lineNumber < block.startLineNumber) :
    block.acceptInsertText position eolCount firstLineLength =
      ⟨block.startLineNumber + eolCount, block.tokens⟩ := by
  rw [acceptInsertText]
  simp only
  by_cases hnothing : eolCount = 0 ∧ firstLineLength = 0
  · rw [if_pos hnothing, hnothing.1, Nat.add_zero]
  · rw [if_neg hnothing, if_pos (by omega)]

theorem acceptInsertText_behind (h : block.endLineNumberExclusive ≤ position.lineNumber) :
    block.acceptInsertText position eolCount firstLineLength = block := by
  rw [endLineNumberExclusive] at h
  rw [acceptInsertText]
  simp only
  by_cases hnothing : eolCount = 0 ∧ firstLineLength = 0
  · rw [if_pos hnothing]
  · rw [if_neg hnothing, if_neg (by omega), if_pos (by omega)]

/-- What an insertion makes of the line it begins on. -/
def insertedTokens (lineTokens : RawLineTokens) (chIndex eolCount firstLineLength : ℕ) :
    RawLineTokens :=
  if eolCount = 0 then
    if firstLineLength = 0 then lineTokens
    else ContiguousTokensEditing.insert lineTokens chIndex firstLineLength
  else ContiguousTokensEditing.insert (deleteEnding lineTokens chIndex) chIndex firstLineLength

theorem acceptInsertText_inside (hstart : block.startLineNumber ≤ position.lineNumber)
    (hend : position.lineNumber < block.endLineNumberExclusive) :
    block.acceptInsertText position eolCount firstLineLength = ⟨block.startLineNumber,
    insertLines (block.tokens.set (position.lineNumber - block.startLineNumber) (insertedTokens
    (block.getLineTokens position.lineNumber) (position.column - 1) eolCount firstLineLength))
    position.lineNumber eolCount⟩ := by
  rw [endLineNumberExclusive] at hend
  have hindex : ((position.lineNumber : ℤ) - block.startLineNumber).toNat =
      position.lineNumber - block.startLineNumber := by omega
  have hnone (tokens : List RawLineTokens) : insertLines tokens position.lineNumber 0 = tokens := by
    rw [insertLines, replicate_zero, append_nil, take_append_drop]
  rw [acceptInsertText, getLineTokens_of_le hstart, insertedTokens]
  simp only [hindex]
  by_cases heol : eolCount = 0
  · rw [if_pos heol, heol, hnone]
    by_cases hlen : firstLineLength = 0
    · rw [if_pos ⟨rfl, hlen⟩, if_pos rfl, if_pos hlen, getD_eq_getElem _ _ (by omega),
        set_getElem_self]
    · rw [if_neg fun h => hlen h.2, if_neg hlen, if_neg (by omega), if_neg (by omega), if_pos rfl]
  · rw [if_neg fun h => heol h.1, if_neg (by omega), if_neg (by omega), if_neg heol, if_neg heol]

theorem length_insertLines (insertIndex insertCount : ℕ) :
    (insertLines tokens insertIndex insertCount).length = tokens.length + insertCount := by
  simp only [insertLines, length_append, List.length_take, length_replicate, List.length_drop]
  omega

theorem getD_insertLines (insertIndex insertCount n : ℕ) :
    (insertLines tokens insertIndex insertCount).getD n .null = if n < min insertIndex tokens.length
    then tokens.getD n .null else if n < min insertIndex tokens.length + insertCount then .null else
    tokens.getD (n - insertCount) .null := by
  have hclamp : insertLines tokens insertIndex insertCount =
      tokens.take (min insertIndex tokens.length) ++ List.replicate insertCount .null ++
        tokens.drop (min insertIndex tokens.length) := by
    rcases le_total insertIndex tokens.length with hle | hle
    · rw [Nat.min_eq_left hle, insertLines]
    · rw [Nat.min_eq_right hle, insertLines, take_of_length_le hle, take_length,
        drop_of_length_le hle, drop_length]
  rw [hclamp, List.getD_splice (Nat.min_le_right _ _), length_replicate]
  split_ifs with h₁ h₂
  · rfl
  · rw [getD_eq_getElem?_getD, getElem?_replicate]
    split_ifs <;> rfl
  · congr 1
    omega

theorem agreeOn_acceptInsertText_iff {unknown unknown' : ℕ → Prop}
    (hpos : 1 ≤ block.startLineNumber) (hstart : block.startLineNumber ≤ position.lineNumber)
    (hend : position.lineNumber < block.endLineNumberExclusive)
    (h : AgreeOn unknown block store) (hunknown : ∀ lineNumber,
    unknown lineNumber → lineNumber = position.lineNumber ∧ store.line lineNumber = .null)
    (hunknown' : ∀ lineNumber, unknown' lineNumber → lineNumber ≤ position.lineNumber + eolCount)
    (hline : unknown position.lineNumber → unknown' position.lineNumber) :
    AgreeOn unknown' (block.acceptInsertText position eolCount firstLineLength)
    (store.acceptInsertText position eolCount firstLineLength) ↔
    eolCount = 0 ∨ ∀ lineNumber, position.lineNumber < lineNumber → lineNumber <
    block.startLineNumber + position.lineNumber → block.getLineTokens lineNumber = .null := by
  rw [endLineNumberExclusive] at hend
  rw [acceptInsertText_inside hstart (by rwa [endLineNumberExclusive])]
  set start := block.startLineNumber with hstartEq
  set p := position.lineNumber with hp
  set value := insertedTokens (block.getLineTokens p) (position.column - 1) eolCount
    firstLineLength with hvalue
  have hset := List.getD_set_eq block.tokens (p - start) value
  have hset' (n : ℕ) (hn : p < n) : (block.tokens.set (p - start) value).getD (n - start) .null =
      block.getLineTokens n := by
    rw [hset _ _ (by omega), if_neg (by omega), getLineTokens_of_le (by omega)]
  have hblock {n : ℕ} (hn : start ≤ n) := getLineTokens_mk (insertLines
    (block.tokens.set (p - start) value) p eolCount) hn
  have hend' {n : ℕ} : n < endLineNumberExclusive (⟨start, insertLines
      (block.tokens.set (p - start) value) p eolCount⟩ : Block) ↔
      n < start + block.tokens.length + eolCount := by
    rw [endLineNumberExclusive, length_insertLines, List.length_set, Nat.add_assoc]
  have hshort : min p (block.tokens.set (p - start) value).length = min p block.tokens.length := by
    rw [List.length_set]
  have hother {m : ℕ} (hm : p < m) (hm' : m < start + block.tokens.length) :
      block.getLineTokens m = store.line m := by
    refine (h m (by omega) (by rw [endLineNumberExclusive]; omega)).resolve_right fun hm'' => ?_
    exact absurd (hunknown m hm''.1).1 hm.ne'
  constructor
  · intro hagree
    refine or_iff_not_imp_left.2 fun heol => ?_
    -- the last line with tokens would come to lie `eolCount` lines too high
    have hdown : ∀ gap m, start + p - m = gap → p < m → m < start + p →
        block.getLineTokens m = .null := by
      intro gap
      induction gap using Nat.strong_induction_on with
      | _ gap ih =>
        intro m hgap hgt hlt
        by_cases hout : start + block.tokens.length ≤ m
        · exact getLineTokens_of_end_le (by rwa [endLineNumberExclusive])
        have hnew := hagree (m + eolCount) (show start ≤ m + eolCount by omega)
          (hend'.2 (by omega))
        have hstore : (store.acceptInsertText position eolCount firstLineLength).line
            (m + eolCount) = block.getLineTokens m := by
          rw [store.line_acceptInsertText (by omega) _ _ (by omega), if_neg (by omega),
            if_neg (by omega), if_neg (by omega), Nat.add_sub_cancel, hother hgt (by omega)]
        rw [hblock (by omega), getD_insertLines, hshort, hstore] at hnew
        have hmoved := hnew.resolve_right fun hunk => by
          have := hunknown' _ hunk.1
          omega
        rw [← hmoved]
        split_ifs with h₁ h₂
        · rw [hset' _ (by omega)]
          exact ih (start + p - (m + eolCount)) (by omega) _ rfl (by omega) (by omega)
        · rfl
        · omega
    exact fun m hgt hlt => hdown _ m rfl hgt hlt
  · intro hnull n hn hlt
    rw [hend'] at hlt
    simp only at hn
    rw [hblock hn, getD_insertLines, hshort, store.line_acceptInsertText (by omega) _ _ (by omega)]
    by_cases hbefore : n < p
    · rw [if_pos (by omega), if_pos hbefore, hset _ _ (by omega), if_neg (by omega),
        ← getLineTokens_of_le hn]
      refine (h n hn (by rw [endLineNumberExclusive]; omega)).imp id fun hn' => ?_
      exact absurd (hunknown n hn'.1).1 hbefore.ne
    by_cases hat : n = p
    · rw [if_pos (by omega), if_neg hbefore, if_pos hat, hset _ _ (by omega), if_pos (by omega),
        hvalue, hat, insertedTokens]
      rcases h p hstart (by rw [endLineNumberExclusive]; omega) with heq | ⟨hunk, -⟩
      · exact .inl (by rw [heq])
      · rw [(hunknown p hunk).2]
        refine .inr ⟨hline hunk, .inr ?_⟩
        split_ifs <;> rfl
    rw [if_neg hbefore, if_neg hat]
    rcases hnull with rfl | hnull
    · rw [if_neg (by omega : ¬n ≤ p + 0), Nat.sub_zero, Nat.add_zero, Nat.sub_zero,
        ← hother (by omega)
        (by omega), hset' n (by omega)]
      left
      split_ifs <;> rfl
    · left
      by_cases hnew : n ≤ p + eolCount
      · rw [if_pos hnew]
        split_ifs with h₁ h₂
        · rw [hset' n (by omega)]
          exact hnull n (by omega) (by omega)
        · rfl
        · omega
      · rw [if_neg hnew, ← hother (by omega) (by omega)]
        have hindex : n - start - eolCount = n - eolCount - start := by omega
        split_ifs with h₁ h₂
        · rw [hset' n (by omega), hnull n (by omega) (by omega), hnull _ (by omega) (by omega)]
        · exact (hnull _ (by omega) (by omega)).symm
        · rw [hindex, hset' _ (by omega)]

end ContiguousMultilineTokens

end CodeOss
