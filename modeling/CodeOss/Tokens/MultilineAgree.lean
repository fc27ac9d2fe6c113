import CodeOss.Tokens.MultilineEdits
import CodeOss.Tokens.MultilineSerialization

/-! When a block agrees with the store after an edit. -/

namespace CodeOss

namespace ContiguousMultilineTokens

open ContiguousTokensEditing

/-- A part of the old line `lineNumber` is on the line `newLineNumber` of the edited text. -/
def Survives (range : Range) (eolCount lineNumber newLineNumber : ℕ) : Prop :=
  lineNumber < range.startLineNumber ∧ newLineNumber = lineNumber ∨
    (lineNumber = range.startLineNumber ∨ lineNumber = range.endLineNumber) ∧
      range.startLineNumber ≤ newLineNumber ∧ newLineNumber ≤ range.startLineNumber + eolCount ∨
    range.endLineNumber < lineNumber ∧
      newLineNumber + (range.endLineNumber - range.startLineNumber) = lineNumber + eolCount

/-- The edit joins the first or the last line of the block with a line outside of it, and the
line is a part of the joined one. -/
def JoinedOutside (block : Block) (range : Range) (eolCount lineNumber : ℕ) : Prop :=
  range.startLineNumber ≤ lineNumber ∧ lineNumber ≤ range.startLineNumber + eolCount ∧
    (range.startLineNumber < block.startLineNumber ∧
        block.startLineNumber ≤ range.endLineNumber ∧
        range.endLineNumber < block.endLineNumberExclusive ∨
      block.startLineNumber ≤ range.startLineNumber ∧
        range.startLineNumber < block.endLineNumberExclusive ∧
        block.endLineNumberExclusive ≤ range.endLineNumber)

/-- The edited block covers what is left of its lines, and holds what the edited store holds
there. -/
structure EditAgrees (block : Block) (store : ContiguousTokensStore) (range : Range)
    (text : JsString) : Prop where
  lines : ∀ newLineNumber, (block.applyEdit range text).startLineNumber ≤ newLineNumber ∧
      newLineNumber < (block.applyEdit range text).endLineNumberExclusive ↔
    ∃ lineNumber, block.startLineNumber ≤ lineNumber ∧
      lineNumber < block.endLineNumberExclusive ∧
      Survives range (countEOL text).1 lineNumber newLineNumber
  tokens : AgreeOn (JoinedOutside block range (countEOL text).1) (block.applyEdit range text)
    (store.acceptEdit range (countEOL text).1 (countEOL text).2.1)

/-- New lines only go into the block where nothing is known of the lines of the block that
follow the range, as many of them as lines come before the block. -/
def NewLinesFit (block : Block) (range : Range) (eolCount : ℕ) : Prop :=
  eolCount = 0 ∨ range.endLineNumber < block.startLineNumber ∨
    ∀ lineNumber, range.endLineNumber < lineNumber →
      lineNumber < range.endLineNumber + min block.startLineNumber range.startLineNumber →
      block.getLineTokens lineNumber = .null

variable {block : Block} {store : ContiguousTokensStore} {range : Range} {text : JsString}

theorem editAgrees_before
    (hstart : 1 ≤ range.startLineNumber) (hle : range.startLineNumber ≤ range.endLineNumber)
    (hstore : ∀ lineNumber, 1 ≤ lineNumber → store.line lineNumber = block.getLineTokens lineNumber)
    (hend : range.endLineNumber < block.startLineNumber) : EditAgrees block store range text := by
  have hedit : block.applyEdit range text = ⟨block.startLineNumber -
      (range.endLineNumber - range.startLineNumber) + (countEOL text).1, block.tokens⟩ := by
    rw [applyEdit, acceptDeleteRange_before hle hend]
    refine acceptInsertText_before ?_
    simp only [Range.getStartPosition]
    omega
  have hlast : block.endLineNumberExclusive = block.startLineNumber + block.tokens.length := rfl
  refine ⟨fun n => ?_, fun n hn hlt => ?_⟩
  · rw [hedit]
    simp only [endLineNumberExclusive, Survives]
    constructor
    · rintro ⟨hn, hlt⟩
      exact ⟨n - (countEOL text).1 + (range.endLineNumber - range.startLineNumber), by omega,
        by omega, .inr (.inr (by omega))⟩
    · rintro ⟨l, hl, hl', h⟩
      omega
  · rw [hedit] at hn hlt ⊢
    simp only [endLineNumberExclusive] at hn hlt
    left
    rw [ContiguousTokensStore.acceptEdit, ContiguousTokensStore.line_acceptInsertText_of_gt _ hstart
        (show range.startLineNumber + _ < n by omega),
      store.line_acceptDeleteRange_of_gt hstart hle (by omega), hstore _ (by omega),
      getLineTokens_mk _ hn, getLineTokens_of_le (by omega)]
    congr 1
    omega

theorem editAgrees_behind (hstart : 1 ≤ range.startLineNumber)
    (hle : range.startLineNumber ≤ range.endLineNumber) (hpos : 1 ≤ block.startLineNumber)
    (hstore : ∀ lineNumber, 1 ≤ lineNumber → store.line lineNumber = block.getLineTokens lineNumber)
    (hbehind : block.endLineNumberExclusive ≤ range.startLineNumber) :
    EditAgrees block store range text := by
  have hedit : block.applyEdit range text = block := by
    rw [applyEdit, acceptDeleteRange_behind hle hbehind]
    exact acceptInsertText_behind hbehind
  refine ⟨fun n => ?_, fun n hn hlt => ?_⟩
  · rw [hedit]
    simp only [Survives]
    constructor
    · rintro ⟨hn, hlt⟩
      exact ⟨n, hn, hlt, .inl ⟨by omega, rfl⟩⟩
    · rintro ⟨l, hl, hl', h⟩
      omega
  · rw [hedit] at hn hlt ⊢
    left
    rw [ContiguousTokensStore.acceptEdit,
      ContiguousTokensStore.line_acceptInsertText_of_lt _ hstart (hpos.trans hn)
        (show n < range.startLineNumber by omega),
      store.line_acceptDeleteRange_of_lt hstart hle (hpos.trans hn) (by omega),
      hstore n (hpos.trans hn)]

theorem editAgrees_around (hfirst : range.startLineNumber < block.startLineNumber) (hend :
    block.endLineNumberExclusive ≤ range.endLineNumber) : EditAgrees block store range text := by
  have hedit : block.applyEdit range text = ⟨0, []⟩ := by
    rw [applyEdit, acceptDeleteRange_around hfirst hend]
    exact acceptInsertText_behind (Nat.zero_le _)
  refine ⟨fun n => ?_, fun n hn hlt => ?_⟩
  · rw [hedit]
    simp only [Survives, endLineNumberExclusive, List.length_nil] at hend ⊢
    constructor
    · rintro ⟨hn, hlt⟩
      omega
    · rintro ⟨l, hl, hl', h⟩
      omega
  · rw [hedit] at hlt
    exact absurd hlt (Nat.not_lt_zero n)

/-- An edit that begins in the block, or reaches into it from above: what is asked of the lines
of the edited block is what is asked of an insertion into it. -/
theorem editAgrees_iff_of_deleted {deleted : Block} (unknown : ℕ → Prop)
    (hstart : 1 ≤ range.startLineNumber) (hle : range.startLineNumber ≤ range.endLineNumber)
    (hdeleted : block.acceptDeleteRange range = deleted)
    (hfirst : deleted.startLineNumber = min block.startLineNumber range.startLineNumber)
    (hend : block.startLineNumber ≤ range.endLineNumber) (hpos : 1 ≤ block.startLineNumber)
    (hinside : range.startLineNumber < deleted.endLineNumberExclusive)
    (hlines : ∀ n, deleted.startLineNumber ≤ n ∧
    n < deleted.endLineNumberExclusive + (countEOL text).1 ↔ ∃ l, block.startLineNumber ≤ l ∧
    l < block.endLineNumberExclusive ∧ Survives range (countEOL text).1 l n)
    (hagree : AgreeOn unknown deleted (store.acceptDeleteRange range)) (hunknown : ∀ n, unknown n →
    n = range.startLineNumber ∧ (store.acceptDeleteRange range).line n = .null) (hjoined : unknown
    range.startLineNumber → JoinedOutside block range (countEOL text).1 range.startLineNumber) :
    EditAgrees block store range text ↔ NewLinesFit block range (countEOL text).1 := by
  have hle' : deleted.startLineNumber ≤ range.startLineNumber := by omega
  have hedit : block.applyEdit range text = deleted.acceptInsertText range.getStartPosition
      (countEOL text).1 (countEOL text).2.1 := by
    rw [← hdeleted]
    rfl
  have hstart' : (block.applyEdit range text).startLineNumber = deleted.startLineNumber := by
    rw [hedit, acceptInsertText_inside hle' hinside]
  have hend' : (block.applyEdit range text).endLineNumberExclusive =
      deleted.endLineNumberExclusive + (countEOL text).1 := by
    rw [hedit, acceptInsertText_inside hle' hinside]
    simp only [endLineNumberExclusive, length_insertLines, List.length_set, Nat.add_assoc]
  have hinsert := @agreeOn_acceptInsertText_iff deleted (store.acceptDeleteRange range)
    range.getStartPosition (countEOL text).1 (countEOL text).2.1 unknown
    (JoinedOutside block range (countEOL text).1) (by omega) hle' hinside hagree hunknown
    (fun n hn => hn.2.1) hjoined
  have hbetween : (∀ n, range.startLineNumber < n →
      n < deleted.startLineNumber + range.startLineNumber → deleted.getLineTokens n = .null) ↔
      ∀ n, range.endLineNumber < n →
        n < range.endLineNumber + min block.startLineNumber range.startLineNumber →
        block.getLineTokens n = .null := by
    constructor
    · intro h n hn hlt
      have hnull := h (n - (range.endLineNumber - range.startLineNumber)) (by omega) (by omega)
      rw [← hdeleted, getLineTokens_acceptDeleteRange hle hend (by omega)] at hnull
      rwa [Nat.sub_add_cancel (by omega)] at hnull
    · intro h n hn hlt
      rw [← hdeleted, getLineTokens_acceptDeleteRange hle hend hn]
      exact h _ (by omega) (by omega)
  rw [← hedit] at hinsert
  constructor
  · intro h
    exact (hinsert.1 h.tokens).imp_right fun hnull => .inr (hbetween.1 hnull)
  · intro h
    refine ⟨fun n => ?_, hinsert.2 (h.imp_right fun hnull => ?_)⟩
    · rw [hstart', hend']
      exact hlines n
    · exact hbetween.2 (hnull.resolve_left (by omega))

variable (hstart : 1 ≤ range.startLineNumber)
include hstart

theorem editAgrees_inside_iff
    (hle : range.startLineNumber ≤ range.endLineNumber) (hpos : 1 ≤ block.startLineNumber)
    (hstore : ∀ lineNumber, 1 ≤ lineNumber → store.line lineNumber = block.getLineTokens lineNumber)
    (hfirst : block.startLineNumber ≤ range.startLineNumber)
    (hinside : range.startLineNumber < block.endLineNumberExclusive) :
    EditAgrees block store range text ↔ NewLinesFit block range (countEOL text).1 := by
  have hjoined : joinedTokens store.line range = joinedTokens block.getLineTokens range := by
    rw [joinedTokens, joinedTokens, hstore _ hstart, hstore _ (hstart.trans hle)]
  have hdeleted := acceptDeleteRange_inside hle hfirst hinside
  have hend : endLineNumberExclusive (block.acceptDeleteRange range) =
      max block.endLineNumberExclusive (range.endLineNumber + 1) -
        (range.endLineNumber - range.startLineNumber) := by
    rw [hdeleted]
    simp only [endLineNumberExclusive, List.length_append, List.length_take,
      List.length_singleton, List.length_drop] at hinside ⊢
    omega
  refine editAgrees_iff_of_deleted (fun _ => False) hstart hle rfl ?_ (hfirst.trans hle) hpos ?_
    (fun n => ?_) (fun n hn hlt => .inl ?_) (fun _ h => h.elim) (fun h => h.elim)
  · rw [hdeleted]
    exact (Nat.min_eq_left hfirst).symm
  · rw [hend]
    omega
  · rw [hend, hdeleted]
    simp only [Survives]
    constructor
    · rintro ⟨hn, hlt⟩
      by_cases hn' : n < range.startLineNumber
      · exact ⟨n, hn, by omega, .inl ⟨hn', rfl⟩⟩
      by_cases hn'' : n ≤ range.startLineNumber + (countEOL text).1
      · exact ⟨range.startLineNumber, hfirst, hinside, .inr (.inl ⟨.inl rfl, by omega, hn''⟩)⟩
      · exact ⟨n - (countEOL text).1 + (range.endLineNumber - range.startLineNumber), by omega,
          by omega, .inr (.inr (by omega))⟩
    · rintro ⟨l, hl, hl', h⟩
      omega
  · have hn' : block.startLineNumber ≤ n := by
      rw [hdeleted] at hn
      exact hn
    rcases lt_trichotomy n range.startLineNumber with hlt' | rfl | hgt
    · rw [store.line_acceptDeleteRange_of_lt hstart hle (hpos.trans hn') hlt', hdeleted,
        getLineTokens_mk _ hn', hstore n (hpos.trans hn'), getLineTokens_of_le hn', List.append_assoc,
        List.getD_append _ _ _ _
          (by rw [List.length_take]; rw [endLineNumberExclusive] at hinside; omega),
        List.getD_eq_getElem?_getD, List.getElem?_take_of_lt (by omega),
        ← List.getD_eq_getElem?_getD]
    · rw [store.line_acceptDeleteRange_self hstart hle, hjoined, hdeleted, getLineTokens_mk _ hn']
      rw [endLineNumberExclusive] at hinside
      rw [List.getD_splice (by omega), if_neg (lt_irrefl _),
        if_pos (by rw [List.length_singleton]; omega), Nat.sub_self]
      rfl
    · rw [store.line_acceptDeleteRange_of_gt hstart hle hgt,
        getLineTokens_acceptDeleteRange hle (hfirst.trans hle) hgt, hstore _ (by omega)]

theorem editAgrees_front_iff
    (hstore : ∀ lineNumber, 1 ≤ lineNumber → store.line lineNumber = block.getLineTokens lineNumber)
    (hfirst : range.startLineNumber < block.startLineNumber)
    (hend : block.startLineNumber ≤ range.endLineNumber)
    (hinside : range.endLineNumber < block.endLineNumberExclusive) :
    EditAgrees block store range text ↔ NewLinesFit block range (countEOL text).1 := by
  have hle : range.startLineNumber ≤ range.endLineNumber := by omega
  have hdeleted := acceptDeleteRange_front hfirst hend hinside
  have hlast : endLineNumberExclusive (block.acceptDeleteRange range) =
      block.endLineNumberExclusive - (range.endLineNumber - range.startLineNumber) := by
    rw [hdeleted]
    simp only [endLineNumberExclusive, List.length_cons, List.length_drop] at hinside ⊢
    omega
  -- nothing is known outside of the block, so nothing is known of the joined line
  have hnull : (store.acceptDeleteRange range).line range.startLineNumber = .null := by
    rw [store.line_acceptDeleteRange_self hstart hle, joinedTokens, if_neg (by omega),
      hstore _ hstart, getLineTokens_of_lt hfirst]
    generalize deleteBeginning (store.line range.endLineNumber) (range.endColumn - 1) = other
    cases other <;> rfl
  refine editAgrees_iff_of_deleted (fun n => n = range.startLineNumber) hstart hle rfl ?_ hend
    (by omega) ?_ (fun n => ?_) (fun n hn hlt => ?_) (fun n hn => ⟨hn, ?_⟩)
    (fun _ => ⟨le_rfl, Nat.le_add_right _ _, .inl ⟨hfirst, hend, hinside⟩⟩)
  · rw [hdeleted]
    exact (Nat.min_eq_right hfirst.le).symm
  · rw [hlast]
    omega
  · rw [hlast, hdeleted]
    simp only [Survives]
    constructor
    · rintro ⟨hn, hlt⟩
      by_cases hn' : n ≤ range.startLineNumber + (countEOL text).1
      · exact ⟨range.endLineNumber, hend, hinside, .inr (.inl ⟨.inr rfl, hn, hn'⟩)⟩
      · exact ⟨n - (countEOL text).1 + (range.endLineNumber - range.startLineNumber), by omega,
          by omega, .inr (.inr (by omega))⟩
    · rintro ⟨l, hl, hl', h⟩
      omega
  · have hn' : range.startLineNumber ≤ n := by
      rw [hdeleted] at hn
      exact hn
    rcases hn'.eq_or_lt with rfl | hgt
    · exact .inr ⟨rfl, .inr hnull⟩
    · left
      rw [store.line_acceptDeleteRange_of_gt hstart hle hgt,
        getLineTokens_acceptDeleteRange hle hend hgt, hstore _ (by omega)]
  · rw [hn, hnull]

theorem editAgrees_iff
    (hle : range.startLineNumber ≤ range.endLineNumber) (hpos : 1 ≤ block.startLineNumber) (hstore :
    ∀ lineNumber, 1 ≤ lineNumber → store.line lineNumber = block.getLineTokens lineNumber) :
    EditAgrees block store range text ↔ NewLinesFit block range (countEOL text).1 := by
  by_cases hbefore : range.endLineNumber < block.startLineNumber
  · exact ⟨fun _ => .inr (.inl hbefore), fun _ => editAgrees_before hstart hle hstore hbefore⟩
  have hnull {n : ℕ} (h : block.endLineNumberExclusive ≤ n) : block.getLineTokens n = .null :=
    getLineTokens_of_end_le h
  by_cases hbehind : block.endLineNumberExclusive ≤ range.startLineNumber
  · exact ⟨fun _ => .inr (.inr fun n hn _ => hnull (by omega)),
      fun _ => editAgrees_behind hstart hle hpos hstore hbehind⟩
  by_cases hfirst : block.startLineNumber ≤ range.startLineNumber
  · exact editAgrees_inside_iff hstart hle hpos hstore hfirst (not_le.1 hbehind)
  by_cases haround : block.endLineNumberExclusive ≤ range.endLineNumber
  · exact ⟨fun _ => .inr (.inr fun n hn _ => hnull (by omega)),
      fun _ => editAgrees_around (not_le.1 hfirst) haround⟩
  · exact editAgrees_front_iff hstart hstore (not_le.1 hfirst) (not_lt.1 hbefore)
      (not_le.1 haround)

end ContiguousMultilineTokens

end CodeOss

/-! When a block of tokens agrees with the store after an edit, and when it survives being
serialized. -/

namespace CodeOss

namespace ContiguousMultilineTokens

theorem multiline_agrees_iff {block : Block} {store : ContiguousTokensStore} {range : Range}
    (hblock : 1 ≤ block.startLineNumber) (hstart : 1 ≤ range.startLineNumber)
    (hle : range.startLineNumber ≤ range.endLineNumber)
    (hstore : ∀ lineNumber, 1 ≤ lineNumber →
      store.line lineNumber = block.getLineTokens lineNumber)
    (text : JsString) (startLineNumber : ℕ) (lines : List Uint32Array) :
    (EditAgrees block store range text ↔ NewLinesFit block range (countEOL text).1) ∧
      (RoundTrips ⟨startLineNumber, lines.map some⟩ ↔ Serializable startLineNumber lines) :=
  ⟨editAgrees_iff hstart hle hblock hstore, roundTrips_iff startLineNumber lines⟩

/-- A line break behind the last line of a block that begins on line two, and a block with a
line of one word. -/
theorem multiline_agrees_last_line :
    EditAgrees ⟨2, [.array [(1, 1)], .array [(2, 2)]]⟩
        ⟨[.null, .array [(1, 1)], .array [(2, 2)]]⟩ ⟨3, 2, 3, 2⟩ [10] ∧
      RoundTrips ⟨7, [some ⟨[1, 2, 3, 4], 0, 1, by decide⟩]⟩ := by
  have h := @multiline_agrees_iff ⟨2, [.array [(1, 1)], .array [(2, 2)]]⟩
    ⟨[.null, .array [(1, 1)], .array [(2, 2)]]⟩ ⟨3, 2, 3, 2⟩ (by decide) (by decide)
    (by decide) (fun lineNumber hpos => by
      match lineNumber, hpos with
      | 1, _ => rfl
      | 2, _ => rfl
      | 3, _ => rfl
      | n + 4, _ => rfl) [10] 7 [⟨[1, 2, 3, 4], 0, 1, by decide⟩]
  refine ⟨h.1.2 (.inr (.inr fun lineNumber hgt hlt => ?_)), h.2.2 ?_⟩
  · simp only [Nat.min_eq_left (show 2 ≤ 3 by decide)] at hgt hlt
    obtain rfl : lineNumber = 4 := by omega
    rfl
  · exact serializable_of_whole (by decide) (by decide) (by decide) (by decide)

/-- A line break on the first of the two lines: the block puts the new line behind the second. -/
theorem multiline_disagrees : ¬∀ (block : Block) (store : ContiguousTokensStore) (range : Range)
    (text : JsString), 1 ≤ block.startLineNumber → 1 ≤ range.startLineNumber →
      range.startLineNumber ≤ range.endLineNumber →
      (∀ lineNumber, 1 ≤ lineNumber →
        store.line lineNumber = block.getLineTokens lineNumber) →
      EditAgrees block store range text := by
  intro h
  have hagrees := h ⟨2, [.array [(1, 1)], .array [(2, 2)]]⟩
    ⟨[.null, .array [(1, 1)], .array [(2, 2)]]⟩ ⟨2, 2, 2, 2⟩ [10] (by decide) (by decide)
    (by decide) fun lineNumber hpos => by
      match lineNumber, hpos with
      | 1, _ => rfl
      | 2, _ => rfl
      | 3, _ => rfl
      | n + 4, _ => rfl
  rcases hagrees.tokens 3 (by decide) (by decide) with heq | ⟨hjoined, -⟩
  · exact absurd heq (by decide)
  · rcases hjoined.2.2 with ⟨hlt, -, -⟩ | ⟨-, -, hle⟩
    · exact absurd hlt (by decide)
    · exact absurd hle (by decide)

end ContiguousMultilineTokens

end CodeOss
