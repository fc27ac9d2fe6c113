import CodeOss.Tokens.SparseLaws
import CodeOss.Tokens.SparseLines

/-! The store over whole runs of tokens set and edits.

The pieces stay sorted and disjoint, and a range keeps the tokens that do not touch it. The tokens
of a line are shown with those of the first piece that has the line; what another piece holds of
the line is not shown. -/

namespace CodeOss

open TokenSpan

namespace SparseTokensStore

variable {store : SparseTokensStore} {range : Range}

/-- What happens to the store. The text of an edit is given by its lines. -/
inductive StoreStep where
  | setPartial (range : Range) (pieces : List SparseMultilineTokens)
  | acceptEdit (range : Range) (text : List (List CodeUnit))

namespace StoreStep

/-- The range does not end before it starts, and the new pieces are sorted and disjoint. -/
def Possible : StoreStep → Prop
  | setPartial range pieces => Forward range ∧ PiecesTidy pieces
  | acceptEdit range text => Forward range ∧ text ≠ []

def apply (store : SparseTokensStore) : StoreStep → Option SparseTokensStore
  | setPartial range pieces => some (SparseTokensStore.setPartial store range pieces).1
  | acceptEdit range text => SparseTokensStore.acceptEdit range (text.length - 1)
      (text.headD []).length (text.getLastD []).length (firstCharCode text) store

def Clean (store : SparseTokensStore) : StoreStep → Prop
  | setPartial _ _ => True
  | acceptEdit range text => ∀ piece ∈ store, piece.ShiftsTokens range ∧
      (isOneWordCharacter text = true → ∀ s ∈ piece.spans, ¬ s.BeginsBehind range)

end StoreStep

/-- The states a store comes to by steps that satisfy `allowed`. -/
inductive Reaches (allowed : SparseTokensStore → StoreStep → Prop) :
    SparseTokensStore → Prop
  | empty : Reaches allowed []
  | step {store next : SparseTokensStore} (step : StoreStep) : Reaches allowed store →
      step.Possible → allowed store step → step.apply store = some next → Reaches allowed next

/-- The tokens that do not touch the range that is set, and the new ones. -/
def SetsExactly (store : SparseTokensStore) (range : Range)
    (pieces : List SparseMultilineTokens) : Prop :=
  PiecesTidy (setPartial store range pieces).1 ∧ ∀ s,
    s ∈ spans (setPartial store range pieces).1 ↔
      s ∈ spans store ∧ ¬ s.Touches (setPartial store range pieces).2 ∨ s ∈ spans pieces

theorem not_touches_iff {s : TokenSpan} : ¬ s.Touches range ↔ s.InFront range ∨ s.Behind range := by
  rw [Touches, not_and_or, not_not, not_not]

theorem setsExactly (hforward : Forward range) (hstore : PiecesTidy store)
    {pieces : List SparseMultilineTokens} (hpieces : PiecesTidy pieces) :
    SetsExactly store range pieces := by
  obtain ⟨extended, -, hextended, htidy, hspans⟩ := setPartial_spec hforward hstore hpieces
  refine ⟨htidy, fun s => ?_⟩
  rw [hspans, hextended, not_touches_iff, List.mem_append, List.mem_append, List.mem_filter,
    List.mem_filter, decide_eq_true_eq, decide_eq_true_eq]
  tauto

variable {text : List (List CodeUnit)}

theorem acceptEdit_spec (hforward : Forward range) :
    ∀ {store : SparseTokensStore}, (∀ piece ∈ store, Tidy piece.spans ∧ piece.ShiftsTokens range ∧
    (isOneWordCharacter text = true → ∀ s ∈ piece.spans, ¬ s.BeginsBehind range)) → ∃ edited,
    (StoreStep.acceptEdit range text).apply store = some edited ∧ (∀ piece ∈ edited, piece.tokens ≠
    []) ∧ spans edited = (spans store).filterMap (TokenSpan.edit range (text.length - 1)
    (text.headD []).length (text.getLastD []).length (wordCharacter text).length) := by
  intro store
  induction store with
  | nil => exact fun _ => ⟨[], rfl, fun piece hpiece => absurd hpiece List.not_mem_nil, rfl⟩
  | cons piece store ih =>
    intro h
    obtain ⟨⟨htidy, hshift, hgrows⟩, hrest⟩ := List.forall_mem_cons.1 h
    obtain ⟨others, hothers, hne, hspans⟩ := ih hrest
    obtain ⟨edited, hedited, hpiece⟩ := SparseMultilineTokens.acceptEdit_spans htidy hforward
      hshift (text.getLastD []).length (length_wordCharacter text) hgrows
    rw [StoreStep.apply] at hothers ⊢
    rw [acceptEdit, hedited, hothers, spans_cons, List.filterMap_append, ← hpiece, ← hspans]
    by_cases hempty : edited.isEmpty = true
    · refine ⟨others, by simp [hempty], hne, ?_⟩
      rw [isEmpty_iff.1 hempty, List.nil_append]
    · refine ⟨edited :: others, by simp [hempty], ?_, spans_cons edited others⟩
      exact List.forall_mem_cons.2 ⟨fun hnil => hempty (List.isEmpty_iff.2 hnil), hne⟩

theorem acceptEdit_tidy (hforward : Forward range)
    (hstore : PiecesTidy store) (hclean : (StoreStep.acceptEdit range text).Clean store) :
    ∃ edited, (StoreStep.acceptEdit range text).apply store = some edited ∧ PiecesTidy edited := by
  obtain ⟨edited, hedited, hne, hspans⟩ := acceptEdit_spec hforward fun piece hpiece =>
    ⟨hstore.of_mem hpiece, hclean piece hpiece⟩
  exact ⟨edited, hedited, hne, hspans ▸ hstore.tidy.edit hforward (length_wordCharacter_le text)⟩

theorem piecesTidy_nil : PiecesTidy [] :=
  ⟨fun _ hpiece => absurd hpiece List.not_mem_nil,
    ⟨fun _ hs => absurd hs List.not_mem_nil, List.Pairwise.nil⟩⟩

theorem Reaches.tidy (h : Reaches (fun store step => step.Clean store) store) :
    PiecesTidy store := by
  induction h with
  | empty => exact piecesTidy_nil
  | step step _ hpossible hclean happly ih =>
    cases step with
    | setPartial range pieces =>
      obtain rfl := Option.some.inj happly
      exact (setsExactly hpossible.1 ih hpossible.2).1
    | acceptEdit range text =>
      obtain ⟨edited, hedited, htidy⟩ :=
        acceptEdit_tidy hpossible.1 ih hclean
      obtain rfl := Option.some.inj (hedited.symm.trans happly)
      exact htidy

end SparseTokensStore

open SparseTokensStore

/-- The store keeps the semantic tokens and shows them, as long as edits look after the tokens and
the tokens of the line that is shown are in one piece. -/
theorem semantic_tokens_kept {store : SparseTokensStore}
    (h : Reaches (fun store step => step.Clean store) store) :
    PiecesTidy store ∧
      (∀ range text, (StoreStep.acceptEdit range text).Possible →
        (StoreStep.acceptEdit range text).Clean store →
          ∃ edited, (StoreStep.acceptEdit range text).apply store = some edited ∧
            PiecesTidy edited) ∧
      (∀ range pieces, (StoreStep.setPartial range pieces).Possible →
        SetsExactly store range pieces) ∧
      ∀ lineNumber textLength aTokens, Covers aTokens textLength → HeldByOne store lineNumber →
        StartsSplit store lineNumber → Rendered store lineNumber textLength aTokens :=
  ⟨h.tidy, fun _ _ hpossible hclean => acceptEdit_tidy hpossible.1 h.tidy hclean,
    fun _ _ hpossible => setsExactly hpossible.1 h.tidy hpossible.2,
    fun _ _ _ hcovers hone hstarts => rendered h.tidy hone hstarts hcovers⟩

/-- Tokens on two lines, and a bracket put into the first of them. -/
theorem semantic_tokens_kept_edited :
    PiecesTidy [⟨1, [⟨0, 0, 4, 0x10010⟩, ⟨1, 2, 5, 0x10010⟩]⟩] ∧
      Rendered [⟨1, [⟨0, 0, 4, 0x10010⟩, ⟨1, 2, 5, 0x10010⟩]⟩] 1 10 [(10, 1)] := by
  have hset : Reaches (fun store step => step.Clean store)
      [⟨1, [⟨0, 0, 3, 0x10010⟩, ⟨1, 2, 5, 0x10010⟩]⟩] :=
    .step (.setPartial ⟨1, 1, 3, 1⟩ [⟨1, [⟨0, 0, 3, 0x10010⟩, ⟨1, 2, 5, 0x10010⟩]⟩]) .empty
      ⟨⟨by decide, by decide⟩, ⟨by decide, by decide, by decide⟩⟩ trivial rfl
  have hedited : Reaches (fun store step => step.Clean store)
      [⟨1, [⟨0, 0, 4, 0x10010⟩, ⟨1, 2, 5, 0x10010⟩]⟩] :=
    .step (.acceptEdit ⟨1, 2, 1, 2⟩ [[0x28]]) hset ⟨⟨by decide, by decide⟩, List.cons_ne_nil _ _⟩
      (List.forall_mem_singleton.2 ⟨fun hlt => absurd hlt (lt_irrefl 1), by decide⟩) rfl
  obtain ⟨htidy, -, -, hrendered⟩ := semantic_tokens_kept hedited
  exact ⟨htidy, hrendered 1 10 [(10, 1)] ⟨List.cons_ne_nil _ _, by decide, rfl⟩ (by decide)
    (by decide)⟩

/-- Two pieces on one line: the tokens of the second are not shown. -/
theorem semantic_tokens_lost : ¬ ∀ store : SparseTokensStore, Reaches (fun _ _ => True) store →
    PiecesTidy store ∧ ∀ lineNumber textLength aTokens, Covers aTokens textLength →
      Rendered store lineNumber textLength aTokens := by
  intro h
  have hset : Reaches (fun _ _ => True) [⟨1, [⟨0, 0, 3, 0x10010⟩]⟩] :=
    .step (.setPartial ⟨1, 1, 1, 4⟩ [⟨1, [⟨0, 0, 3, 0x10010⟩]⟩]) .empty
      ⟨⟨by decide, by decide⟩, ⟨by decide, by decide, by decide⟩⟩ trivial rfl
  have htwo : Reaches (fun _ _ => True)
      [⟨1, [⟨0, 0, 3, 0x10010⟩]⟩, ⟨1, [⟨0, 10, 12, 0x10010⟩]⟩] :=
    .step (.setPartial ⟨1, 11, 1, 13⟩ [⟨1, [⟨0, 10, 12, 0x10010⟩]⟩]) hset
      ⟨⟨by decide, by decide⟩, ⟨by decide, by decide, by decide⟩⟩ trivial rfl
  have hshown := ((h _ htwo).2 1 20 [(20, 1)] ⟨List.cons_ne_nil _ _, by decide, rfl⟩).metadata 10
    (by decide)
  have hresult : addSparseTokens [⟨1, [⟨0, 0, 3, 0x10010⟩]⟩, ⟨1, [⟨0, 10, 12, 0x10010⟩]⟩] 1 20
      [(20, 1)] = [(3, 0x10001), (20, 1)] := by
    simp [addSparseTokens, findFirstPieceWithLine, findPieceLoop, firstWithLine,
      SparseMultilineTokens.getLineTokens, SparseMultilineTokens.endLineNumber,
      SparseMultilineTokensStorage.getLineTokens, SparseMultilineTokensStorage.searchLine,
      SparseMultilineTokensStorage.getMaxDeltaLine, SparseMultilineTokensStorage.getDeltaLine,
      pushTokens, pushToken, pushBefore, pushInside, pushRemaining, startOffset,
      LineTokens.endOffset, LineTokens.metadata, Emitter.emitToken]
    decide
  rw [hresult] at hshown
  exact absurd hshown (by decide)

end CodeOss
