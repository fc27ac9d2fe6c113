import CodeOss.Tokens.SparseLookup
import CodeOss.Tokens.SparseRendering

/-! The tokens of a line with the sparse tokens that the store holds for it. -/

namespace CodeOss

open SparseMultilineTokens List

namespace SparseTokensStore

open TokenSpan SparseMultilineTokensStorage

variable {store : SparseTokensStore} {lineNumber : ℕ} {piece other : SparseMultilineTokens}

def HeldByOne (store : SparseTokensStore) (lineNumber : ℕ) : Prop :=
  store.Pairwise fun piece other => piece.tokensOn lineNumber = [] ∨ other.tokensOn lineNumber = []

/-- No piece that starts below the line stands in front of one that does not. -/
def StartsSplit (store : SparseTokensStore) (lineNumber : ℕ) : Prop :=
  store.Pairwise fun piece other =>
    other.startLineNumber ≤ lineNumber → piece.startLineNumber ≤ lineNumber

instance (store : SparseTokensStore) (lineNumber : ℕ) : Decidable (HeldByOne store lineNumber) :=
  inferInstanceAs (Decidable (List.Pairwise _ _))

instance (store : SparseTokensStore) (lineNumber : ℕ) : Decidable (StartsSplit store lineNumber) :=
  inferInstanceAs (Decidable (List.Pairwise _ _))

/-- The stored token over a character of the line, whichever piece holds it. -/
def storedOver (store : SparseTokensStore) (lineNumber offset : ℕ) : Option TokenSpan :=
  (spans store).find? fun s => s.line = lineNumber ∧ s.start ≤ offset ∧ offset < s.stop

/-- The tokens of the line, overridden by the stored ones. -/
structure Rendered (store : SparseTokensStore) (lineNumber textLength : ℕ)
    (aTokens : List (ℕ × ℕ)) : Prop where
  covers : Covers (addSparseTokens store lineNumber textLength aTokens) textLength
  metadata : ∀ offset < textLength,
    metadataAt (addSparseTokens store lineNumber textLength aTokens) offset =
      match storedOver store lineNumber offset with
      | none => metadataAt aTokens offset
      | some s => mergeMetadata (metadataAt aTokens offset) s.metadata

theorem PiecesTidy.of_mem (h : PiecesTidy store) (hpiece : piece ∈ store) : Tidy piece.spans :=
  ⟨fun s hs => h.tidy.nonempty s (mem_flatMap.2 ⟨piece, hpiece, hs⟩),
    (pairwise_flatMap.1 h.tidy.sorted).1 piece hpiece⟩

theorem exists_line_eq_endLineNumber (hne : piece.tokens ≠ []) :
    ∃ s ∈ piece.spans, (s.line : ℤ) = piece.endLineNumber := by
  obtain ⟨tokens, last, hlast⟩ := (eq_nil_or_concat' piece.tokens).resolve_left hne
  refine ⟨last.span piece.startLineNumber, mem_map_of_mem ?_, ?_⟩
  · rw [hlast]
    exact mem_append_right _ mem_cons_self
  · rw [endLineNumber, hlast, getMaxDeltaLine, getLast?_concat, SparseToken.span]
    push_cast
    rfl

theorem PiecesTidy.linesInOrder (h : PiecesTidy store) (hstarts : StartsSplit store lineNumber) :
    LinesInOrder lineNumber store := by
  refine List.Pairwise.imp₂ (fun _ _ hstart hends => ⟨hstart, hends⟩) hstarts ?_
  refine List.Pairwise.imp_of_mem (fun {piece other} hpiece hother hbefore => ?_)
    (pairwise_flatMap.1 h.tidy.sorted).2
  obtain ⟨s, hs, hend⟩ := exists_line_eq_endLineNumber (h.nonempty piece hpiece)
  obtain ⟨t, ht⟩ := exists_mem_of_ne_nil _ (spans_ne_nil (h.nonempty other hother))
  have hle := line_le_endLineNumber (h.of_mem hother) t ht
  rcases hbefore s hs t ht with hlt | ⟨heq, -⟩ <;> omega

theorem tokensOn_ne_nil {s : TokenSpan} (hs : s ∈ piece.spans) (hline : s.line = lineNumber) :
    piece.tokensOn lineNumber ≠ [] := by
  obtain ⟨token, htoken, rfl⟩ := mem_map.1 hs
  exact ne_nil_of_mem (mem_filter.2 ⟨htoken, decide_eq_true hline⟩)

theorem exists_of_tokensOn_ne_nil (h : piece.tokensOn lineNumber ≠ []) :
    ∃ s ∈ piece.spans, s.line = lineNumber := by
  obtain ⟨token, htoken⟩ := exists_mem_of_ne_nil _ h
  obtain ⟨hmem, hline⟩ := mem_filter.1 htoken
  exact ⟨_, mem_map_of_mem hmem, of_decide_eq_true hline⟩

theorem hasLine_of_tokensOn_ne_nil (htidy : Tidy piece.spans)
    (h : piece.tokensOn lineNumber ≠ []) : HasLine lineNumber piece := by
  obtain ⟨s, hs, rfl⟩ := exists_of_tokensOn_ne_nil h
  exact ⟨startLineNumber_le_line s hs, line_le_endLineNumber htidy s hs⟩

theorem tokensOn_ne_nil_of_hasLine (h : PiecesTidy store) {i j : ℕ} (hi : store[i]? = some piece)
    (hj : store[j]? = some other) (hlt : i < j) (hhas : HasLine lineNumber piece)
    (hholds : other.tokensOn lineNumber ≠ []) : piece.tokensOn lineNumber ≠ [] := by
  obtain ⟨hi', rfl⟩ := List.getElem?_eq_some_iff.1 hi
  obtain ⟨hj', rfl⟩ := List.getElem?_eq_some_iff.1 hj
  obtain ⟨t, ht, hline⟩ := exists_of_tokensOn_ne_nil hholds
  obtain ⟨s, hs, hend⟩ :=
    exists_line_eq_endLineNumber (h.nonempty store[i] (getElem_mem hi'))
  have hbefore := pairwise_iff_getElem.1 (pairwise_flatMap.1 h.tidy.sorted).2 i j hi' hj'
    hlt s hs t ht
  have hlast := hhas.2
  refine tokensOn_ne_nil hs ?_
  rcases hbefore with hless | ⟨heq, -⟩ <;> omega

theorem findFirstPieceWithLine_eq (h : PiecesTidy store) (hone : HeldByOne store lineNumber)
    (hstarts : StartsSplit store lineNumber) {k : ℕ} (hk : store[k]? = some piece)
    (hholds : piece.tokensOn lineNumber ≠ []) : findFirstPieceWithLine store lineNumber = k := by
  obtain ⟨hle, found, hfound, hhas⟩ := findFirstPieceWithLine_spec (h.linesInOrder hstarts) k piece
    hk (hasLine_of_tokensOn_ne_nil (h.of_mem (mem_of_getElem? hk)) hholds)
  by_contra hne
  have hlt : findFirstPieceWithLine store lineNumber < k := lt_of_le_of_ne hle hne
  obtain ⟨hi, hfound'⟩ := List.getElem?_eq_some_iff.1 hfound
  obtain ⟨hk', hpiece⟩ := List.getElem?_eq_some_iff.1 hk
  rcases pairwise_iff_getElem.1 hone _ k hi hk' hlt with hnil | hnil
  · rw [hfound'] at hnil
    exact tokensOn_ne_nil_of_hasLine h hfound hk hlt hhas hholds hnil
  · rw [hpiece] at hnil
    exact hholds hnil

theorem filter_line_eq (store : SparseTokensStore) (lineNumber : ℕ) :
    (spans store).filter (·.line = lineNumber) = store.flatMap fun piece =>
      (piece.tokensOn lineNumber).map (SparseToken.span piece.startLineNumber) := by
  induction store with
  | nil => rfl
  | cons piece store ih =>
    rw [spans_cons, filter_append, ih, flatMap_cons, spans_tokensOn]

theorem flatMap_eq_of_one {α β : Type*} {f : α → List β} {l : List α}
    (hone : l.Pairwise fun a b => f a = [] ∨ f b = []) {k : ℕ} {a : α} (hk : l[k]? = some a)
    (ha : f a ≠ []) : l.flatMap f = f a := by
  induction l generalizing k with
  | nil => cases hk
  | cons b l ih =>
    obtain ⟨hhead, htail⟩ := pairwise_cons.1 hone
    rw [flatMap_cons]
    cases k with
    | zero =>
      obtain rfl := Option.some.inj hk
      have hnil : l.flatMap f = [] :=
        flatMap_eq_nil_iff.2 fun c hc => (hhead c hc).resolve_left ha
      rw [hnil, append_nil]
    | succ k =>
      rw [(hhead a (mem_of_getElem? hk)).resolve_right ha, nil_append]
      exact ih htail hk

theorem storedOver_eq (store : SparseTokensStore) (lineNumber offset : ℕ) :
    storedOver store lineNumber offset = ((spans store).filter (·.line = lineNumber)).find?
      fun s => s.start ≤ offset ∧ offset < s.stop := by
  rw [storedOver, find?_filter]
  congr 1
  funext s
  simp only [decide_eq_true_eq]

theorem separate_tokensOn (htidy : Tidy piece.spans) (lineNumber : ℕ) :
    Separate (piece.tokensOn lineNumber) := by
  have hsorted : ((piece.tokensOn lineNumber).map
      (SparseToken.span piece.startLineNumber)).Pairwise Before := by
    rw [spans_tokensOn]
    exact htidy.sorted.filter _
  refine List.Pairwise.imp_of_mem (fun {token other} htoken hother hbefore => ?_)
    (pairwise_map.1 hsorted)
  have hline : piece.startLineNumber + token.deltaLine = lineNumber :=
    of_decide_eq_true (mem_filter.1 htoken).2
  have hline' : piece.startLineNumber + other.deltaLine = lineNumber :=
    of_decide_eq_true (mem_filter.1 hother).2
  rcases hbefore with hlt | ⟨-, hle⟩
  · simp only [SparseToken.span] at hlt
    omega
  · exact hle

theorem rendered (h : PiecesTidy store) (hone : HeldByOne store lineNumber)
    (hstarts : StartsSplit store lineNumber) {textLength : ℕ} {aTokens : List (ℕ × ℕ)}
    (hcovers : Covers aTokens textLength) : Rendered store lineNumber textLength aTokens := by
  rcases Nat.eq_zero_or_pos textLength with rfl | hpos
  · have hsame : addSparseTokens store lineNumber 0 aTokens = aTokens := if_pos rfl
    exact ⟨hsame.symm ▸ hcovers, fun offset hoffset => absurd hoffset (Nat.not_lt_zero offset)⟩
  by_cases hany : ∃ (k : ℕ) (piece : SparseMultilineTokens),
      store[k]? = some piece ∧ piece.tokensOn lineNumber ≠ []
  · obtain ⟨k, piece, hk, hholds⟩ := hany
    have hmem := mem_of_getElem? hk
    have htidy := h.of_mem hmem
    have hmaps : store.Pairwise fun piece other =>
        (piece.tokensOn lineNumber).map (SparseToken.span piece.startLineNumber) = [] ∨
          (other.tokensOn lineNumber).map (SparseToken.span other.startLineNumber) = [] :=
      hone.imp fun hnil => hnil.imp map_eq_nil_iff.2 map_eq_nil_iff.2
    have hover (offset : ℕ) : storedOver store lineNumber offset =
        (tokenOver (piece.tokensOn lineNumber) offset).map
          (SparseToken.span piece.startLineNumber) := by
      rw [storedOver_eq, filter_line_eq,
        flatMap_eq_of_one hmaps hk (mt map_eq_nil_iff.1 hholds), find?_map]
      rfl
    obtain ⟨hcovers', hmetadata⟩ := @pushTokens_covers _ _ hcovers (piece.tokensOn lineNumber)
      (fun token htoken => nonempty_of_tidy htidy
        (mem_filter.1 htoken).1) (separate_tokensOn htidy lineNumber) hpos
    have hadd : addSparseTokens store lineNumber textLength aTokens =
        (pushRemaining aTokens
          (pushTokens aTokens textLength 0 ⟨[], 0⟩ (piece.tokensOn lineNumber)).1
          (pushTokens aTokens textLength 0 ⟨[], 0⟩ (piece.tokensOn lineNumber)).2).result := by
      rw [addSparseTokens, if_neg hpos.ne', findFirstPieceWithLine_eq h hone hstarts hk hholds, hk]
      simp only
      rw [getLineTokens_eq htidy (h.nonempty piece hmem), if_neg hholds]
    rw [← hadd] at hcovers' hmetadata
    refine ⟨hcovers', fun offset hoffset => ?_⟩
    rw [hmetadata offset hoffset, hover offset, overridden]
    cases tokenOver (piece.tokensOn lineNumber) offset <;> rfl
  · have hnone (k : ℕ) (piece : SparseMultilineTokens) (hk : store[k]? = some piece) :
        piece.tokensOn lineNumber = [] := by
      by_contra hholds
      exact hany ⟨k, piece, hk, hholds⟩
    have hadd : addSparseTokens store lineNumber textLength aTokens = aTokens := by
      rw [addSparseTokens, if_neg hpos.ne']
      cases hfound : store[findFirstPieceWithLine store lineNumber]? with
      | none => rfl
      | some piece =>
        have hmem := mem_of_getElem? hfound
        simp only
        rw [getLineTokens_eq (h.of_mem hmem) (h.nonempty piece hmem), if_pos (hnone _ piece hfound)]
    have hover (offset : ℕ) : storedOver store lineNumber offset = none := by
      have hnil : (spans store).filter (·.line = lineNumber) = [] := by
        rw [filter_line_eq, flatMap_eq_nil_iff]
        intro piece hpiece
        obtain ⟨k, hk⟩ := mem_iff_getElem?.1 hpiece
        rw [hnone k piece hk, map_nil]
      rw [storedOver_eq, hnil, find?_nil]
    refine ⟨hadd.symm ▸ hcovers, fun offset _ => ?_⟩
    rw [hadd, hover offset]

end SparseTokensStore

end CodeOss
