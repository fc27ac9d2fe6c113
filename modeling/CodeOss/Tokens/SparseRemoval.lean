import CodeOss.Tokens.SparseBlocks

/-! Taking the tokens that touch a range out of a block. -/

namespace CodeOss

open List

namespace TokenSpan

variable {range : Range}

/-- The span ends before the range starts, and does not touch it. -/
def InFront (range : Range) (s : TokenSpan) : Prop :=
  s.line < range.startLineNumber ∨
    s.line = range.startLineNumber ∧ s.stop < range.startColumn - 1

/-- The span starts after the range ends, and does not touch it. -/
def Behind (range : Range) (s : TokenSpan) : Prop :=
  range.endLineNumber < s.line ∨ s.line = range.endLineNumber ∧ range.endColumn - 1 < s.start

def Touches (range : Range) (s : TokenSpan) : Prop := ¬ s.InFront range ∧ ¬ s.Behind range

instance (range : Range) (s : TokenSpan) : Decidable (s.InFront range) :=
  inferInstanceAs (Decidable (_ ∨ _))

instance (range : Range) (s : TokenSpan) : Decidable (s.Behind range) :=
  inferInstanceAs (Decidable (_ ∨ _))

instance (range : Range) (s : TokenSpan) : Decidable (s.Touches range) :=
  inferInstanceAs (Decidable (_ ∧ _))

theorem InFront.not_behind (hforward : Forward range) {s : TokenSpan} (h : s.InFront range)
    (hne : s.Nonempty) : ¬ s.Behind range := by
  obtain ⟨hlines, hcolumns⟩ := hforward
  simp only [InFront, Behind, Nonempty] at *
  omega

theorem InFront.of_before {s t : TokenSpan} (h : t.InFront range) (hbefore : s.Before t)
    (hne : t.Nonempty) : s.InFront range := by
  simp only [InFront, Before, Nonempty] at *
  omega

theorem Behind.of_before {s t : TokenSpan} (h : s.Behind range) (hbefore : s.Before t)
    (hne : s.Nonempty) : t.Behind range := by
  simp only [Behind, Before, Nonempty] at *
  omega

end TokenSpan

namespace SparseMultilineTokensStorage

variable {tokens : List SparseToken} {startDeltaLine endDeltaLine : ℤ} {startChar endChar : ℕ}

def keeps (startDeltaLine : ℤ) (startChar : ℕ) (endDeltaLine : ℤ) (endChar : ℕ)
    (token : SparseToken) : Bool :=
  !(reaches startDeltaLine startChar token && reachedBy endDeltaLine endChar token)

theorem keeps_iff {token : SparseToken} :
    keeps startDeltaLine startChar endDeltaLine endChar token = true ↔ ¬ (reaches
    startDeltaLine startChar token = true ∧ reachedBy endDeltaLine endChar token = true) := by
  rw [keeps, Bool.not_eq_true', ← Bool.not_eq_true, Bool.and_eq_true]

/-- The token as it counts from a line further down. -/
def rebase (delta : ℕ) (token : SparseToken) : SparseToken :=
  { token with deltaLine := token.deltaLine - delta }

theorem span_rebase {n delta : ℕ} {token : SparseToken} (h : delta ≤ token.deltaLine) :
    (rebase delta token).span (n + delta) = token.span n := by
  simp only [SparseToken.span, rebase, TokenSpan.mk.injEq, and_true]
  omega

theorem map_span_rebase {n delta : ℕ} (h : ∀ token ∈ tokens, delta ≤ token.deltaLine) : (tokens.map
    (rebase delta)).map (SparseToken.span (n + delta)) = tokens.map (SparseToken.span n) := by
  rw [List.map_map]
  exact map_congr_left fun token htoken => span_rebase (h token htoken)

theorem removeLoop_some (delta : ℕ) : removeLoop startDeltaLine startChar endDeltaLine endChar
    (some delta) tokens = ((tokens.filter (keeps startDeltaLine startChar endDeltaLine endChar)).map
    (rebase delta), delta) := by
  induction tokens with
  | nil => rfl
  | cons token tokens ih =>
    rw [removeLoop]
    by_cases htouch : reaches startDeltaLine startChar token = true ∧
        reachedBy endDeltaLine endChar token = true
    · rw [if_pos htouch, ih, filter_cons_of_neg (mt keeps_iff.1 (not_not.2 htouch))]
    · rw [if_neg htouch, filter_cons_of_pos (keeps_iff.2 htouch)]
      simp only [Option.getD_some, ih]
      rfl

theorem removeTokens_eq (hsorted : tokens.Pairwise (·.deltaLine ≤ ·.deltaLine)) :
    ∃ delta, removeTokens tokens startDeltaLine startChar endDeltaLine endChar =
    ((tokens.filter (keeps startDeltaLine startChar endDeltaLine endChar)).map (rebase delta),
    delta) ∧ ∀ token ∈ tokens.filter (keeps startDeltaLine startChar endDeltaLine endChar),
    delta ≤ token.deltaLine := by
  rw [removeTokens]
  induction tokens with
  | nil => exact ⟨0, rfl, fun token htoken => absurd htoken not_mem_nil⟩
  | cons token tokens ih =>
    obtain ⟨hhead, htail⟩ := pairwise_cons.1 hsorted
    rw [removeLoop]
    by_cases htouch : reaches startDeltaLine startChar token = true ∧
        reachedBy endDeltaLine endChar token = true
    · rw [if_pos htouch, filter_cons_of_neg (mt keeps_iff.1 (not_not.2 htouch))]
      exact ih htail
    · rw [if_neg htouch, filter_cons_of_pos (keeps_iff.2 htouch)]
      refine ⟨token.deltaLine, ?_, fun other hother => ?_⟩
      · simp only [Option.getD_none, removeLoop_some]
        rfl
      · rcases mem_cons.1 hother with rfl | hother
        · exact le_rfl
        · exact hhead other (mem_filter.1 hother).1

theorem splitBehind_eq (delta : ℕ) :
    splitBehind startDeltaLine startChar endDeltaLine endChar delta tokens =
      (tokens.filter (keeps startDeltaLine startChar endDeltaLine endChar)).map (rebase delta) := by
  induction tokens with
  | nil => rfl
  | cons token tokens ih =>
    simp only [splitBehind, ih]
    by_cases htouch : reaches startDeltaLine startChar token = true ∧
        reachedBy endDeltaLine endChar token = true
    · rw [if_pos htouch, filter_cons_of_neg (mt keeps_iff.1 (not_not.2 htouch))]
    · rw [if_neg htouch, filter_cons_of_pos (keeps_iff.2 htouch)]
      rfl

theorem split_eq (hsorted : tokens.Pairwise fun token other => token.deltaLine ≤ other.deltaLine ∧
    (reaches startDeltaLine startChar token → reaches startDeltaLine startChar other)) :
    ∃ delta, split startDeltaLine startChar endDeltaLine endChar tokens =
    (tokens.filter fun token => !reaches startDeltaLine startChar token, (tokens.filter fun
    token => reaches startDeltaLine startChar token && !reachedBy endDeltaLine endChar token).map
    (rebase delta), delta) ∧ ∀ token ∈ tokens, reaches startDeltaLine startChar token = true →
    reachedBy endDeltaLine endChar token = false → delta ≤ token.deltaLine := by
  induction tokens with
  | nil => exact ⟨0, rfl, fun token htoken => absurd htoken not_mem_nil⟩
  | cons token tokens ih =>
    obtain ⟨hhead, htail⟩ := pairwise_cons.1 hsorted
    obtain ⟨delta, hsplit, hdelta⟩ := ih htail
    rw [split]
    by_cases hreaches : reaches startDeltaLine startChar token = true
    · have hrest : ∀ other ∈ tokens, reaches startDeltaLine startChar other = true :=
        fun other hother => (hhead other hother).2 hreaches
      by_cases hreached : reachedBy endDeltaLine endChar token = true
      · rw [if_pos hreaches, if_pos hreached, hsplit]
        refine ⟨delta, ?_, fun other hother hr hnot => ?_⟩
        · rw [filter_cons_of_neg (by simp [hreaches]),
            filter_cons_of_neg (by simp [hreached])]
        · rcases mem_cons.1 hother with rfl | hother
          · exact absurd hreached (by simp [hnot])
          · exact hdelta other hother hr hnot
      · rw [if_pos hreaches, if_neg hreached, splitBehind_eq]
        refine ⟨token.deltaLine, ?_, fun other hother _ _ => ?_⟩
        · have hall : ∀ other ∈ token :: tokens, reaches startDeltaLine startChar other = true :=
            forall_mem_cons.2 ⟨hreaches, hrest⟩
          have hnone : (token :: tokens).filter
              (fun token => !reaches startDeltaLine startChar token) = [] :=
            filter_eq_nil_iff.2 fun other hother => by simp [hall other hother]
          have hkeeps : (token :: tokens).filter
              (keeps startDeltaLine startChar endDeltaLine endChar) =
                (token :: tokens).filter fun token => reaches startDeltaLine startChar token &&
                  !reachedBy endDeltaLine endChar token :=
            filter_congr fun other hother => by simp [keeps, hall other hother]
          rw [hnone, hkeeps]
        · rcases mem_cons.1 hother with rfl | hother
          · exact le_rfl
          · exact (hhead other hother).1
    · rw [if_neg hreaches, hsplit]
      refine ⟨delta, ?_, fun other hother hr hnot => ?_⟩
      · rw [filter_cons_of_pos (by simpa using hreaches),
          filter_cons_of_neg (by simp [hreaches])]
      · rcases mem_cons.1 hother with rfl | hother
        · exact absurd hr hreaches
        · exact hdelta other hother hr hnot

end SparseMultilineTokensStorage

namespace SparseMultilineTokens

open SparseMultilineTokensStorage TokenSpan

variable {block : SparseMultilineTokens} {range : Range}

theorem reaches_iff (block : SparseMultilineTokens) (range : Range) (token : SparseToken) :
    reaches ((range.startLineNumber : ℤ) - block.startLineNumber) (range.startColumn - 1) token =
      true ↔ ¬ (token.span block.startLineNumber).InFront range := by
  simp only [reaches, InFront, SparseToken.span, decide_eq_true_eq]
  omega

theorem reachedBy_iff (block : SparseMultilineTokens) (range : Range) (token : SparseToken) :
    reachedBy ((range.endLineNumber : ℤ) - block.startLineNumber) (range.endColumn - 1) token =
      true ↔ ¬ (token.span block.startLineNumber).Behind range := by
  simp only [reachedBy, Behind, SparseToken.span, decide_eq_true_eq]
  omega

theorem removeTokens_spans (htidy : Tidy block.spans) :
    (block.removeTokens range).spans = block.spans.filter fun s => ¬ s.Touches range := by
  obtain ⟨delta, hremove, hdelta⟩ := @removeTokens_eq block.tokens
    ((range.startLineNumber : ℤ) - block.startLineNumber)
    ((range.endLineNumber : ℤ) - block.startLineNumber) (range.startColumn - 1)
    (range.endColumn - 1) (sorted_of_tidy htidy)
  rw [removeTokens]
  simp only [hremove, spans]
  rw [map_span_rebase hdelta, filter_map]
  congr 1
  refine filter_congr fun token _ => ?_
  rw [Bool.eq_iff_iff, keeps, Function.comp_apply, decide_eq_true_eq, Bool.not_eq_true',
    Bool.and_eq_false_iff, ← Bool.not_eq_true, ← Bool.not_eq_true, reaches_iff, reachedBy_iff]
  simp only [Touches]
  tauto

theorem reaches_sorted (htidy : Tidy block.spans) (range : Range) :
    block.tokens.Pairwise fun token other => token.deltaLine ≤ other.deltaLine ∧ (reaches
    ((range.startLineNumber : ℤ) - block.startLineNumber) (range.startColumn - 1) token → reaches
    ((range.startLineNumber : ℤ) - block.startLineNumber) (range.startColumn - 1) other) := by
  refine List.Pairwise.imp₂ (fun _ _ h h' => ⟨h, h'⟩) (sorted_of_tidy htidy) ?_
  refine List.Pairwise.imp_of_mem (fun {token other} _ hother hbefore => ?_)
    (pairwise_map.1 htidy.sorted)
  rw [reaches_iff, reaches_iff]
  exact fun hnot hfront => hnot (hfront.of_before hbefore (nonempty_of_tidy htidy hother))

theorem split_spans (hforward : Forward range) (htidy : Tidy block.spans) :
    (block.split range).1.spans = block.spans.filter (InFront range) ∧
      (block.split range).2.spans = block.spans.filter (Behind range) := by
  obtain ⟨delta, hsplit, hdelta⟩ := @split_eq block.tokens
    ((range.startLineNumber : ℤ) - block.startLineNumber)
    ((range.endLineNumber : ℤ) - block.startLineNumber) (range.startColumn - 1)
    (range.endColumn - 1) (reaches_sorted htidy range)
  rw [split]
  simp only [hsplit, spans]
  refine ⟨?_, ?_⟩
  · rw [filter_map]
    congr 1
    refine filter_congr fun token _ => ?_
    rw [Bool.eq_iff_iff, Function.comp_apply, decide_eq_true_eq, Bool.not_eq_true',
      ← Bool.not_eq_true, reaches_iff, not_not]
  · rw [map_span_rebase, filter_map]
    · congr 1
      refine filter_congr fun token htoken => ?_
      rw [Bool.eq_iff_iff, Function.comp_apply, decide_eq_true_eq, Bool.and_eq_true,
        Bool.not_eq_true', ← Bool.not_eq_true, reaches_iff, reachedBy_iff, not_not]
      exact and_iff_right_of_imp fun hbehind hfront =>
        hfront.not_behind hforward (nonempty_of_tidy htidy htoken) hbehind
    · intro token htoken
      obtain ⟨hmem, hcond⟩ := mem_filter.1 htoken
      rw [Bool.and_eq_true, Bool.not_eq_true'] at hcond
      exact hdelta token hmem hcond.1 hcond.2

end SparseMultilineTokens

end CodeOss
