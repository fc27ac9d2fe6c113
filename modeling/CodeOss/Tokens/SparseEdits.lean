import CodeOss.Tokens.SparseMultilineTokens
import CodeOss.Tokens.SparseSpans

/-! The tokens of a block as spans of the document, and what an edit makes of them. -/

namespace CodeOss

open SparseToken

def SparseToken.span (startLineNumber : ℕ) (token : SparseToken) : TokenSpan :=
  ⟨startLineNumber + token.deltaLine, token.startCharacter, token.endCharacter, token.metadata⟩

namespace SparseMultilineTokensStorage

open TokenSpan

variable {tokens : List SparseToken}

/-- What the loop leaves of a token, without the early stop. -/
def survivor (shift startDeltaLine startCharacter endDeltaLine endCharacter : ℕ)
    (token : SparseToken) : Option SparseToken :=
  match deletion shift startDeltaLine startCharacter endDeltaLine endCharacter true token with
  | .keep kept => some kept
  | _ => none

section

variable {shift startDeltaLine startCharacter endDeltaLine endCharacter : ℕ} {token : SparseToken}

theorem deletion_below (hle : startDeltaLine ≤ endDeltaLine) (h : endDeltaLine < token.deltaLine)
    (hasDeletedTokens : Bool) : deletion shift startDeltaLine startCharacter endDeltaLine
    endCharacter hasDeletedTokens token = if endDeltaLine - startDeltaLine = 0 ∧ hasDeletedTokens =
    false then .stop else .keep { token with deltaLine := token.deltaLine - (endDeltaLine -
    startDeltaLine) } := by
  rw [deletion, if_neg (by omega), if_neg (by omega), if_neg (by omega), if_neg (by omega), if_pos h]

theorem deletion_of_le (hle : token.deltaLine ≤ endDeltaLine) : (∃ kept, deletion shift
    startDeltaLine startCharacter endDeltaLine endCharacter true token = .keep kept) ∨ deletion
    shift startDeltaLine startCharacter endDeltaLine endCharacter true token = .delete := by
  rw [deletion, if_neg hle.not_gt]
  by_cases hfront : token.deltaLine < startDeltaLine ∨
      token.deltaLine = startDeltaLine ∧ token.endCharacter ≤ startCharacter
  · exact .inl ⟨token, if_pos hfront⟩
  rw [if_neg hfront]
  by_cases hover : token.deltaLine = endDeltaLine ∧ endCharacter < token.endCharacter
  · rw [if_pos hover, if_pos hover, if_pos hover]
    by_cases hcrosses : token.deltaLine = startDeltaLine ∧ token.startCharacter < startCharacter
    · exact .inl ⟨_, if_pos hcrosses⟩
    rw [if_neg hcrosses]
    by_cases hat : token.deltaLine = startDeltaLine ∧ token.startCharacter = startCharacter
    · exact .inl ⟨_, if_pos hat⟩
    rw [if_neg hat]
    by_cases hinto : token.deltaLine < endDeltaLine ∨
        token.deltaLine = endDeltaLine ∧ token.startCharacter < endCharacter
    · exact .inl ⟨_, if_pos hinto⟩
    · rw [if_neg hinto, if_pos (by omega)]
      exact .inl ⟨_, rfl⟩
  · rw [if_neg hover, if_neg hover, if_neg hover]
    by_cases hcrosses : token.deltaLine = startDeltaLine ∧ token.startCharacter < startCharacter
    · exact .inl ⟨_, if_pos hcrosses⟩
    rw [if_neg hcrosses]
    by_cases hat : token.deltaLine = startDeltaLine ∧ token.startCharacter = startCharacter
    · exact .inr (if_pos hat)
    rw [if_neg hat]
    by_cases hinto : token.deltaLine < endDeltaLine ∨
        token.deltaLine = endDeltaLine ∧ token.startCharacter < endCharacter
    · exact .inr (if_pos hinto)
    · rw [if_neg hinto, if_pos (by omega)]
      exact .inl ⟨_, rfl⟩

theorem deletion_eq_of_le (hle : token.deltaLine ≤ endDeltaLine) (hasDeletedTokens : Bool) :
    deletion shift startDeltaLine startCharacter endDeltaLine endCharacter hasDeletedTokens token =
      match survivor shift startDeltaLine startCharacter endDeltaLine endCharacter token with
      | some kept => .keep kept
      | none => .delete := by
  have hsame : deletion shift startDeltaLine startCharacter endDeltaLine endCharacter
      hasDeletedTokens token =
        deletion shift startDeltaLine startCharacter endDeltaLine endCharacter true token := by
    simp only [deletion, if_neg hle.not_gt]
  rw [hsame, survivor]
  rcases deletion_of_le hle with ⟨kept, hkept⟩ | hdelete
  · rw [hkept]
  · rw [hdelete]

theorem survivor_below (hle : startDeltaLine ≤ endDeltaLine) (h : endDeltaLine < token.deltaLine) :
    survivor shift startDeltaLine startCharacter endDeltaLine endCharacter token =
      some { token with deltaLine := token.deltaLine - (endDeltaLine - startDeltaLine) } := by
  rw [survivor, deletion_below hle h, if_neg (by simp)]

end

/-- The loop stops early only where it would not change anything any more. -/
theorem deleteLoop_eq {startDeltaLine endDeltaLine : ℕ} (hle : startDeltaLine ≤ endDeltaLine)
    (shift startCharacter endCharacter : ℕ) (hasDeletedTokens : Bool)
    (hsorted : tokens.Pairwise (·.deltaLine ≤ ·.deltaLine)) : deleteLoop shift startDeltaLine
    startCharacter endDeltaLine endCharacter hasDeletedTokens tokens = some (tokens.filterMap
    (survivor shift startDeltaLine startCharacter endDeltaLine endCharacter)) := by
  induction tokens generalizing hasDeletedTokens with
  | nil => rfl
  | cons token tokens ih =>
    obtain ⟨hhead, htail⟩ := List.pairwise_cons.1 hsorted
    rw [deleteLoop]
    rcases Nat.lt_or_ge endDeltaLine token.deltaLine with hbelow | habove
    · rw [deletion_below hle hbelow]
      by_cases hstop : endDeltaLine - startDeltaLine = 0 ∧ hasDeletedTokens = false
      · have hrest : (token :: tokens).filterMap
            (survivor shift startDeltaLine startCharacter endDeltaLine endCharacter) =
              token :: tokens := by
          refine (List.filterMap_congr fun other hother => ?_).trans List.filterMap_some
          have hlt : endDeltaLine < other.deltaLine := by
            rcases List.mem_cons.1 hother with rfl | hother
            · exact hbelow
            · exact hbelow.trans_le (hhead other hother)
          rw [survivor_below hle hlt, hstop.1]
          rfl
        rw [if_pos hstop, hrest]
      · rw [if_neg hstop, List.filterMap_cons, survivor_below hle hbelow]
        simp only
        rw [ih _ htail]
        rfl
    · rw [deletion_eq_of_le habove, List.filterMap_cons]
      cases survivor shift startDeltaLine startCharacter endDeltaLine endCharacter token with
      | none => exact ih true htail
      | some kept =>
        simp only
        rw [ih _ htail]
        rfl

section

variable {shift startDeltaLine startCharacter endDeltaLine endCharacter : ℕ} {token : SparseToken}

theorem survivor_front (h : token.deltaLine < startDeltaLine ∨ token.deltaLine =
    startDeltaLine ∧ token.endCharacter ≤ startCharacter) :
    survivor shift startDeltaLine startCharacter endDeltaLine endCharacter token = some token := by
  rw [survivor, deletion, if_pos h]

theorem survivor_around (hline : token.deltaLine = startDeltaLine)
    (hlast : token.deltaLine = endDeltaLine) (hstart : token.startCharacter < startCharacter)
    (hstop : startCharacter < token.endCharacter) (hend : endCharacter < token.endCharacter) :
    survivor shift startDeltaLine startCharacter endDeltaLine endCharacter token =
      some { token with endCharacter := token.endCharacter - (endCharacter - startCharacter) } := by
  rw [survivor, deletion, if_neg (by omega), if_pos ⟨hline, hstart⟩, if_pos ⟨hlast, hend⟩]

theorem survivor_into (hline : token.deltaLine = startDeltaLine) (hstart : token.startCharacter <
    startCharacter) (hstop : startCharacter < token.endCharacter) (hend : token.deltaLine =
    endDeltaLine → token.endCharacter ≤ endCharacter) : survivor shift startDeltaLine startCharacter
    endDeltaLine endCharacter token = some { token with endCharacter := startCharacter } := by
  rw [survivor, deletion, if_neg (by omega), if_pos ⟨hline, hstart⟩,
    if_neg fun h => (hend h.1).not_gt h.2]

theorem survivor_within (hne : token.startCharacter < token.endCharacter)
    (hstart : startDeltaLine < token.deltaLine ∨ token.deltaLine =
    startDeltaLine ∧ startCharacter ≤ token.startCharacter) (hend : token.deltaLine <
    endDeltaLine ∨ token.deltaLine = endDeltaLine ∧ token.endCharacter ≤ endCharacter) :
    survivor shift startDeltaLine startCharacter endDeltaLine endCharacter token = none := by
  have hinside : ¬ (token.deltaLine = endDeltaLine ∧ endCharacter < token.endCharacter) := by omega
  rw [survivor, deletion, if_neg (by omega), if_neg (by omega)]
  by_cases hat : token.deltaLine = startDeltaLine ∧ token.startCharacter = startCharacter
  · rw [if_pos hat, if_neg hinside]
  · rw [if_neg hat, if_pos (by omega), if_neg hinside]

theorem survivor_reaching
    (hne : token.startCharacter < token.endCharacter) (hle : startDeltaLine ≤ endDeltaLine)
    (hcolumns : startDeltaLine = endDeltaLine → startCharacter ≤ endCharacter)
    (hline : token.deltaLine = endDeltaLine)
    (hstart : startDeltaLine < endDeltaLine ∨ startCharacter ≤ token.startCharacter)
    (hend : endCharacter < token.endCharacter) :
    survivor 0 startDeltaLine startCharacter endDeltaLine endCharacter token =
    some ⟨startDeltaLine, startCharacter + (token.startCharacter - endCharacter),
    startCharacter + (token.endCharacter - endCharacter), token.metadata⟩ := by
  rw [survivor, deletion, if_neg (by omega), if_neg (by omega)]
  by_cases hat : token.deltaLine = startDeltaLine ∧ token.startCharacter = startCharacter
  · obtain ⟨hfirst, hcharacter⟩ := hat
    have hcolumns := hcolumns (hfirst.symm.trans hline)
    rw [if_pos ⟨hfirst, hcharacter⟩, if_pos ⟨hline, hend⟩]
    simp only [Option.some.injEq, ← hfirst, SparseToken.mk.injEq, true_and, and_true]
    omega
  rw [if_neg hat]
  by_cases hbefore : token.startCharacter < endCharacter
  · rw [if_pos (.inr ⟨hline, hbefore⟩), if_pos ⟨hline, hend⟩, Nat.sub_eq_zero_of_le hbefore.le]
    rfl
  · rw [if_neg (by omega), if_neg hline.not_gt, if_pos ⟨hline, not_lt.1 hbefore⟩]
    simp only [ite_self, Option.some.injEq, SparseToken.mk.injEq, and_true]
    omega

theorem survivor_shifted (hend : endCharacter < token.endCharacter)
    (hbehind : endCharacter ≤ token.startCharacter) (hpos : 0 < token.startCharacter)
    (hline : token.deltaLine = 0) : survivor shift 0 0 0 endCharacter token =
    some ⟨0, shift + (token.startCharacter - endCharacter),
    shift + (token.endCharacter - endCharacter), token.metadata⟩ := by
  rw [survivor, deletion, if_neg (by omega), if_neg (by omega), if_neg (by omega),
    if_neg (by omega), if_neg (by omega), if_pos ⟨hline, hbehind⟩, if_pos hline]
  simp only [Option.some.injEq, SparseToken.mk.injEq, and_true]
  omega

end

section

variable {range : Range} {token : SparseToken} {n : ℕ}

theorem span_reaching (hforward : Forward range) (hne : token.startCharacter < token.endCharacter)
    (hline : n + token.deltaLine = range.endLineNumber) (hstart :
    range.startLineNumber < range.endLineNumber ∨ range.startColumn - 1 ≤ token.startCharacter)
    (hend : range.endColumn - 1 < token.endCharacter) : (token.span n).delete range = some
    ⟨range.startLineNumber, range.startColumn - 1 + (token.startCharacter - (range.endColumn - 1)),
    range.startColumn - 1 + (token.endCharacter - (range.endColumn - 1)), token.metadata⟩ :=
  delete_reaching (s := token.span n) hforward hline hstart hend hne

theorem survivor_inside (hforward : Forward range) (hn : n ≤ range.startLineNumber)
    (hne : token.startCharacter < token.endCharacter) :
    (survivor 0 (range.startLineNumber - n) (range.startColumn - 1) (range.endLineNumber - n)
      (range.endColumn - 1) token).map (span n) = (token.span n).delete range := by
  obtain ⟨hlines, hcolumns⟩ := id hforward
  obtain ⟨first, hfirst⟩ := Nat.exists_eq_add_of_le hn
  obtain ⟨last, hlast⟩ := Nat.exists_eq_add_of_le (hn.trans hlines)
  have hle : first ≤ last := by omega
  rw [hfirst, hlast, Nat.add_sub_cancel_left, Nat.add_sub_cancel_left]
  have hline : (token.span n).line = n + token.deltaLine := rfl
  rcases Nat.lt_or_ge last token.deltaLine with hbelow | habove
  · rw [survivor_below hle hbelow, delete_below (s := token.span n) hforward (by omega) hne]
    simp only [Option.map_some, span, Option.some.injEq, TokenSpan.mk.injEq, and_true]
    omega
  by_cases hfront : token.deltaLine < first ∨
      token.deltaLine = first ∧ token.endCharacter ≤ range.startColumn - 1
  · rw [survivor_front hfront]
    refine (delete_front (s := token.span n) ?_ hne).symm
    exact hfront.imp (fun h => by omega) fun h => ⟨by omega, h.2⟩
  by_cases hover : token.deltaLine = last ∧ range.endColumn - 1 < token.endCharacter
  · by_cases hcrosses : token.deltaLine = first ∧ token.startCharacter < range.startColumn - 1
    · rw [survivor_around hcrosses.1 hover.1 hcrosses.2 (by omega) hover.2,
        delete_around (s := token.span n) hforward (by omega) (by omega) hcrosses.2 hover.2]
      simp only [Option.map_some, span, Option.some.injEq, TokenSpan.mk.injEq, true_and, and_true]
      omega
    · have hstart : first < last ∨ range.startColumn - 1 ≤ token.startCharacter := by omega
      rw [survivor_reaching hne hle (by omega) hover.1 hstart hover.2,
        span_reaching hforward hne (by omega) (hstart.imp_left fun h => by omega) hover.2,
        Option.map_some, span, hfirst]
  · have hends : token.deltaLine < last ∨
        token.deltaLine = last ∧ token.endCharacter ≤ range.endColumn - 1 := by omega
    by_cases hcrosses : token.deltaLine = first ∧ token.startCharacter < range.startColumn - 1
    · rw [survivor_into hcrosses.1 hcrosses.2 (by omega) (by omega)]
      refine (delete_into (s := token.span n) (by omega) hcrosses.2 ?_ ?_).symm
      · exact (not_le.1 fun h => hfront (.inr ⟨hcrosses.1, h⟩)).le
      · have hstop : (token.span n).stop = token.endCharacter := rfl
        omega
    · have hstart : first < token.deltaLine ∨
          token.deltaLine = first ∧ range.startColumn - 1 ≤ token.startCharacter := by omega
      rw [survivor_within hne hstart hends]
      refine (delete_within (s := token.span n) ?_ ?_ hne).symm
      · exact hstart.imp (fun h => by omega) fun h => ⟨by omega, h.2⟩
      · exact hends.imp (fun h => by omega) fun h => ⟨by omega, h.2⟩

/-- The block starts below the first line of the range. A token that ends behind the range, on its
last line, gets the columns in front of the range back only where the loop looks for it. -/
theorem survivor_above
    (hforward : Forward range) (hn : range.startLineNumber < n) (hend : n ≤ range.endLineNumber)
    (hne : token.startCharacter < token.endCharacter) (hshift : range.startColumn ≤ 1 ∨
    (n + token.deltaLine = range.endLineNumber → range.endColumn - 1 < token.endCharacter →
    token.deltaLine = 0 ∧ range.endColumn - 1 ≤ token.startCharacter ∧ 0 < token.startCharacter)) :
    (survivor (range.startColumn - 1) 0 0 (range.endLineNumber - n) (range.endColumn - 1) token).map
    (span range.startLineNumber) = (token.span n).delete range := by
  obtain ⟨last, hlast⟩ := Nat.exists_eq_add_of_le hend
  rw [hlast, Nat.add_sub_cancel_left]
  have hline : (token.span n).line = n + token.deltaLine := rfl
  rcases Nat.lt_or_ge last token.deltaLine with hbelow | habove
  · rw [survivor_below (Nat.zero_le last) hbelow,
      delete_below (s := token.span n) hforward (by omega) hne]
    simp only [Option.map_some, span, Option.some.injEq, TokenSpan.mk.injEq, and_true]
    omega
  by_cases hover : token.deltaLine = last ∧ range.endColumn - 1 < token.endCharacter
  · rw [span_reaching hforward hne (by omega) (.inl (hn.trans_le hend)) hover.2]
    rcases hshift with hzero | hshift
    · rw [Nat.sub_eq_zero_of_le hzero, survivor_reaching hne (Nat.zero_le last)
        (fun _ => Nat.zero_le _) hover.1 (.inr (Nat.zero_le _)) hover.2, Option.map_some,
        span, Nat.add_zero]
    · obtain ⟨hdelta, hbehind, hpos⟩ := hshift (by omega) hover.2
      rw [← hover.1, hdelta, survivor_shifted hover.2 hbehind hpos hdelta, Option.map_some,
        span, Nat.add_zero]
  · have hends : token.deltaLine < last ∨
        token.deltaLine = last ∧ token.endCharacter ≤ range.endColumn - 1 := by omega
    rw [survivor_within hne (by omega) hends]
    refine (delete_within (s := token.span n) (.inl (by omega)) ?_ hne).symm
    exact hends.imp (fun h => by omega) fun h => ⟨by omega, h.2⟩

theorem insertion_span {position : Position} (hn : n ≤ position.lineNumber) (hne :
    token.startCharacter < token.endCharacter) (eolCount firstLineLength lastLineLength : ℕ)
    {isWordCharacter : Bool} {growth : ℕ} (hgrowth : growth = if isWordCharacter then 1 else 0)
    (hgrows : isWordCharacter = true → ¬ (n + token.deltaLine = position.lineNumber ∧
    token.startCharacter = position.column - 1)) : (insertion (position.lineNumber - n)
    (position.column - 1) eolCount firstLineLength lastLineLength isWordCharacter token).span n =
    (token.span n).insert position eolCount firstLineLength lastLineLength growth := by
  have hline : (token.span n).line = n + token.deltaLine := rfl
  have hstart : (token.span n).start = token.startCharacter := rfl
  have hstop : (token.span n).stop = token.endCharacter := rfl
  have hne' : (token.span n).Nonempty := hne
  simp only [insertion]
  split_ifs with h1 h2 h3 h4 h5 h6 h7 h8
  · rcases h1 with h1 | h1
    · exact (insert_above (s := token.span n) (by omega)).symm
    · exact (insert_front (s := token.span n) (by omega) (by omega)).symm
  · rw [insert_touching (s := token.span n) (by omega) (by omega), hgrowth, if_pos h3]
    rfl
  · rw [insert_touching (s := token.span n) (by omega) (by omega), hgrowth, if_neg h3]
    rfl
  · rw [insert_around (s := token.span n) (by omega) (by omega) (by omega), if_pos h5]
    rfl
  · rw [insert_around (s := token.span n) (by omega) (by omega) (by omega), if_neg h5]
    rfl
  · exact absurd ⟨by omega, h6.2.1⟩ (hgrows h6.2.2)
  · rw [insert_behind (s := token.span n) (by omega) (by omega) hne', if_pos h8]
    rfl
  · rw [insert_behind (s := token.span n) (by omega) (by omega) hne', if_neg h8]
    simp only [span, TokenSpan.mk.injEq, true_and, and_true]
    omega
  · rw [insert_below (s := token.span n) (by omega)]
    simp only [span, TokenSpan.mk.injEq, and_true]
    omega

end

theorem le_getMaxDeltaLine (hsorted : tokens.Pairwise (·.deltaLine ≤ ·.deltaLine)) :
    ∀ token ∈ tokens, (token.deltaLine : ℤ) ≤ getMaxDeltaLine tokens := by
  intro token htoken
  rcases List.eq_nil_or_concat' tokens with rfl | ⟨front, last, rfl⟩
  · cases htoken
  · rw [getMaxDeltaLine, List.getLast?_concat]
    rcases List.mem_append.1 htoken with hfront | hlast
    · exact Int.ofNat_le.2 ((List.pairwise_append.1 hsorted).2.2 token hfront last
        List.mem_cons_self)
    · rw [List.mem_singleton.1 hlast]

end SparseMultilineTokensStorage

end CodeOss
