import CodeOss.Tokens.SparseRemoval
import CodeOss.Tokens.SparseTokensStore

/-! Setting the tokens of a range: those that touch it make room for the new ones. -/

namespace CodeOss

open List List

namespace SparseTokensStore

open TokenSpan SparseMultilineTokensStorage

variable {range : Range}

def spans (pieces : List SparseMultilineTokens) : List TokenSpan :=
  pieces.flatMap SparseMultilineTokens.spans

@[simp] theorem spans_nil : spans [] = [] := rfl

@[simp] theorem spans_cons (piece : SparseMultilineTokens) (pieces : List SparseMultilineTokens) :
    spans (piece :: pieces) = piece.spans ++ spans pieces := flatMap_cons

@[simp] theorem spans_append (pieces others : List SparseMultilineTokens) :
    spans (pieces ++ others) = spans pieces ++ spans others := flatMap_append

/-- The pieces have tokens, are sorted by position and disjoint. -/
structure PiecesTidy (pieces : List SparseMultilineTokens) : Prop where
  nonempty : ∀ piece ∈ pieces, piece.tokens ≠ []
  tidy : Tidy (spans pieces)

theorem isEmpty_iff {piece : SparseMultilineTokens} : piece.isEmpty = true ↔ piece.spans = [] := by
  rw [SparseMultilineTokens.isEmpty, List.isEmpty_iff, SparseMultilineTokens.spans, map_eq_nil_iff]

theorem spans_ne_nil {piece : SparseMultilineTokens} (h : piece.tokens ≠ []) :
    piece.spans ≠ [] := mt map_eq_nil_iff.1 h

variable {piece : SparseMultilineTokens}

theorem line_le_endLineNumber (htidy : Tidy piece.spans) :
    ∀ s ∈ piece.spans, (s.line : ℤ) ≤ piece.endLineNumber := by
  intro s hs
  obtain ⟨token, htoken, rfl⟩ := mem_map.1 hs
  have hle := le_getMaxDeltaLine (SparseMultilineTokens.sorted_of_tidy htidy) token htoken
  rw [SparseMultilineTokens.endLineNumber, SparseToken.span]
  push_cast
  omega

theorem startLineNumber_le_line : ∀ s ∈ piece.spans, piece.startLineNumber ≤ s.line := by
  intro s hs
  obtain ⟨token, htoken, rfl⟩ := mem_map.1 hs
  exact Nat.le_add_right _ _

theorem inFront_of_endLineNumber (htidy : Tidy piece.spans)
    (h : piece.endLineNumber < range.startLineNumber) : ∀ s ∈ piece.spans, s.InFront range := by
  intro s hs
  have hle := line_le_endLineNumber htidy s hs
  exact .inl (by omega)

theorem behind_of_startLineNumber (h : range.endLineNumber < piece.startLineNumber) :
    ∀ s ∈ piece.spans, s.Behind range :=
  fun s hs => .inl (h.trans_le (startLineNumber_le_line s hs))

/-- The pieces that are done hold the tokens `front` up to the position for new ones, and the
tokens `behind` from there. -/
structure Settled (done : List SparseMultilineTokens) (insertPosition : Option ℕ)
    (front behind : List TokenSpan) : Prop where
  nonempty : ∀ piece ∈ done, piece.tokens ≠ []
  le : insertPosition.getD done.length ≤ done.length
  front : spans (done.take (insertPosition.getD done.length)) = front
  behind : spans (done.drop (insertPosition.getD done.length)) = behind

section

variable {done pieces : List SparseMultilineTokens} {insertPosition : Option ℕ}
  {front behind : List TokenSpan}

theorem forall_mem_concat {p : SparseMultilineTokens → Prop} (h : ∀ piece ∈ done, p piece)
    (h' : ∀ piece ∈ pieces, p piece) : ∀ piece ∈ done ++ pieces, p piece := by
  intro piece hpiece
  exact (List.mem_append.1 hpiece).elim (h piece) (h' piece)

theorem Settled.pushFront (h : Settled done none front behind) (hne : piece.tokens ≠ []) :
    Settled (done ++ [piece]) none (front ++ piece.spans) behind := by
  obtain ⟨hnonempty, -, hfront, hbehind⟩ := h
  rw [Option.getD_none, take_length] at hfront
  rw [Option.getD_none, drop_length] at hbehind
  refine ⟨forall_mem_concat hnonempty (by simpa using hne), le_rfl, ?_, ?_⟩
  · rw [Option.getD_none, take_length, spans_append, hfront, spans_cons, spans_nil, append_nil]
  · rwa [Option.getD_none, drop_length]

theorem Settled.pushBehind (h : Settled done insertPosition front behind)
    (hne : ∀ piece ∈ pieces, piece.tokens ≠ []) : Settled
    (done ++ pieces) (some (insertPosition.getD done.length)) front (behind ++ spans pieces) := by
  obtain ⟨hnonempty, hle, hfront, hbehind⟩ := h
  refine ⟨forall_mem_concat hnonempty hne, ?_, ?_, ?_⟩
  · rw [Option.getD_some, length_append]
    exact hle.trans (Nat.le_add_right _ _)
  · rw [Option.getD_some, take_append_of_le_length hle, hfront]
  · rw [Option.getD_some, drop_append_of_le_length hle, spans_append, hbehind]

end

section

variable {others : List TokenSpan}

variable {spans : List TokenSpan}

theorem filter_behind_of_inFront (hforward : Forward range) (hne : ∀ s ∈ spans, s.Nonempty)
    (h : ∀ s ∈ spans, s.InFront range) :
    spans.filter (InFront range) = spans ∧ spans.filter (Behind range) = [] := by
  refine ⟨filter_eq_self.2 fun s hs => decide_eq_true (h s hs), filter_eq_nil_iff.2 fun s hs => ?_⟩
  rw [decide_eq_true_eq]
  exact (h s hs).not_behind hforward (hne s hs)

theorem filter_inFront_of_behind (hforward : Forward range) (hne : ∀ s ∈ spans, s.Nonempty)
    (h : ∀ s ∈ spans, s.Behind range) :
    spans.filter (InFront range) = [] ∧ spans.filter (Behind range) = spans := by
  refine ⟨filter_eq_nil_iff.2 fun s hs => ?_, filter_eq_self.2 fun s hs => decide_eq_true (h s hs)⟩
  rw [decide_eq_true_eq]
  exact fun hfront => hfront.not_behind hforward (hne s hs) (h s hs)

theorem behind_of_tidy (htidy : Tidy (spans ++ others)) {s : TokenSpan} (hs : s ∈ spans)
    (h : s.Behind range) : ∀ t ∈ others, t.Behind range :=
  fun t ht => h.of_before ((pairwise_append.1 htidy.sorted).2.2 s hs t ht)
    (htidy.nonempty s (mem_append_left _ hs))

theorem filter_touches (p : TokenSpan → Prop) [DecidablePred p]
    (h : ∀ s ∈ spans, p s → ¬ s.Touches range) :
    (spans.filter fun s => ¬ s.Touches range).filter p = spans.filter p := by
  rw [filter_filter]
  refine filter_congr fun s hs => ?_
  rw [Bool.and_eq_left_iff_imp]
  intro hp
  exact decide_eq_true (h s hs (of_decide_eq_true hp))

end

section

variable {done rest : List SparseMultilineTokens} {insertPosition : Option ℕ}
  {front behind others : List TokenSpan} {piece left : SparseMultilineTokens}

theorem removeTokens_filter (htidy : Tidy piece.spans) : (piece.removeTokens range).spans =
    piece.spans.filter (fun s => ¬ s.Touches range) ∧ Tidy (piece.removeTokens range).spans ∧
    (piece.removeTokens range).spans.filter (InFront range) = piece.spans.filter (InFront range) ∧
    (piece.removeTokens range).spans.filter (Behind range) = piece.spans.filter (Behind range) := by
  have hspans := @SparseMultilineTokens.removeTokens_spans piece range htidy
  rw [hspans]
  refine ⟨rfl, Tidy.filter htidy _, filter_touches _ fun s _ hfront htouches => htouches.1 hfront,
    filter_touches _ fun s _ hbehind htouches => htouches.2 hbehind⟩

variable {spans : List TokenSpan}

theorem filter_behind_eq_self {kept : List TokenSpan}
    (hkept : kept = spans.filter fun s => ¬ s.Touches range)
    (hnone : kept.filter (InFront range) = []) : kept.filter (Behind range) = kept := by
  refine filter_eq_self.2 fun s hs => ?_
  have hnot : ¬ s.InFront range := by simpa using filter_eq_nil_iff.1 hnone s hs
  have htouches : ¬ s.Touches range := by
    rw [hkept] at hs
    exact of_decide_eq_true (mem_filter.1 hs).2
  exact decide_eq_true (by_contra fun hbehind => htouches ⟨hnot, hbehind⟩)

theorem filter_inFront_eq_self {kept : List TokenSpan}
    (hkept : kept = spans.filter fun s => ¬ s.Touches range)
    (hnone : kept.filter (Behind range) = []) : kept.filter (InFront range) = kept := by
  refine filter_eq_self.2 fun s hs => ?_
  have hnot : ¬ s.Behind range := by simpa using filter_eq_nil_iff.1 hnone s hs
  have htouches : ¬ s.Touches range := by
    rw [hkept] at hs
    exact of_decide_eq_true (mem_filter.1 hs).2
  exact decide_eq_true (by_contra fun hfront => htouches ⟨hfront, hnot⟩)

theorem Settled.settleFront (h : Settled done insertPosition front behind)
    (hne : left.tokens ≠ []) (hleft : piece.spans.filter (InFront range) = left.spans)
    (hnone : piece.spans.filter (Behind range) = [])
    (hfront : insertPosition ≠ none → (piece.spans ++ others).filter (InFront range) = []) :
    Settled (done ++ [left]) insertPosition (front ++ piece.spans.filter (InFront range))
    (behind ++ piece.spans.filter (Behind range)) ∧ insertPosition = none := by
  have hins : insertPosition = none := by
    by_contra hsome
    have hempty := hfront hsome
    rw [filter_append, hleft, append_eq_nil_iff] at hempty
    exact spans_ne_nil hne hempty.1
  subst hins
  rw [hleft, hnone, append_nil]
  exact ⟨h.pushFront hne, rfl⟩

theorem Settled.settleBehind (h : Settled done insertPosition front behind) (hne : left.tokens ≠ [])
    (hnone : piece.spans.filter (InFront range) = []) (hleft : piece.spans.filter (Behind range) =
    left.spans) : Settled (done ++ [left]) (some (insertPosition.getD done.length)) (front ++
    piece.spans.filter (InFront range)) (behind ++ piece.spans.filter (Behind range)) := by
  have hpush := h.pushBehind (forall_mem_singleton.2 hne)
  rw [hnone, hleft, append_nil]
  rwa [spans_cons, spans_nil, append_nil] at hpush

theorem filter_inFront_rest (hforward : Forward range) (htidy : Tidy (spans ++ others))
    (hne : spans.filter (Behind range) ≠ []) : others.filter (InFront range) = [] := by
  obtain ⟨s, hs⟩ := exists_mem_of_ne_nil _ hne
  obtain ⟨hmem, hbehind⟩ := mem_filter.1 hs
  exact (filter_inFront_of_behind hforward (Tidy.right htidy).nonempty
    (behind_of_tidy htidy hmem (of_decide_eq_true hbehind))).1

end

theorem setPartialLoop_spec (hforward : Forward range) {pieces : List SparseMultilineTokens} : ∀
    {done : List SparseMultilineTokens} {insertPosition : Option ℕ} {front behind : List TokenSpan},
    PiecesTidy pieces → Settled done insertPosition front behind → (insertPosition ≠ none →
    (spans pieces).filter (InFront range) = []) → Settled (setPartialLoop range
    done insertPosition pieces).1 (setPartialLoop range done insertPosition pieces).2 (front ++
    (spans pieces).filter (InFront range)) (behind ++ (spans pieces).filter (Behind range)) := by
  induction pieces with
  | nil =>
    intro done insertPosition front behind _ hsettled _
    rw [setPartialLoop, spans_nil, filter_nil, filter_nil, append_nil, append_nil]
    exact hsettled
  | cons piece rest ih =>
    intro done insertPosition front behind hpieces hsettled hfront
    obtain ⟨hne, hrest⟩ := forall_mem_cons.1 hpieces.nonempty
    have htidy : Tidy (piece.spans ++ spans rest) := hpieces.tidy
    have hpiece := Tidy.left htidy
    have hothers : PiecesTidy rest := ⟨hrest, Tidy.right htidy⟩
    rw [spans_cons] at hfront
    rw [spans_cons, filter_append, filter_append, ← append_assoc, ← append_assoc, setPartialLoop]
    by_cases hbefore : piece.endLineNumber < range.startLineNumber
    · rw [if_pos hbefore]
      obtain ⟨hleft, hnone⟩ := filter_behind_of_inFront hforward hpiece.nonempty
        (inFront_of_endLineNumber hpiece hbefore)
      obtain ⟨hsettled', hins⟩ := hsettled.settleFront hne hleft hnone hfront
      exact ih hothers hsettled' fun hsome => absurd hins hsome
    rw [if_neg hbefore]
    by_cases hbehind : range.endLineNumber < piece.startLineNumber
    · rw [if_pos hbehind]
      have hall := behind_of_startLineNumber hbehind
      obtain ⟨hnone, hleft⟩ := filter_inFront_of_behind hforward hpiece.nonempty hall
      obtain ⟨s, hs⟩ := exists_mem_of_ne_nil _ (spans_ne_nil hne)
      obtain ⟨hnone', hleft'⟩ := filter_inFront_of_behind hforward hothers.tidy.nonempty
        (behind_of_tidy htidy hs (hall s hs))
      rw [hnone, hleft, hnone', hleft', append_nil, append_nil, append_assoc]
      exact hsettled.pushBehind hpieces.nonempty
    rw [if_neg hbehind]
    obtain ⟨hspans, hleftTidy, hfilterFront, hfilterBehind⟩ :=
      @removeTokens_filter range piece hpiece
    simp only
    set left := piece.removeTokens range with hleftDef
    by_cases hempty : left.isEmpty = true
    · rw [if_pos hempty]
      rw [isEmpty_iff] at hempty
      rw [← hfilterFront, ← hfilterBehind, hempty, filter_nil, filter_nil, append_nil, append_nil]
      refine ih hothers hsettled fun hsome => ?_
      exact (append_eq_nil_iff.1 (filter_append _ _ ▸ hfront hsome)).2
    rw [if_neg hempty]
    have hleftNe : left.tokens ≠ [] := fun hnil => hempty (List.isEmpty_iff.2 hnil)
    by_cases hbefore' : left.endLineNumber < range.startLineNumber
    · rw [if_pos hbefore']
      obtain ⟨hleft, hnone⟩ := filter_behind_of_inFront hforward hleftTidy.nonempty
        (inFront_of_endLineNumber hleftTidy hbefore')
      obtain ⟨hsettled', hins⟩ := hsettled.settleFront hleftNe (hfilterFront.symm.trans hleft)
        (hfilterBehind.symm.trans hnone) hfront
      exact ih hothers hsettled' fun hsome => absurd hins hsome
    rw [if_neg hbefore']
    by_cases hbehind' : range.endLineNumber < left.startLineNumber
    · rw [if_pos hbehind']
      obtain ⟨hnone, hleft⟩ := filter_inFront_of_behind hforward hleftTidy.nonempty
        (behind_of_startLineNumber hbehind')
      refine ih hothers (hsettled.settleBehind hleftNe (hfilterFront.symm.trans hnone)
        (hfilterBehind.symm.trans hleft)) fun _ => filter_inFront_rest hforward htidy ?_
      rw [← hfilterBehind, hleft]
      exact spans_ne_nil hleftNe
    rw [if_neg hbehind']
    obtain ⟨hfst, hsnd⟩ := SparseMultilineTokens.split_spans hforward hleftTidy
    generalize left.split range = halves at hfst hsnd ⊢
    obtain ⟨a, b⟩ := halves
    simp only at hfst hsnd ⊢
    by_cases ha : a.isEmpty = true
    · rw [if_pos ha]
      rw [isEmpty_iff, hfst] at ha
      have hleft := filter_behind_eq_self hspans ha
      refine ih hothers (hsettled.settleBehind hleftNe (hfilterFront.symm.trans ha)
        (hfilterBehind.symm.trans hleft)) fun _ => filter_inFront_rest hforward htidy ?_
      rw [← hfilterBehind, hleft]
      exact spans_ne_nil hleftNe
    rw [if_neg ha]
    by_cases hb : b.isEmpty = true
    · rw [if_pos hb]
      rw [isEmpty_iff, hsnd] at hb
      have hleft := filter_inFront_eq_self hspans hb
      obtain ⟨hsettled', hins⟩ := hsettled.settleFront hleftNe (hfilterFront.symm.trans hleft)
        (hfilterBehind.symm.trans hb) hfront
      exact ih hothers hsettled' fun hsome => absurd hins hsome
    rw [if_neg hb]
    have haNe : a.tokens ≠ [] := fun hnil => ha (List.isEmpty_iff.2 hnil)
    have hbNe : b.tokens ≠ [] := fun hnil => hb (List.isEmpty_iff.2 hnil)
    have hins : insertPosition = none := by
      by_contra hsome
      have hnone := (append_eq_nil_iff.1 (filter_append _ _ ▸ hfront hsome)).1
      rw [← hfilterFront, ← hfst] at hnone
      exact spans_ne_nil haNe hnone
    subst hins
    have hpush := (hsettled.pushFront haNe).pushBehind (forall_mem_singleton.2 hbNe)
    rw [append_assoc, spans_cons, spans_nil, append_nil, Option.getD_none,
      length_append, hfst, hsnd, hfilterFront, hfilterBehind] at hpush
    refine ih hothers hpush fun _ => filter_inFront_rest hforward htidy ?_
    rw [← hfilterBehind, ← hsnd]
    exact spans_ne_nil hbNe

theorem setPartialLoop_pieces (hforward : Forward range) {store : SparseTokensStore}
    (hstore : PiecesTidy store) : ∃ front behind, (setPartialLoop range [] none store).1.take
    ((setPartialLoop range [] none store).2.getD (setPartialLoop range [] none store).1.length) =
    front ∧ (setPartialLoop range [] none store).1.drop
    ((setPartialLoop range [] none store).2.getD (setPartialLoop range [] none store).1.length) =
    behind ∧ (∀ piece ∈ front ++ behind, piece.tokens ≠ []) ∧ spans front =
    (spans store).filter (InFront range) ∧ spans behind = (spans store).filter (Behind range) := by
  have hspec := @setPartialLoop_spec range hforward store [] none [] [] hstore
    ⟨fun piece hpiece => absurd hpiece not_mem_nil, le_rfl, rfl, rfl⟩
    (fun hsome => absurd rfl hsome)
  refine ⟨_, _, rfl, rfl, ?_, ?_, ?_⟩
  · rw [take_append_drop]
    exact hspec.nonempty
  · exact hspec.front
  · exact hspec.behind

/-- The range begins where the span does, or before. -/
def StartsAt (range : Range) (s : TokenSpan) : Prop :=
  range.startLineNumber < s.line ∨
    range.startLineNumber = s.line ∧ range.startColumn - 1 ≤ s.start

def EndsAt (range : Range) (s : TokenSpan) : Prop :=
  s.line < range.endLineNumber ∨ s.line = range.endLineNumber ∧ s.stop ≤ range.endColumn - 1

variable {pieces : List SparseMultilineTokens} {other : Range} {s t : TokenSpan}

theorem forward_plusRange (hforward : Forward range) : Forward (range.plusRange other) := by
  obtain ⟨hlines, hcolumns⟩ := hforward
  constructor <;> simp only [Range.plusRange] <;> split_ifs <;> omega

theorem StartsAt.plusRange (h : StartsAt range s ∨ StartsAt other s) :
    StartsAt (range.plusRange other) s := by
  simp only [StartsAt, Range.plusRange] at *
  split_ifs <;> omega

theorem EndsAt.plusRange (h : EndsAt range s ∨ EndsAt other s) :
    EndsAt (range.plusRange other) s := by
  simp only [EndsAt, Range.plusRange] at *
  split_ifs <;> omega

theorem startsAt_of_before (h : StartsAt range s) (hbefore : s.Before t) (hne : s.Nonempty) :
    StartsAt range t := by
  simp only [StartsAt, Before, TokenSpan.Nonempty] at *
  omega

theorem endsAt_of_before (h : EndsAt range t) (hbefore : s.Before t) (hne : t.Nonempty) :
    EndsAt range s := by
  simp only [EndsAt, Before, TokenSpan.Nonempty] at *
  omega

theorem before_of_inFront (h : s.InFront range) (h' : StartsAt range t) : s.Before t := by
  simp only [InFront, StartsAt, Before] at *
  omega

theorem before_of_behind (h : EndsAt range s) (h' : t.Behind range) : s.Before t := by
  simp only [EndsAt, Behind, Before] at *
  omega

theorem before_of_inFront_of_behind (hforward : Forward range) (h : s.InFront range)
    (h' : t.Behind range) : s.Before t := by
  obtain ⟨hlines, hcolumns⟩ := hforward
  simp only [InFront, Behind, Before] at *
  omega

theorem getRange_eq (hne : piece.tokens ≠ []) : ∃ first last, piece.tokens.head? = some first ∧
    piece.tokens.getLast? = some last ∧ piece.getRange = some ⟨piece.startLineNumber,
    first.startCharacter + 1, piece.startLineNumber + last.deltaLine, last.endCharacter + 1⟩ := by
  obtain ⟨first, hfirst⟩ := Option.isSome_iff_exists.1 (isSome_head?.2 hne)
  obtain ⟨init, last, hconcat⟩ := (eq_nil_or_concat' piece.tokens).resolve_left hne
  have hlast : piece.tokens.getLast? = some last := by rw [hconcat, getLast?_concat]
  refine ⟨first, last, hfirst, hlast, ?_⟩
  rw [SparseMultilineTokens.getRange, SparseMultilineTokensStorage.getRange, hfirst, hlast]
  rfl

theorem exists_getRange (hne : piece.tokens ≠ []) : ∃ range, piece.getRange = some range := by
  obtain ⟨first, last, -, -, hrange⟩ := getRange_eq hne
  exact ⟨_, hrange⟩

theorem startsAt_getRange (htidy : PiecesTidy pieces) (hhead : pieces.head? = some piece)
    (hrange : piece.getRange = some range) : ∀ s ∈ spans pieces, StartsAt range s := by
  obtain ⟨rest, rfl⟩ := head?_eq_some_iff.1 hhead
  obtain ⟨first, last, hfirst, -, heq⟩ := getRange_eq (htidy.nonempty piece mem_cons_self)
  obtain ⟨tokens, htokens⟩ := head?_eq_some_iff.1 hfirst
  obtain rfl := Option.some.inj (hrange.symm.trans heq)
  have hstarts : StartsAt ⟨piece.startLineNumber, first.startCharacter + 1,
      piece.startLineNumber + last.deltaLine, last.endCharacter + 1⟩
      (first.span piece.startLineNumber) := by
    rw [StartsAt]
    simp only [SparseToken.span]
    omega
  have hspans : spans (piece :: rest) = first.span piece.startLineNumber ::
      (tokens.map (SparseToken.span piece.startLineNumber) ++ spans rest) := by
    rw [spans_cons, SparseMultilineTokens.spans, htokens]
    rfl
  have htidy' := htidy.tidy
  rw [hspans] at htidy' ⊢
  refine forall_mem_cons.2 ⟨hstarts, fun t ht => ?_⟩
  exact startsAt_of_before hstarts ((pairwise_cons.1 htidy'.sorted).1 t ht)
    (htidy'.nonempty _ mem_cons_self)

theorem endsAt_getRange (htidy : PiecesTidy pieces) (hlast : pieces.getLast? = some piece)
    (hrange : piece.getRange = some range) : ∀ s ∈ spans pieces, EndsAt range s := by
  obtain ⟨init, rfl⟩ := getLast?_eq_some_iff.1 hlast
  obtain ⟨first, last, -, hend, heq⟩ := getRange_eq
    (htidy.nonempty piece (mem_append_right _ mem_cons_self))
  obtain ⟨tokens, htokens⟩ := getLast?_eq_some_iff.1 hend
  obtain rfl := Option.some.inj (hrange.symm.trans heq)
  have hends : EndsAt ⟨piece.startLineNumber, first.startCharacter + 1,
      piece.startLineNumber + last.deltaLine, last.endCharacter + 1⟩
      (last.span piece.startLineNumber) := by
    exact .inr ⟨rfl, le_rfl⟩
  have hspans : spans (init ++ [piece]) = (spans init ++
      tokens.map (SparseToken.span piece.startLineNumber)) ++
        [last.span piece.startLineNumber] := by
    rw [spans_append, spans_cons, spans_nil, append_nil, SparseMultilineTokens.spans, htokens,
      map_append, append_assoc]
    rfl
  have htidy' := htidy.tidy
  rw [hspans] at htidy' ⊢
  intro s hs
  rcases List.mem_append.1 hs with hs' | hs'
  · exact endsAt_of_before hends ((pairwise_append.1 htidy'.sorted).2.2 s hs' _
      mem_cons_self) (htidy'.nonempty _ (mem_append_right _ mem_cons_self))
  · rwa [mem_singleton.1 hs']

theorem extendRange_spec (hforward : Forward range) (hpieces : PiecesTidy pieces) :
    ∃ extended, extendRange range pieces = some extended ∧
      Forward extended ∧ ∀ s ∈ spans pieces, StartsAt extended s ∧ EndsAt extended s := by
  rcases eq_nil_or_concat' pieces with rfl | ⟨init, last, hconcat⟩
  · exact ⟨range, rfl, hforward, fun s hs => absurd hs not_mem_nil⟩
  obtain ⟨first, rest, hcons⟩ := exists_cons_of_ne_nil
    (show pieces ≠ [] by rw [hconcat]; simp)
  have hhead : pieces.head? = some first := by rw [hcons]; rfl
  have hlast : pieces.getLast? = some last := by rw [hconcat, getLast?_concat]
  obtain ⟨firstRange, hfirstRange⟩ :=
    exists_getRange (hpieces.nonempty first (mem_of_head? hhead))
  obtain ⟨lastRange, hlastRange⟩ :=
    exists_getRange (hpieces.nonempty last (mem_of_getLast? hlast))
  refine ⟨(range.plusRange firstRange).plusRange lastRange,
    by rw [extendRange, hhead, hlast]; simp only [hfirstRange, hlastRange],
    forward_plusRange (forward_plusRange hforward), fun s hs => ⟨?_, ?_⟩⟩
  · exact StartsAt.plusRange (.inl (StartsAt.plusRange
      (.inr (startsAt_getRange hpieces hhead hfirstRange s hs))))
  · exact EndsAt.plusRange (.inr (endsAt_getRange hpieces hlast hlastRange s hs))

theorem setPartial_spec (hforward : Forward range) {store : SparseTokensStore}
    (hstore : PiecesTidy store) (hpieces : PiecesTidy pieces) : ∃ extended,
    extendRange range pieces = some extended ∧ (setPartial store range pieces).2 = extended ∧
    PiecesTidy (setPartial store range pieces).1 ∧ spans (setPartial store range pieces).1 = (spans
    store).filter (InFront extended) ++ spans pieces ++ (spans store).filter (Behind extended) := by
  obtain ⟨extended, hextended, hforward', hinside⟩ := extendRange_spec hforward hpieces
  obtain ⟨front, behind, hfront, hbehind, hne, hfrontSpans, hbehindSpans⟩ :=
    setPartialLoop_pieces hforward' hstore
  have hset : setPartial store range pieces = (front ++ pieces ++ behind, extended) := by
    rw [setPartial, hextended]
    simp only [hfront, hbehind]
  have hspans : spans (front ++ pieces ++ behind) = (spans store).filter (InFront extended) ++
      spans pieces ++ (spans store).filter (Behind extended) := by
    rw [spans_append, spans_append, hfrontSpans, hbehindSpans]
  rw [hset]
  refine ⟨extended, hextended, rfl, ⟨?_, hspans ▸ ?_⟩, hspans⟩
  · intro piece hpiece
    rcases List.mem_append.1 hpiece with hpiece | hpiece
    · rcases List.mem_append.1 hpiece with hpiece | hpiece
      · exact hne piece (mem_append_left _ hpiece)
      · exact hpieces.nonempty piece hpiece
    · exact hne piece (mem_append_right _ hpiece)
  · have hstoreFront := Tidy.filter hstore.tidy fun s => decide (InFront extended s)
    have hstoreBehind := Tidy.filter hstore.tidy fun s => decide (Behind extended s)
    refine (hstoreFront.append hpieces.tidy ?_).append hstoreBehind ?_
    · intro s hs t ht
      exact before_of_inFront (of_decide_eq_true (mem_filter.1 hs).2) (hinside t ht).1
    · intro s hs t ht
      have hbehindT : t.Behind extended := of_decide_eq_true (mem_filter.1 ht).2
      rcases List.mem_append.1 hs with hs | hs
      · exact before_of_inFront_of_behind hforward' (of_decide_eq_true (mem_filter.1 hs).2)
          hbehindT
      · exact before_of_behind (hinside s hs).2 hbehindT

end SparseTokensStore

end CodeOss
