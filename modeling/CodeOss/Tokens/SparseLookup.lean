import CodeOss.Tokens.SparseSetPartial

/-! Looking up the tokens of a line: in a block, and the block among the pieces. -/

namespace CodeOss

open List

namespace SparseMultilineTokensStorage

variable {tokens : List SparseToken} {deltaLine : ℕ}

theorem getDeltaLine_le (hsorted : tokens.Pairwise (·.deltaLine ≤ ·.deltaLine)) {i j : ℕ}
    (hij : i ≤ j) (hj : j < tokens.length) : getDeltaLine tokens i ≤ getDeltaLine tokens j := by
  have hi := hij.trans_lt hj
  rw [getDeltaLine, getDeltaLine, getD_eq_getElem _ _ (by simpa using hi),
    getD_eq_getElem _ _ (by simpa using hj), getElem_map, getElem_map]
  rcases hij.eq_or_lt with rfl | hlt
  · exact le_rfl
  · exact pairwise_iff_getElem.1 hsorted i j hi hj hlt

theorem getDeltaLine_of_getElem? {i : ℕ} {token : SparseToken} (h : tokens[i]? = some token) :
    getDeltaLine tokens i = token.deltaLine := by
  rw [getDeltaLine, getD_eq_getElem?_getD, getElem?_map, h]
  rfl

/-- The tokens of the line are those from `first` up to `stop`. -/
structure LineRun (tokens : List SparseToken) (deltaLine first stop : ℕ) : Prop where
  le : first ≤ stop
  fits : stop ≤ tokens.length
  above : ∀ i, i < first → getDeltaLine tokens i < deltaLine
  on : ∀ i, first ≤ i → i < stop → getDeltaLine tokens i = deltaLine
  below : ∀ i, stop ≤ i → i < tokens.length → deltaLine < getDeltaLine tokens i

theorem LineRun.filter_eq {first stop : ℕ} (h : LineRun tokens deltaLine first stop) :
    tokens.filter (·.deltaLine = deltaLine) = (tokens.drop first).take (stop - first) := by
  have hsplit : tokens = tokens.take first ++ (tokens.drop first).take (stop - first) ++
      tokens.drop stop := by
    have hdrop : tokens.drop stop = (tokens.drop first).drop (stop - first) := by
      rw [List.drop_drop, Nat.add_sub_cancel' h.le]
    rw [hdrop, append_assoc, take_append_drop, take_append_drop]
  have habove : (tokens.take first).filter (·.deltaLine = deltaLine) = [] := by
    refine filter_eq_nil_iff.2 fun token htoken => ?_
    obtain ⟨i, hi⟩ := mem_iff_getElem?.1 htoken
    rw [getElem?_take] at hi
    split_ifs at hi with hlt
    have := h.above i hlt
    rw [getDeltaLine_of_getElem? hi] at this
    simpa using this.ne
  have hon : ((tokens.drop first).take (stop - first)).filter (·.deltaLine = deltaLine) =
      (tokens.drop first).take (stop - first) := by
    refine filter_eq_self.2 fun token htoken => ?_
    obtain ⟨i, hi⟩ := mem_iff_getElem?.1 htoken
    rw [getElem?_take] at hi
    split_ifs at hi with hlt
    rw [getElem?_drop] at hi
    have := h.on (first + i) (by omega) (by omega)
    rw [getDeltaLine_of_getElem? hi] at this
    simpa using this
  have hbelow : (tokens.drop stop).filter (·.deltaLine = deltaLine) = [] := by
    refine filter_eq_nil_iff.2 fun token htoken => ?_
    obtain ⟨i, hi⟩ := mem_iff_getElem?.1 htoken
    rw [getElem?_drop] at hi
    obtain ⟨hlt, -⟩ := List.getElem?_eq_some_iff.1 hi
    have := h.below (stop + i) (by omega) hlt
    rw [getDeltaLine_of_getElem? hi] at this
    simpa using this.ne'
  conv_lhs => rw [hsplit]
  rw [filter_append, filter_append, habove, hon, hbelow, nil_append, append_nil]

variable (hsorted : tokens.Pairwise (·.deltaLine ≤ ·.deltaLine))
include hsorted

theorem firstOfLine_spec
    {low mid : ℕ} (hmid : getDeltaLine tokens mid = deltaLine) (hlow : low ≤ mid)
    (hlt : mid < tokens.length) (habove : ∀ i, i < low → getDeltaLine tokens i < deltaLine) :
    firstOfLine tokens deltaLine low mid ≤ mid ∧
    (∀ i, i < firstOfLine tokens deltaLine low mid → getDeltaLine tokens i < deltaLine) ∧ ∀ i,
    firstOfLine tokens deltaLine low mid ≤ i → i ≤ mid → getDeltaLine tokens i = deltaLine := by
  induction mid with
  | zero =>
    refine ⟨le_rfl, fun i hi => absurd hi (Nat.not_lt_zero i), fun i _ hi => ?_⟩
    rwa [Nat.le_zero.1 hi]
  | succ mid ih =>
    rw [firstOfLine]
    split_ifs with hgoes
    · obtain ⟨hle, hless, hon⟩ := ih hgoes.2 (by omega) (by omega)
      refine ⟨hle.trans (Nat.le_succ mid), hless, fun i hi hi' => ?_⟩
      rcases hi'.eq_or_lt with rfl | hi'
      · exact hmid
      · exact hon i hi (Nat.le_of_lt_succ hi')
    · refine ⟨le_rfl, fun i hi => ?_, fun i hi hi' => ?_⟩
      · rcases Nat.lt_or_ge i low with hlt' | hge
        · exact habove i hlt'
        · have hle := getDeltaLine_le hsorted (Nat.le_of_lt_succ hi) (by omega)
          have hle' := getDeltaLine_le hsorted (Nat.le_add_right mid 1) hlt
          omega
      · rwa [le_antisymm hi' hi]

theorem lastOfLine_spec
    {high mid : ℕ} (hmid : getDeltaLine tokens mid = deltaLine) (hhigh : mid ≤ high)
    (hbelow : ∀ i, high < i → i < tokens.length → deltaLine < getDeltaLine tokens i) :
    mid ≤ lastOfLine tokens deltaLine high mid ∧
    lastOfLine tokens deltaLine high mid ≤ high ∧ (∀ i, lastOfLine tokens deltaLine high mid < i →
    i < tokens.length → deltaLine < getDeltaLine tokens i) ∧ ∀ i, mid ≤ i →
    i ≤ lastOfLine tokens deltaLine high mid → getDeltaLine tokens i = deltaLine := by
  fun_induction lastOfLine tokens deltaLine high mid with
  | case1 mid hgoes ih =>
    obtain ⟨hle, hfits, hmore, hon⟩ := ih hgoes.2 hgoes.1
    refine ⟨(Nat.le_succ mid).trans hle, hfits, hmore, fun i hi hi' => ?_⟩
    rcases hi.eq_or_lt with rfl | hi
    · exact hmid
    · exact hon i hi hi'
  | case2 mid hstops =>
    refine ⟨le_rfl, hhigh, fun i hi hi' => ?_, fun i hi hi' => ?_⟩
    · rcases Nat.lt_or_ge high i with hgt | hge
      · exact hbelow i hgt hi'
      · have hle := getDeltaLine_le hsorted (show mid + 1 ≤ i from hi) hi'
        have hle' := getDeltaLine_le hsorted (Nat.le_add_right mid 1) (by omega)
        omega
    · rwa [le_antisymm hi' hi]

theorem searchLine_spec {low : ℕ}
    {high : ℤ} (hlow : low < tokens.length) (hhigh : high < tokens.length) (hle : low ≤ high + 1)
    (habove : ∀ i, i < low → getDeltaLine tokens i < deltaLine)
    (hbelow : ∀ i : ℕ, high < i → i < tokens.length → deltaLine < getDeltaLine tokens i) :
    ∃ first stop, LineRun tokens deltaLine first stop ∧
      searchLine tokens deltaLine low high =
        if first < stop then some ((tokens.drop first).take (stop - first)) else none := by
  fun_induction searchLine tokens deltaLine low high with
  | case1 low high hlt mid midDeltaLine hless ih =>
    refine ih (by omega) hhigh (by omega) (fun i hi => ?_) hbelow
    exact (getDeltaLine_le hsorted (Nat.le_of_lt_succ hi) (by omega)).trans_lt hless
  | case2 low high hlt mid midDeltaLine hnot hmore ih =>
    refine ih hlow (by omega) (by omega) habove fun i hi hi' => ?_
    exact hmore.trans_le (getDeltaLine_le hsorted (by omega) hi')
  | case3 low high hlt mid midDeltaLine hnot hnot' min max =>
    have hmid : getDeltaLine tokens mid = deltaLine := by omega
    obtain ⟨hminLe, hminAbove, hminOn⟩ :=
      firstOfLine_spec hsorted hmid (show low ≤ mid by omega) (by omega) habove
    obtain ⟨hmaxLe, hmaxFits, hmaxBelow, hmaxOn⟩ := lastOfLine_spec hsorted hmid
      (show mid ≤ high.toNat by omega) fun i hi hi' => hbelow i (by omega) hi'
    refine ⟨min, max + 1, ⟨by omega, by omega, hminAbove, fun i hi hi' => ?_, fun i hi hi' =>
      hmaxBelow i hi hi'⟩, (if_pos (by omega)).symm⟩
    rcases Nat.le_total i mid with h | h
    · exact hminOn i hi h
    · exact hmaxOn i h (Nat.le_of_lt_succ hi')
  | case4 low high hge hon =>
    refine ⟨low, low + 1, ⟨Nat.le_succ low, hlow, habove, fun i hi hi' => ?_, fun i hi hi' => ?_⟩, ?_⟩
    · rwa [le_antisymm (Nat.le_of_lt_succ hi') hi]
    · exact hbelow i (by omega) hi'
    · rw [if_pos (Nat.lt_succ_self low), Nat.add_sub_cancel_left]
  | case5 low high hge hnot =>
    rcases Nat.lt_or_gt_of_ne hnot with hless | hmore
    · refine ⟨low + 1, low + 1, ⟨le_rfl, hlow, fun i hi => ?_, fun i hi hi' => ?_,
        fun i hi hi' => ?_⟩,
        (if_neg (lt_irrefl _)).symm⟩
      · exact (getDeltaLine_le hsorted (Nat.le_of_lt_succ hi) hlow).trans_lt hless
      · exact absurd (hi.trans_lt hi') (lt_irrefl _)
      · have hrest := hbelow low
        exact hbelow i (by omega) hi'
    · refine ⟨low, low, ⟨le_rfl, hlow.le, habove, fun i hi hi' => ?_, fun i hi hi' => ?_⟩,
        (if_neg (lt_irrefl _)).symm⟩
      · exact absurd (hi.trans_lt hi') (lt_irrefl _)
      · exact hmore.trans_le (getDeltaLine_le hsorted hi hi')

theorem getLineTokens_eq (hne : tokens ≠ [])
    (deltaLine : ℕ) : getLineTokens tokens deltaLine = if tokens.filter (·.deltaLine = deltaLine) =
    [] then none else some (tokens.filter (·.deltaLine = deltaLine)) := by
  have hpos := length_pos_iff.2 hne
  obtain ⟨first, stop, hrun, hsearch⟩ := @searchLine_spec tokens deltaLine hsorted 0
    ((tokens.length : ℤ) - 1) hpos (by omega) (by omega)
    (fun i hi => absurd hi (Nat.not_lt_zero i)) (fun i hi hi' => by omega)
  have hlength : ((tokens.drop first).take (stop - first)).length =
      min (stop - first) (tokens.length - first) := by
    rw [List.length_take, List.length_drop]
  rw [getLineTokens, hsearch, hrun.filter_eq]
  have hfits := hrun.fits
  by_cases hlt : first < stop
  · rw [if_pos hlt, if_neg fun hnil => ?_]
    rw [hnil, length_nil] at hlength
    omega
  · rw [if_neg hlt, if_pos (eq_nil_of_length_eq_zero (by omega))]

end SparseMultilineTokensStorage

namespace SparseMultilineTokens

open TokenSpan SparseMultilineTokensStorage

variable {block : SparseMultilineTokens} {lineNumber : ℕ}

def tokensOn (block : SparseMultilineTokens) (lineNumber : ℕ) : List SparseToken :=
  block.tokens.filter fun token => block.startLineNumber + token.deltaLine = lineNumber

theorem spans_tokensOn (block : SparseMultilineTokens) (lineNumber : ℕ) :
    (block.tokensOn lineNumber).map (SparseToken.span block.startLineNumber) =
      block.spans.filter (·.line = lineNumber) := by
  rw [spans, filter_map]
  rfl

theorem getLineTokens_eq (htidy : Tidy block.spans) (hne : block.tokens ≠ []) :
    block.getLineTokens lineNumber =
      if block.tokensOn lineNumber = [] then none else some (block.tokensOn lineNumber) := by
  rw [getLineTokens]
  by_cases hline : block.startLineNumber ≤ lineNumber ∧ (lineNumber : ℤ) ≤ block.endLineNumber
  · have hfilter : block.tokens.filter (·.deltaLine = lineNumber - block.startLineNumber) =
        block.tokensOn lineNumber := by
      refine filter_congr fun token _ => ?_
      rw [decide_eq_decide]
      omega
    rw [if_pos hline, SparseMultilineTokensStorage.getLineTokens_eq (sorted_of_tidy htidy) hne,
      hfilter]
  · have hnone : block.tokensOn lineNumber = [] := by
      refine filter_eq_nil_iff.2 fun token htoken hon => hline ?_
      have hon' : (token.span block.startLineNumber).line = lineNumber := of_decide_eq_true hon
      have hmem : token.span block.startLineNumber ∈ block.spans := mem_map_of_mem htoken
      have hle := SparseTokensStore.startLineNumber_le_line _ hmem
      have hle' := SparseTokensStore.line_le_endLineNumber htidy _ hmem
      omega
    rw [if_neg hline, if_pos hnone]

end SparseMultilineTokens

namespace SparseTokensStore

open TokenSpan SparseMultilineTokensStorage

variable {pieces : List SparseMultilineTokens} {lineNumber : ℕ}

/-- The line is between the first and the last that the piece says it has. -/
def HasLine (lineNumber : ℕ) (piece : SparseMultilineTokens) : Prop :=
  piece.startLineNumber ≤ lineNumber ∧ (lineNumber : ℤ) ≤ piece.endLineNumber

/-- No piece that starts below the line stands in front of one that does not, and the last lines
of the pieces do not go back. -/
def LinesInOrder (lineNumber : ℕ) (pieces : List SparseMultilineTokens) : Prop :=
  pieces.Pairwise fun piece other =>
    (other.startLineNumber ≤ lineNumber → piece.startLineNumber ≤ lineNumber) ∧
      piece.endLineNumber ≤ other.endLineNumber

theorem LinesInOrder.le (h : LinesInOrder lineNumber pieces)
    {i j : ℕ} {piece other : SparseMultilineTokens} (hi : pieces[i]? = some piece)
    (hj : pieces[j]? = some other) (hij : i ≤ j) : (other.startLineNumber ≤ lineNumber →
    piece.startLineNumber ≤ lineNumber) ∧ piece.endLineNumber ≤ other.endLineNumber := by
  obtain ⟨hi', rfl⟩ := List.getElem?_eq_some_iff.1 hi
  obtain ⟨hj', rfl⟩ := List.getElem?_eq_some_iff.1 hj
  rcases hij.eq_or_lt with rfl | hlt
  · exact ⟨id, le_rfl⟩
  · exact pairwise_iff_getElem.1 h i j hi' hj' hlt

def FirstWith (pieces : List SparseMultilineTokens) (lineNumber index : ℕ) : Prop :=
  ∀ i piece, pieces[i]? = some piece → HasLine lineNumber piece →
    index ≤ i ∧ ∃ found, pieces[index]? = some found ∧ HasLine lineNumber found

variable (horder : LinesInOrder lineNumber pieces)
include horder

theorem firstWithLine_spec {low mid : ℕ} {piece : SparseMultilineTokens}
    (hmid : pieces[mid]? = some piece) (hhas : HasLine lineNumber piece)
    (hlow : ∀ i piece, pieces[i]? = some piece → HasLine lineNumber piece → low ≤ i) :
    FirstWith pieces lineNumber (firstWithLine pieces lineNumber low mid) := by
  induction mid generalizing piece with
  | zero => exact fun i _ _ _ => ⟨Nat.zero_le i, piece, hmid, hhas⟩
  | succ mid ih =>
    obtain ⟨previous, hprevious⟩ : ∃ previous, pieces[mid]? = some previous :=
      ⟨_, getElem?_eq_getElem ((Nat.lt_succ_self mid).trans (List.getElem?_eq_some_iff.1 hmid).1)⟩
    rw [firstWithLine, hprevious]
    simp only
    split_ifs with hgoes
    · exact ih hprevious hgoes.2
    · intro i other hi hother
      refine ⟨?_, piece, hmid, hhas⟩
      by_contra hlt
      have hle := horder.le hi hprevious (by omega)
      have hle' := horder.le hprevious hmid (Nat.le_succ mid)
      have hmin := hlow i other hi hother
      obtain ⟨hstart, hend⟩ := hhas
      obtain ⟨hstart', hend'⟩ := hother
      exact hgoes ⟨by omega, by omega, by omega⟩

theorem findPieceLoop_spec {low : ℕ} {high : ℤ} (hhigh : high < pieces.length) (hbetween :
    ∀ i piece, pieces[i]? = some piece → HasLine lineNumber piece → low ≤ i ∧ (i : ℤ) ≤ high) :
    FirstWith pieces lineNumber (findPieceLoop pieces lineNumber low high) := by
  fun_induction findPieceLoop pieces lineNumber low high with
  | case1 low high hlt mid hnone =>
    rw [List.getElem?_eq_none_iff] at hnone
    omega
  | case2 low high hlt mid piece hpiece hless ih =>
    refine ih hhigh fun i other hi hother => ⟨?_, (hbetween i other hi hother).2⟩
    by_contra hle
    have hends := (horder.le hi hpiece (by omega)).2
    have hline := hother.2
    omega
  | case3 low high hlt mid piece hpiece hnot hmore ih =>
    refine ih (by omega) fun i other hi hother => ⟨(hbetween i other hi hother).1, ?_⟩
    by_contra hle
    have hstarts := (horder.le hpiece hi (by omega)).1
    have hline := hother.1
    omega
  | case4 low high hlt mid piece hpiece hnot hnot' =>
    exact firstWithLine_spec horder hpiece ⟨by omega, by omega⟩
      fun i other hi hother => (hbetween i other hi hother).1
  | case5 low high hge =>
    intro i piece hi hpiece
    have hplace := hbetween i piece hi hpiece
    obtain rfl : i = low := by omega
    exact ⟨le_rfl, piece, hi, hpiece⟩

theorem findFirstPieceWithLine_spec :
    FirstWith pieces lineNumber (findFirstPieceWithLine pieces lineNumber) :=
  findPieceLoop_spec horder (by omega) fun i piece hi _ =>
    ⟨Nat.zero_le i, by have := (List.getElem?_eq_some_iff.1 hi).1; omega⟩

end SparseTokensStore

end CodeOss
