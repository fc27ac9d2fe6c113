import CodeOss.Tokens.LineTokens

/-! Insertions and slices of line tokens keep the text and the metadata of every character. -/

namespace CodeOss.LineTokens

open Runs List List

section Inserted

variable {α : Type} {values head : List α} {inserts : List (ℕ × List α)} {start stop : ℕ}

/-- The insertions into the values from `start` on. -/
def insertedFrom (start : ℕ) (values : List α) (inserts : List (ℕ × List α)) : List α :=
  inserts.foldr (fun insert values =>
    values.take (insert.1 - start) ++ insert.2 ++ values.drop (insert.1 - start)) values

theorem insertedFrom_cons (insert : ℕ × List α) :
    insertedFrom start values (insert :: inserts) =
      (insertedFrom start values inserts).take (insert.1 - start) ++ insert.2 ++
        (insertedFrom start values inserts).drop (insert.1 - start) := rfl

theorem insertedFrom_append (hlength : head.length = stop - start) (hle : start ≤ stop)
    (hinserts : ∀ insert ∈ inserts, stop ≤ insert.1) :
    insertedFrom start (head ++ values) inserts = head ++ insertedFrom stop values inserts := by
  induction inserts with
  | nil => rfl
  | cons insert inserts ih =>
    have hinsert := hinserts insert mem_cons_self
    have hoffset : insert.1 - start = head.length + (insert.1 - stop) := by omega
    rw [insertedFrom_cons, insertedFrom_cons,
      ih fun x hx => hinserts x (mem_cons_of_mem _ hx), hoffset,
      take_length_add_append, drop_length_add_append, append_assoc,
      append_assoc, append_assoc]

theorem insertedFrom_first {insert : ℕ × List α} (h : insert.1 = start) : insertedFrom start values
    (insert :: inserts) = insert.2 ++ insertedFrom start values inserts := by
  rw [insertedFrom_cons, h, Nat.sub_self, take_zero, nil_append, drop_zero]

end Inserted

namespace Inserting

variable {source : JsString} {original original' : List (ℕ × ℕ)} {state : Inserting}

/-- What was made covers its text, and what is left of the line starts where that was cut. -/
structure Ready (source : JsString) (original : List (ℕ × ℕ)) (state : Inserting) : Prop where
  increasing : Increasing state.newTokens
  stop : stop 0 state.newTokens = state.text.length
  rest : Increasing original
  behind : ∀ e ∈ ends original, state.originalEndOffset < e ∨
    state.originalEndOffset ≤ e ∧ state.newTokens = []
  source : Runs.stop state.originalEndOffset original = source.length

variable {text : JsString} {offset : ℕ}

theorem increasing_push {tokens : List (ℕ × ℕ)} {piece : JsString} (metadata : ℕ)
    (h : Increasing tokens) (hstop : Runs.stop 0 tokens = text.length)
    (hpiece : piece ≠ [] ∨ tokens = []) :
    Increasing (tokens ++ [((text ++ piece).length, metadata)]) := by
  refine Covers.increasing_cut.2 ⟨h, List.Pairwise.nil, fun e he => ?_, by simp [ends]⟩
  have hle := le_stop_of_mem h.ordered_zero he
  rw [hstop] at hle
  rcases hpiece with hpiece | rfl
  · have hpos := length_pos_of_ne_nil hpiece
    rw [length_append]
    omega
  · exact absurd he (by simp [ends])

theorem metadataOf_push {tokens : List (ℕ × ℕ)} {piece : JsString} (metadata : ℕ)
    (hstop : Runs.stop 0 tokens = text.length) :
    metadataOf (tokens ++ [((text ++ piece).length, metadata)]) =
      metadataOf tokens ++ replicate piece.length metadata := by
  rw [metadataOf, expand_append, hstop, expand_cons, expand_nil, append_nil,
    length_append, Nat.add_sub_cancel_left, metadataOf]

theorem Ready.push (h : Ready source original state) (metadata : ℕ) (htext : text ≠ [])
    (hbehind : ∀ e ∈ ends original, state.originalEndOffset < e) :
    Ready source original (state.push text metadata) where
  increasing := increasing_push metadata h.increasing h.stop (Or.inl htext)
  stop := by rw [Inserting.push, stop_append]; rfl
  rest := h.rest
  behind := fun e he => Or.inl (hbehind e he)
  source := h.source

theorem length_piece (hle : state.originalEndOffset ≤ offset) (hoffset : offset ≤ source.length) :
    source.substring state.originalEndOffset offset = (source.drop state.originalEndOffset).take
    (offset - state.originalEndOffset) ∧ (source.substring state.originalEndOffset offset).length =
    offset - state.originalEndOffset := by
  have heq : source.substring state.originalEndOffset offset =
      (source.drop state.originalEndOffset).take (offset - state.originalEndOffset) := by
    rw [JsString.substring_eq source (by omega) (by omega) (by omega)]
    congr 1
    omega
  refine ⟨heq, ?_⟩
  rw [heq, List.length_take, List.length_drop]
  omega

theorem Ready.pushOriginal (h : Ready source original state) (metadata : ℕ)
    (hle : state.originalEndOffset ≤ offset) (hoffset : offset ≤ source.length)
    (hpiece : state.originalEndOffset < offset ∨ state.newTokens = [])
    (hrest : Increasing original') (hbehind : ∀ e ∈ ends original', offset < e)
    (hsource : Runs.stop offset original' = source.length) :
    Ready source original' (state.pushOriginal source offset metadata) where
  increasing := by
    refine increasing_push metadata h.increasing h.stop (hpiece.imp_left fun hlt hnil => ?_)
    have hlength := (length_piece hle hoffset).2
    rw [hnil, length_nil] at hlength
    omega
  stop := by rw [Inserting.pushOriginal, Inserting.push, stop_append]; rfl
  rest := hrest
  behind := fun e he => Or.inl (hbehind e he)
  source := hsource

structure Makes (source : JsString) (original : List (ℕ × ℕ)) (inserts : List InsertToken)
    (state : Inserting) (line : LineTokens) : Prop where
  text : line.text = state.text ++ insertedFrom state.originalEndOffset
    (source.drop state.originalEndOffset) (inserts.map fun insert => (insert.offset, insert.text))
  metadata : metadataOf line.tokens = metadataOf state.newTokens ++
    insertedFrom state.originalEndOffset (expand state.originalEndOffset original)
      (inserts.map fun insert =>
        (insert.offset, replicate insert.text.length insert.tokenMetadata))

variable (hstop : Runs.stop 0 state.newTokens = state.text.length)
include hstop

theorem Makes.push {inserts : List InsertToken} {insert : InsertToken} {line : LineTokens}
    (hinsert : insert.offset = state.originalEndOffset)
    (h : Makes source original inserts (state.push insert.text insert.tokenMetadata) line) :
    Makes source original (insert :: inserts) state line := by
  obtain ⟨htext, hmetadata⟩ := h
  refine ⟨?_, ?_⟩
  · rw [map_cons, insertedFrom_first hinsert, htext, Inserting.push, append_assoc]
  · rw [map_cons, insertedFrom_first hinsert, hmetadata, Inserting.push,
      metadataOf_push _ hstop, append_assoc]

theorem Makes.pushOriginal {inserts : List InsertToken} {line : LineTokens} {metadata : ℕ}
    (hle : state.originalEndOffset ≤ offset) (hoffset : offset ≤ source.length)
    (hinserts : ∀ insert ∈ inserts, offset ≤ insert.offset)
    (hexpand : expand state.originalEndOffset original = replicate
    (offset - state.originalEndOffset) metadata ++ expand offset original')
    (h : Makes source original' inserts (state.pushOriginal source offset metadata) line) :
    Makes source original inserts state line := by
  obtain ⟨htext, hmetadata⟩ := h
  obtain ⟨hpiece, hlength⟩ := length_piece hle hoffset
  refine ⟨?_, ?_⟩
  · have hsplit : source.drop state.originalEndOffset =
        source.substring state.originalEndOffset offset ++ source.drop offset := by
      rw [hpiece, show source.drop offset = (source.drop state.originalEndOffset).drop
        (offset - state.originalEndOffset) by rw [List.drop_drop, Nat.add_sub_cancel' hle],
        take_append_drop]
    rw [hsplit, insertedFrom_append hlength hle (by simpa using hinserts), ← append_assoc]
    exact htext
  · rw [hexpand, insertedFrom_append (by rw [length_replicate]) hle (by simpa using hinserts),
      ← append_assoc, ← hlength, ← metadataOf_push metadata hstop]
    exact hmetadata

end Inserting

open Inserting

variable {original : List (ℕ × ℕ)} {source : JsString} {state : Inserting} {line : LineTokens}

theorem expand_within {start offset : ℕ} {token : ℕ × ℕ}
    (hle : start ≤ offset) (hoffset : offset ≤ token.1) : expand start (token :: original) =
    replicate (offset - start) token.2 ++ expand offset (token :: original) := by
  rw [expand_cons, expand_cons, ← append_assoc, replicate_append_replicate]
  congr 2
  omega

theorem Inserting.Ready.head_le {token : ℕ × ℕ} (h : Ready source (token :: original) state) :
    state.originalEndOffset ≤ token.1 ∧ token.1 ≤ source.length := by
  refine ⟨?_, ?_⟩
  · rcases h.behind token.1 mem_cons_self with hlt | ⟨hle, -⟩
    · exact hlt.le
    · exact hle
  · have hordered : Ordered token.1 (token :: original) := by
      refine h.rest.ordered fun e he => ?_
      rcases mem_cons.1 he with rfl | he
      · exact le_rfl
      · exact ((pairwise_cons.1 h.rest).1 e he).le
    exact h.source ▸ hordered.le_stop

theorem Inserting.Ready.token {token : ℕ × ℕ} (h : Ready source (token :: original) state) :
    Ready source original (state.pushOriginal source token.1 token.2) := by
  obtain ⟨hle, hlength⟩ := h.head_le
  obtain ⟨hbehind, hrest⟩ := pairwise_cons.1 h.rest
  exact h.pushOriginal token.2 hle hlength
    ((h.behind token.1 mem_cons_self).imp_right fun hnil => hnil.2) hrest hbehind h.source

theorem Inserting.Makes.token {token : ℕ × ℕ} {inserts : List InsertToken}
    (h : Ready source (token :: original) state)
    (hinserts : ∀ insert ∈ inserts, token.1 ≤ insert.offset)
    (hmakes : Makes source original inserts (state.pushOriginal source token.1 token.2) line) :
    Makes source (token :: original) inserts state line :=
  hmakes.pushOriginal h.stop h.head_le.1 h.head_le.2 hinserts rfl

theorem insertLoop_spec (source : JsString) (original : List (ℕ × ℕ))
    (inserts : List InsertToken) (state : Inserting) (h : Ready source original state)
    (hsorted : inserts.Pairwise fun a b => a.offset ≤ b.offset) (hin : ∀ insert ∈ inserts,
    insert.text ≠ [] ∧ state.originalEndOffset ≤ insert.offset ∧ insert.offset ≤ source.length) :
    (insertLoop source original inserts state).Valid ∧
    Makes source original inserts state (insertLoop source original inserts state) := by
  induction original, inserts, state using insertLoop.induct source with
  | case1 state =>
    rw [insertLoop]
    refine ⟨⟨h.increasing, h.stop⟩, ?_, ?_⟩
    · have hend : state.originalEndOffset = source.length := h.source
      rw [hend, drop_length]
      exact (append_nil _).symm
    · exact (append_nil _).symm
  | case2 state insert inserts ih =>
    obtain ⟨hsorted', hsorted⟩ := pairwise_cons.1 hsorted
    obtain ⟨htext, hle, hlength⟩ := hin insert mem_cons_self
    have hend : state.originalEndOffset = source.length := h.source
    have hfirst : insert.offset = state.originalEndOffset := by omega
    have hpush : state.pushInsert source insert 0 =
        state.push insert.text insert.tokenMetadata := by
      rw [pushInsert, if_neg (by omega)]
    rw [insertLoop]
    rw [hpush] at ih ⊢
    obtain ⟨hvalid, hmakes⟩ := ih (h.push _ htext fun e he => absurd he (by simp [ends])) hsorted
      fun x hx => ⟨(hin x (mem_cons_of_mem _ hx)).1, hin x (mem_cons_of_mem _ hx) |>.2⟩
    exact ⟨hvalid, hmakes.push h.stop hfirst⟩
  | case3 state token original ih =>
    rw [insertLoop]
    obtain ⟨hvalid, hmakes⟩ := ih h.token hsorted fun x hx => absurd hx (by simp)
    exact ⟨hvalid, hmakes.token h fun x hx => absurd hx (by simp)⟩
  | case4 state token original insert inserts hle ih =>
    rw [insertLoop, if_pos hle]
    have hbehind : ∀ x ∈ insert :: inserts, token.1 ≤ x.offset := by
      intro x hx
      rcases mem_cons.1 hx with rfl | hx
      · exact hle
      · exact hle.trans ((pairwise_cons.1 hsorted).1 x hx)
    obtain ⟨hvalid, hmakes⟩ := ih h.token hsorted fun x hx =>
      ⟨(hin x hx).1, hbehind x hx, (hin x hx).2.2⟩
    exact ⟨hvalid, hmakes.token h hbehind⟩
  | case5 state token original insert inserts hgt ih =>
    obtain ⟨hsorted', hsorted⟩ := pairwise_cons.1 hsorted
    obtain ⟨htext, hle, hlength⟩ := hin insert mem_cons_self
    have hbehind : ∀ e ∈ ends (token :: original), insert.offset < e := by
      intro e he
      rcases mem_cons.1 he with rfl | he
      · exact not_le.1 hgt
      · exact (not_le.1 hgt).trans ((pairwise_cons.1 h.rest).1 e he)
    have hrest : ∀ x ∈ inserts, x.text ≠ [] ∧ insert.offset ≤ x.offset ∧
        x.offset ≤ source.length := fun x hx =>
      ⟨(hin x (mem_cons_of_mem _ hx)).1, hsorted' x hx, (hin x (mem_cons_of_mem _ hx)).2.2⟩
    rw [insertLoop, if_neg hgt]
    by_cases hwithin : insert.offset > state.originalEndOffset
    · have hpush : state.pushInsert source insert token.2 =
          (state.pushOriginal source insert.offset token.2).push insert.text
            insert.tokenMetadata := by
        rw [pushInsert, if_pos hwithin]
      rw [hpush] at ih ⊢
      have hcut : Ready source (token :: original)
          (state.pushOriginal source insert.offset token.2) :=
        h.pushOriginal token.2 hle hlength (Or.inl hwithin) h.rest hbehind h.source
      obtain ⟨hvalid, hmakes⟩ := ih (hcut.push _ htext hbehind) hsorted hrest
      refine ⟨hvalid, (hmakes.push hcut.stop rfl).pushOriginal h.stop hle hlength ?_ ?_⟩
      · intro x hx
        rcases mem_cons.1 hx with rfl | hx
        · exact le_rfl
        · exact hsorted' x hx
      · exact expand_within hle (not_le.1 hgt).le
    · have hfirst : insert.offset = state.originalEndOffset := by omega
      have hpush : state.pushInsert source insert token.2 =
          state.push insert.text insert.tokenMetadata := by
        rw [pushInsert, if_neg hwithin]
      rw [hpush] at ih ⊢
      obtain ⟨hvalid, hmakes⟩ := ih (h.push _ htext (hfirst ▸ hbehind)) hsorted
        fun x hx => hfirst ▸ hrest x hx
      exact ⟨hvalid, hmakes.push h.stop hfirst⟩

theorem withInserted_spec (h : line.Valid) {insertTokens : List InsertToken}
    (hsorted : insertTokens.Pairwise fun a b => a.offset ≤ b.offset)
    (hin : ∀ insert ∈ insertTokens, insert.text ≠ [] ∧ insert.offset ≤ line.text.length) :
    (line.withInserted insertTokens).Valid ∧ (line.withInserted insertTokens).text =
    inserted line.text (insertTokens.map fun insert => (insert.offset, insert.text)) ∧ metadataOf
    (line.withInserted insertTokens).tokens = inserted (metadataOf line.tokens) (insertTokens.map
    fun insert => (insert.offset, replicate insert.text.length insert.tokenMetadata)) := by
  rw [withInserted]
  split_ifs with hnil
  · obtain rfl := length_eq_zero_iff.1 hnil
    exact ⟨h, rfl, rfl⟩
  · have hready : Ready line.text line.tokens ⟨[], [], 0⟩ :=
      ⟨List.Pairwise.nil, rfl, h.increasing, fun e _ => Or.inr ⟨Nat.zero_le e, rfl⟩, h.stop⟩
    obtain ⟨hvalid, hmakes⟩ := insertLoop_spec line.text line.tokens insertTokens ⟨[], [], 0⟩ hready
      hsorted fun x hx => ⟨(hin x hx).1, Nat.zero_le _, (hin x hx).2⟩
    exact ⟨hvalid, hmakes.text, hmakes.metadata⟩

section Slices

variable {line : LineTokens} {i j : ℕ}

theorem getStartOffset_succ : line.getStartOffset (i + 1) = line.getEndOffset i := rfl

section

variable (h : line.Valid)
include h

theorem Valid.getEndOffset_le (hij : i ≤ j) (hj : j < line.getCount) :
    line.getEndOffset i ≤ line.getEndOffset j :=
  endOffset_le h.increasing hij hj

theorem Valid.getStartOffset_le (hij : i ≤ j) (hj : j ≤ line.getCount) :
    line.getStartOffset i ≤ line.getStartOffset j := by
  cases i with
  | zero => exact Nat.zero_le _
  | succ i =>
    obtain ⟨j, rfl⟩ := Nat.exists_eq_add_of_lt (Nat.lt_of_succ_le hij)
    exact h.getEndOffset_le (by omega) (by omega)

theorem Valid.getStartOffset_getCount : line.getStartOffset line.getCount = line.text.length := by
  have htake := Covers.stop_take line.tokens (le_refl line.tokens.length)
  rw [take_length, h.stop] at htake
  exact htake.symm

variable (hi : i < line.getCount)
include hi

theorem Valid.getEndOffset_le_length : line.getEndOffset i ≤ line.text.length := by
  rw [← h.getStartOffset_getCount, ← getStartOffset_succ]
  exact h.getStartOffset_le hi le_rfl

theorem Valid.start_le_end : line.getStartOffset i ≤ line.getEndOffset i :=
  h.getStartOffset_le (Nat.le_succ i) hi

omit hi in
theorem Valid.find {offset : ℕ} (hoffset : offset < line.text.length) : line.findTokenIndexAtOffset
    offset < line.getCount ∧ line.getStartOffset (line.findTokenIndexAtOffset offset) ≤ offset ∧
    offset < line.getEndOffset (line.findTokenIndexAtOffset offset) := by
  have hne : line.tokens ≠ [] := by
    intro hnil
    have hstop := h.stop
    rw [hnil] at hstop
    exact absurd (hstop ▸ hoffset) (Nat.not_lt_zero _)
  have hfound := findIndexInTokensArray_spec h.increasing hne offset
  rw [findTokenIndexAtOffset, if_neg (by omega), Int.toNat_natCast]
  refine ⟨hfound.lt, ?_, ?_⟩
  · cases hindex : findIndexInTokensArray line.tokens offset with
    | zero => exact Nat.zero_le _
    | succ index => exact hfound.before index (by omega)
  · rcases Nat.lt_or_ge (findIndexInTokensArray line.tokens offset + 1) line.getCount with hlt | hge
    · exact hfound.within hlt
    · have hlast : findIndexInTokensArray line.tokens offset + 1 = line.getCount :=
        le_antisymm hfound.lt hge
      rw [← getStartOffset_succ, hlast, h.getStartOffset_getCount]
      exact hoffset

theorem Valid.metadata_getElem? {k : ℕ}
    (hstart : line.getStartOffset i ≤ k) (hend : k < line.getEndOffset i) :
    (metadataOf line.tokens)[k]? = some (line.getMetadata i) := by
  obtain ⟨before, token, behind, hcut⟩ := Covers.cutAt hi
  have hbefore : Increasing before := by
    have hincreasing := h.increasing
    rw [hcut.split] at hincreasing
    exact (Covers.increasing_cut.1 hincreasing).1
  have hstop : Runs.stop 0 before = line.getStartOffset i := by
    rw [← hcut.take, Covers.stop_take _ hi.le]
    rfl
  have hlength : (expand 0 before).length = line.getStartOffset i := by
    rw [hbefore.ordered_zero.length_expand, hstop, Nat.sub_zero]
  rw [getEndOffset, hcut.endOffset] at hend
  rw [metadataOf, hcut.split, expand_append, hstop, expand_cons,
    getElem?_append_right (by omega), hlength,
    getElem?_append_left (by rw [length_replicate]; omega),
    getElem?_replicate_of_lt (by omega), getMetadata, hcut.metadata]

theorem Valid.metadata_part {start stop : ℕ}
    (hstart : line.getStartOffset i ≤ start) (hstop : stop ≤ line.getEndOffset i) :
    ((metadataOf line.tokens).drop start).take (stop - start) =
      replicate (stop - start) (line.getMetadata i) := by
  refine ext_getElem? fun k => ?_
  by_cases hk : k < stop - start
  · rw [getElem?_take_of_lt hk, getElem?_drop,
      h.metadata_getElem? hi (by omega) (by omega), getElem?_replicate_of_lt hk]
  · rw [getElem?_eq_none (by rw [List.length_take]; omega),
      getElem?_eq_none (by rw [length_replicate]; omega)]

end

theorem length_takeWhile_range' (p : ℕ → Bool) (first count : ℕ) : ((range' first count).takeWhile
    p).length ≤ count ∧ (∀ i < ((range' first count).takeWhile p).length, p (first + i) = true) ∧
    (((range' first count).takeWhile p).length < count →
    p (first + ((range' first count).takeWhile p).length) = false) := by
  induction count generalizing first with
  | zero => simp
  | succ count ih =>
    obtain ⟨hle, hall, hnot⟩ := ih (first + 1)
    rw [range'_succ]
    by_cases hp : p first = true
    · rw [takeWhile_cons_of_pos hp, length_cons]
      refine ⟨Nat.succ_le_succ hle, fun i hi => ?_, fun hlt => ?_⟩
      · cases i with
        | zero => exact hp
        | succ i =>
          rw [Nat.add_succ, ← Nat.succ_add]
          exact hall i (Nat.lt_of_succ_lt_succ hi)
      · rw [Nat.add_succ, ← Nat.succ_add]
        exact hnot (Nat.lt_of_succ_lt_succ hlt)
    · rw [takeWhile_cons_of_neg hp]
      exact ⟨Nat.zero_le _, fun i hi => absurd hi (Nat.not_lt_zero i), fun _ => by simpa using hp⟩

end Slices

/-- A slice of a line: its tokens are those from the first one that reach into it. -/
structure Window (line : LineTokens) (startOffset endOffset : ℕ) (slice : SliceLineTokens) :
    Prop where
  source : slice.source = line
  start : slice.startOffset = startOffset
  stop : slice.endOffset = endOffset
  lt : startOffset < endOffset
  le : endOffset ≤ line.text.length
  pos : 0 < slice.tokensCount
  count : slice.firstTokenIndex + slice.tokensCount ≤ line.getCount
  first_le : line.getStartOffset slice.firstTokenIndex ≤ startOffset
  lt_first : startOffset < line.getEndOffset slice.firstTokenIndex
  within : ∀ i < slice.tokensCount, line.getStartOffset (slice.firstTokenIndex + i) < endOffset
  behind : endOffset ≤ line.getStartOffset (slice.firstTokenIndex + slice.tokensCount)

theorem Valid.window (h : line.Valid) {startOffset endOffset : ℕ} (hlt : startOffset < endOffset)
    (hle : endOffset ≤ line.text.length) (deltaOffset : ℤ) :
    Window line startOffset endOffset (line.sliceAndInflate startOffset endOffset deltaOffset) := by
  obtain ⟨hfirst, hstart, hend⟩ := h.find (hlt.trans_le hle)
  obtain ⟨hlength, hall, hnot⟩ := length_takeWhile_range'
    (fun i => decide (line.getStartOffset i < endOffset)) (line.findTokenIndexAtOffset startOffset)
    (line.getCount - line.findTokenIndexAtOffset startOffset)
  simp only [decide_eq_true_eq, decide_eq_false_iff_not, not_lt] at hall hnot
  set first := line.findTokenIndexAtOffset startOffset
  set count := ((range' first (line.getCount - first)).takeWhile fun i =>
    decide (line.getStartOffset i < endOffset)).length
  have hpos : 0 < count := by
    rcases Nat.eq_zero_or_pos count with hzero | hpos
    · have hbehind := hnot (by omega)
      rw [hzero, Nat.add_zero] at hbehind
      omega
    · exact hpos
  have hbehind : endOffset ≤ line.getStartOffset (first + count) := by
    rcases Nat.lt_or_ge count (line.getCount - first) with hcount | hcount
    · exact hnot hcount
    · rw [show first + count = line.getCount by omega, h.getStartOffset_getCount]
      exact hle
  have hcount : first + count ≤ line.getCount := by omega
  exact ⟨rfl, rfl, rfl, hlt, hle, hpos, hcount, hstart, hend, hall, hbehind⟩

section Sliced

variable {line : LineTokens} {startOffset endOffset : ℕ} {slice : SliceLineTokens}

/-- Where the part of the `i`th token of a slice starts. -/
def partStart (line : LineTokens) (startOffset endOffset first i : ℕ) : ℕ :=
  min endOffset (max startOffset (line.getStartOffset (first + i)))

variable {i : ℕ}

section

variable (h : Window line startOffset endOffset slice)
include h

theorem Window.part (hline : line.Valid)
    (hi : i < slice.tokensCount) : partStart line startOffset endOffset slice.firstTokenIndex i =
    max startOffset (line.getStartOffset (slice.firstTokenIndex + i)) ∧
    partStart line startOffset endOffset slice.firstTokenIndex (i + 1) =
    min endOffset (line.getEndOffset (slice.firstTokenIndex + i)) ∧ startOffset < line.getEndOffset
    (slice.firstTokenIndex + i) ∧ line.getStartOffset (slice.firstTokenIndex + i) ≤
    line.getEndOffset (slice.firstTokenIndex + i) ∧ slice.firstTokenIndex + i < line.getCount := by
  have hcount := h.count
  have hwithin := h.within i hi
  have hlt := h.lt
  have hindex : slice.firstTokenIndex + i < line.getCount := by omega
  have hend := h.lt_first.trans_le (hline.getEndOffset_le (Nat.le_add_right _ i) hindex)
  refine ⟨?_, ?_, hend, hline.start_le_end hindex, hindex⟩
  · exact min_eq_right (max_le hlt.le hwithin.le)
  · rw [partStart, ← Nat.add_assoc, getStartOffset_succ, max_eq_right hend.le]

theorem Window.getTokenText (hline : line.Valid) (hi : i < slice.tokensCount) : slice.getTokenText
    i = (line.text.drop (partStart line startOffset endOffset slice.firstTokenIndex i)).take
    (partStart line startOffset endOffset slice.firstTokenIndex
    (i + 1) - partStart line startOffset endOffset slice.firstTokenIndex i) := by
  obtain ⟨hcut, hcut', hend, hle, hindex⟩ := h.part hline hi
  have hlength := hline.getEndOffset_le_length hindex
  have hwithin := h.within i hi
  have hlt := h.lt
  rw [hcut, hcut', SliceLineTokens.getTokenText, h.source, h.start, h.stop, LineTokens.getTokenText]
  set tokenStart := line.getStartOffset (slice.firstTokenIndex + i)
  set tokenEnd := line.getEndOffset (slice.firstTokenIndex + i)
  have htext : line.text.substring tokenStart tokenEnd =
      (line.text.drop tokenStart).take (tokenEnd - tokenStart) := by
    rw [JsString.substring_eq _ (by omega) (by omega) (by omega)]
    congr 1
    omega
  have hfront : (if tokenStart < startOffset then
      (line.text.substring tokenStart tokenEnd).substringFrom ((startOffset : ℤ) - tokenStart)
      else line.text.substring tokenStart tokenEnd) =
        (line.text.drop (max startOffset tokenStart)).take
          (tokenEnd - max startOffset tokenStart) := by
    rw [htext]
    split_ifs with hbefore
    · rw [JsString.substringFrom_eq _ (by
        rw [List.length_take, List.length_drop]; omega), List.drop_take, List.drop_drop,
        max_eq_left hbefore.le]
      congr 1 <;> [omega; (congr 1; omega)]
    · rw [max_eq_right (not_lt.1 hbefore)]
  rw [hfront]
  set cut := max startOffset tokenStart
  have hcutlt : cut < endOffset := max_lt hlt hwithin
  have hcutle : cut ≤ tokenEnd := max_le hend.le hle
  split_ifs with hbehind
  · rw [JsString.substring_eq _ le_rfl (by rw [List.length_take, List.length_drop]; omega)
      (by omega), List.length_take, List.length_drop, min_eq_left hbehind.le]
    simp only [Int.toNat_zero, drop_zero, List.take_take]
    congr 1
    omega
  · rw [min_eq_right (not_lt.1 hbehind)]

theorem Window.getMetadata (hline : line.Valid) (hi : i < slice.tokensCount) :
    replicate (slice.getTokenText i).length (slice.getMetadata i) = ((metadataOf line.tokens).drop
    (partStart line startOffset endOffset slice.firstTokenIndex i)).take
    (partStart line startOffset endOffset slice.firstTokenIndex
    (i + 1) - partStart line startOffset endOffset slice.firstTokenIndex i) := by
  obtain ⟨hcut, hcut', hend, hle, hindex⟩ := h.part hline hi
  have hlength := hline.getEndOffset_le_length hindex
  rw [h.getTokenText hline hi, hline.metadata_part hindex (by omega) (by omega), List.length_take,
    List.length_drop, SliceLineTokens.getMetadata, h.source]
  congr 1
  omega

end

theorem flatMap_parts {α : Type} (values : List α)
    (cut : ℕ → ℕ) (part : ℕ → List α) (count : ℕ) (hmono : ∀ i < count, cut i ≤ cut (i + 1))
    (hpart : ∀ i < count, part i = (values.drop (cut i)).take (cut (i + 1) - cut i)) : (range
    count).flatMap part = (values.drop (cut 0)).take (cut count - cut 0) ∧ cut 0 ≤ cut count := by
  induction count with
  | zero => simp
  | succ count ih =>
    obtain ⟨hflat, hle⟩ := ih (fun i hi => hmono i (by omega)) fun i hi => hpart i (by omega)
    have hlast := hmono count (Nat.lt_succ_self count)
    refine ⟨?_, hle.trans hlast⟩
    rw [range_succ, flatMap_append, hflat, flatMap_singleton, hpart count (Nat.lt_succ_self count),
      show cut (count + 1) - cut 0 = cut count - cut 0 + (cut (count + 1) - cut count) by omega,
      take_add, List.drop_drop, Nat.add_sub_cancel' hle]

variable (h : Window line startOffset endOffset slice)
include h

theorem Window.cut_mono (hline : line.Valid)
    (hi : i < slice.tokensCount) : partStart line startOffset endOffset slice.firstTokenIndex i ≤
    partStart line startOffset endOffset slice.firstTokenIndex (i + 1) := by
  obtain ⟨hcut, hcut', hend, hle, -⟩ := h.part hline hi
  rw [hcut, hcut']
  exact le_min (max_le h.lt.le (h.within i hi).le) (max_le hend.le hle)

theorem Window.cut_ends :
    partStart line startOffset endOffset slice.firstTokenIndex 0 = startOffset ∧
      partStart line startOffset endOffset slice.firstTokenIndex slice.tokensCount = endOffset := by
  refine ⟨?_, min_eq_left (h.behind.trans (le_max_right _ _))⟩
  rw [partStart, Nat.add_zero, max_eq_left h.first_le, min_eq_right h.lt.le]

theorem Window.getEndOffset (i : ℕ) : slice.getEndOffset i = (min endOffset
    (line.getEndOffset (slice.firstTokenIndex + i)) : ℕ) - startOffset + slice.deltaOffset := by
  rw [SliceLineTokens.getEndOffset, h.source, h.start, h.stop, Nat.cast_min]

theorem Window.found (hline : line.Valid) {k : ℕ} (hk : k < endOffset - startOffset) :
    ∃ i < slice.getCount, slice.findTokenIndexAtOffset (slice.deltaOffset + k) = i ∧
    line.getStartOffset (slice.firstTokenIndex + i) ≤ startOffset + k ∧
    startOffset + k < line.getEndOffset (slice.firstTokenIndex + i) ∧ (∀ j < i,
    slice.getEndOffset j ≤ slice.deltaOffset + k) ∧ slice.deltaOffset + k < slice.getEndOffset i ∧
    (metadataOf line.tokens)[startOffset + k]? = some (slice.getMetadata i) := by
  have hle := h.le
  obtain ⟨hindex, hstart, hend⟩ := hline.find (show startOffset + k < line.text.length by omega)
  set index := line.findTokenIndexAtOffset ((startOffset + k : ℕ) : ℤ) with hdef
  have hfirst : slice.firstTokenIndex ≤ index := by
    by_contra hlt
    have hbefore := hline.getStartOffset_le (Nat.succ_le_of_lt (not_le.1 hlt))
      ((Nat.le_add_right _ _).trans h.count)
    rw [Nat.succ_eq_add_one, getStartOffset_succ] at hbefore
    have hfirst := h.first_le
    omega
  obtain ⟨i, hi⟩ := Nat.exists_eq_add_of_le hfirst
  have hcount : i < slice.tokensCount := by
    by_contra hge
    have hbehind := hline.getStartOffset_le
      (Nat.add_le_add_left (not_lt.1 hge) slice.firstTokenIndex) (hi ▸ hindex.le)
    have hstop := h.behind
    rw [hi] at hstart
    omega
  rw [hi] at hstart hend hindex
  refine ⟨i, hcount, ?_, hstart, hend, fun j hj => ?_, ?_, ?_⟩
  · rw [SliceLineTokens.findTokenIndexAtOffset, h.source, h.start,
      show slice.deltaOffset + k + startOffset - slice.deltaOffset = ((startOffset + k : ℕ) : ℤ) by
        push_cast; ring, ← hdef, hi]
    push_cast
    ring
  · have hbefore := hline.getStartOffset_le (show slice.firstTokenIndex + j + 1 ≤
      slice.firstTokenIndex + i by omega) hindex.le
    rw [getStartOffset_succ] at hbefore
    rw [h.getEndOffset]
    omega
  · rw [h.getEndOffset]
    omega
  · rw [hline.metadata_getElem? hindex hstart hend, SliceLineTokens.getMetadata, h.source]

theorem Window.sliced (hline : line.Valid) : Sliced line startOffset endOffset slice := by
  obtain ⟨hcut, hcut'⟩ := h.cut_ends
  have hle := h.le
  have hlt := h.lt
  have hcontent : slice.getLineContent =
      (line.text.drop startOffset).take (endOffset - startOffset) := by
    rw [SliceLineTokens.getLineContent, h.source, h.start, h.stop,
      JsString.substring_eq _ (by omega) (by omega) (by omega)]
    congr 1
    omega
  obtain ⟨htexts, -⟩ := flatMap_parts line.text
    (partStart line startOffset endOffset slice.firstTokenIndex) slice.getTokenText
    slice.tokensCount
    (fun i => h.cut_mono hline) fun i => h.getTokenText hline
  obtain ⟨hmetadata, -⟩ := flatMap_parts (metadataOf line.tokens)
    (partStart line startOffset endOffset slice.firstTokenIndex)
    (fun i => replicate (slice.getTokenText i).length (slice.getMetadata i)) slice.tokensCount
    (fun i => h.cut_mono hline) fun i => h.getMetadata hline
  rw [hcut, hcut'] at htexts hmetadata
  refine ⟨hcontent, htexts.trans hcontent.symm, hmetadata, h.pos, fun i hi => ?_,
    fun i j hij hj => ?_, ?_, fun k hk => h.found hline hk⟩
  · obtain ⟨-, -, hend, -⟩ := h.part hline hi
    rw [h.getEndOffset]
    omega
  · obtain ⟨-, -, -, -, hindex⟩ := h.part hline hj
    have hmono := hline.getEndOffset_le (Nat.add_le_add_left hij slice.firstTokenIndex) hindex
    rw [h.getEndOffset, h.getEndOffset]
    omega
  · have hbehind := h.behind
    have hpos := h.pos
    rw [show slice.firstTokenIndex + slice.tokensCount =
      slice.firstTokenIndex + (slice.tokensCount - 1) + 1 by omega, getStartOffset_succ] at hbehind
    rw [h.getEndOffset, SliceLineTokens.getCount, min_eq_left hbehind]
    ring

end Sliced

/-- The text and the metadata of every character stay, in a line with insertions and in any slice
of it. -/
theorem withInserted_keeps (line : LineTokens) (insertTokens : List InsertToken)
    (hline : line.Valid) (hsorted : insertTokens.Pairwise fun a b => a.offset ≤ b.offset)
    (hin : ∀ insert ∈ insertTokens, insert.text ≠ [] ∧ insert.offset ≤ line.text.length) :
    (line.withInserted insertTokens).Valid ∧
      (line.withInserted insertTokens).text =
        inserted line.text (insertTokens.map fun insert => (insert.offset, insert.text)) ∧
      metadataOf (line.withInserted insertTokens).tokens =
        inserted (metadataOf line.tokens) (insertTokens.map fun insert =>
          (insert.offset, replicate insert.text.length insert.tokenMetadata)) ∧
      ∀ (startOffset endOffset : ℕ) (deltaOffset : ℤ), startOffset < endOffset →
        endOffset ≤ (line.withInserted insertTokens).text.length →
        ((line.withInserted insertTokens).sliceAndInflate startOffset endOffset
          deltaOffset).deltaOffset = deltaOffset ∧
        Sliced (line.withInserted insertTokens) startOffset endOffset
          ((line.withInserted insertTokens).sliceAndInflate startOffset endOffset deltaOffset) := by
  obtain ⟨hvalid, htext, hmetadata⟩ := withInserted_spec hline hsorted hin
  exact ⟨hvalid, htext, hmetadata, fun _ _ deltaOffset hlt hle =>
    ⟨rfl, (hvalid.window hlt hle deltaOffset).sliced hvalid⟩⟩

/-- Three insertions, two of them at one offset, and one at the end of the line. -/
theorem withInserted_keeps_three :
    let line : LineTokens := ⟨[(2, 7), (4, 8)], [0x61, 0x62, 0x63, 0x64]⟩
    let insertTokens : List InsertToken := [⟨1, [0x78], 1⟩, ⟨1, [0x79], 2⟩, ⟨4, [0x7A], 3⟩]
    (line.withInserted insertTokens).text = [0x61, 0x78, 0x79, 0x62, 0x63, 0x64, 0x7A] ∧
      metadataOf (line.withInserted insertTokens).tokens = [7, 1, 2, 7, 8, 8, 3] ∧
      Sliced (line.withInserted insertTokens) 1 4
        ((line.withInserted insertTokens).sliceAndInflate 1 4 10) := by
  intro line insertTokens
  obtain ⟨-, htext, hmetadata, hsliced⟩ := withInserted_keeps line insertTokens
    ⟨by decide, by decide⟩ (by decide) (by decide)
  exact ⟨htext, hmetadata, (hsliced 1 4 10 (by decide) (by rw [htext]; decide)).2⟩

end CodeOss.LineTokens
