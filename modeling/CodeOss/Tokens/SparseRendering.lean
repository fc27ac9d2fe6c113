import CodeOss.Tokens.EditingSpec
import CodeOss.Tokens.SparseTokensStore

/-! The tokens of a line with sparse tokens laid over them, character by character. -/

namespace CodeOss

open List

namespace SparseTokensStore

open LineTokens Runs MetadataConsts

variable {i offset : ℕ} {bTokens : List SparseToken} {bToken : SparseToken}

variable {aTokens : List (ℕ × ℕ)} {length : ℕ}

theorem endOffset_eq_stop (hi : i < aTokens.length) :
    endOffset aTokens i = Runs.stop 0 (aTokens.take (i + 1)) := by
  rw [Covers.stop_take _ hi, if_pos (Nat.succ_pos i)]
  rfl

theorem startOffset_eq_stop (hi : i ≤ aTokens.length) :
    startOffset aTokens i = Runs.stop 0 (aTokens.take i) :=
  (Covers.stop_take _ hi).symm

theorem startOffset_succ (aTokens : List (ℕ × ℕ)) (i : ℕ) :
    startOffset aTokens (i + 1) = endOffset aTokens i := if_pos (Nat.succ_pos i)

theorem endOffset_le (h : Covers aTokens length) (hi : i < aTokens.length) :
    endOffset aTokens i ≤ length := by
  rw [endOffset_eq_stop hi, ← h.stop]
  conv_rhs => rw [← take_append_drop (i + 1) aTokens]
  have hordered := h.increasing.ordered_zero
  rw [← take_append_drop (i + 1) aTokens, ordered_append] at hordered
  rw [stop_append]
  exact hordered.2.le_stop

theorem startOffset_length (h : Covers aTokens length) :
    startOffset aTokens aTokens.length = length := by
  rw [startOffset_eq_stop le_rfl, take_length, h.stop]

theorem startOffset_le_endOffset (h : Covers aTokens length) (hi : i < aTokens.length) :
    startOffset aTokens i ≤ endOffset aTokens i := by
  obtain ⟨before, token, behind, hcut⟩ := Covers.cutAt hi
  have hordered := h.increasing.ordered_zero
  rw [hcut.split, ordered_append] at hordered
  rw [startOffset_eq_stop hi.le, hcut.take, hcut.endOffset]
  exact hordered.2.1

def metadataAt (aTokens : List (ℕ × ℕ)) (offset : ℕ) : ℕ := (metadataOf aTokens).getD offset 0

theorem metadataAt_eq (h : Covers aTokens length) (hi : i < aTokens.length)
    (hstart : startOffset aTokens i ≤ offset) (hstop : offset < endOffset aTokens i) :
    metadataAt aTokens offset = metadata aTokens i := by
  obtain ⟨before, token, behind, hcut⟩ := Covers.cutAt hi
  have hordered := h.increasing.ordered_zero
  rw [hcut.split, ordered_append] at hordered
  have hlength := hordered.1.length_expand
  rw [startOffset_eq_stop hi.le, hcut.take] at hstart
  rw [hcut.endOffset] at hstop
  rw [metadataAt, metadataOf, hcut.metadata, hcut.split, expand_append, expand_cons,
    getD_append_right _ _ _ _ (by omega), getD_append _ _ _ _ (by
      rw [length_replicate]
      omega), getD_replicate _ (by omega)]

/-- What has been emitted has the wanted metadata, up to the last offset. -/
structure Emitted (wanted : ℕ → ℕ) (emitter : Emitter) : Prop where
  increasing : Increasing emitter.result
  stop : Runs.stop 0 emitter.result = emitter.lastEndOffset
  expand : Runs.expand 0 emitter.result = (List.range emitter.lastEndOffset).map wanted

variable {wanted : ℕ → ℕ} {emitter : Emitter}

theorem emitted_nil (wanted : ℕ → ℕ) : Emitted wanted ⟨[], 0⟩ :=
  ⟨List.Pairwise.nil, rfl, rfl⟩

theorem lastEndOffset_emitToken (emitter : Emitter) (endOffset metadata : ℕ) :
    (emitter.emitToken endOffset metadata).lastEndOffset = max emitter.lastEndOffset endOffset := by
  rw [Emitter.emitToken]
  split_ifs with hle
  · exact (Nat.max_eq_left hle).symm
  · exact (Nat.max_eq_right (not_le.1 hle).le).symm

theorem map_range_append (f : ℕ → ℕ) {n m : ℕ} (h : n ≤ m) {value : ℕ}
    (hvalue : ∀ i, n ≤ i → i < m → f i = value) :
    (List.range m).map f = (List.range n).map f ++ List.replicate (m - n) value := by
  obtain ⟨k, rfl⟩ := Nat.exists_eq_add_of_le h
  rw [range_add, map_append, List.map_map, Nat.add_sub_cancel_left]
  congr 1
  refine eq_replicate_iff.2 ⟨by simp, fun b hb => ?_⟩
  obtain ⟨i, hi, rfl⟩ := mem_map.1 hb
  rw [mem_range] at hi
  exact hvalue (n + i) (Nat.le_add_right n i) (by omega)

theorem Emitted.emitToken (h : Emitted wanted emitter) {endOffset metadata : ℕ}
    (hwanted : ∀ offset, emitter.lastEndOffset ≤ offset → offset < endOffset →
      wanted offset = metadata) : Emitted wanted (emitter.emitToken endOffset metadata) := by
  rw [Emitter.emitToken]
  split_ifs with hle
  · exact h
  · obtain ⟨hincreasing, hstop, hexpand⟩ := h
    refine ⟨?_, ?_, ?_⟩
    · refine Covers.increasing_cut.2 ⟨hincreasing, List.Pairwise.nil, fun e he => ?_, by simp [ends]⟩
      have := le_stop_of_mem hincreasing.ordered_zero he
      simp only
      omega
    · rw [stop_append]
      rfl
    · rw [expand_append, hstop, hexpand, expand_cons, expand_nil, append_nil]
      exact (map_range_append wanted (not_le.1 hle).le hwanted).symm

/-- The tokens of the line in front of `aIndex` have been emitted. -/
structure Reached (aTokens : List (ℕ × ℕ)) (length : ℕ) (wanted : ℕ → ℕ) (aIndex : ℕ)
    (emitter : Emitter) : Prop extends Emitted wanted emitter where
  index : aIndex ≤ aTokens.length
  start : startOffset aTokens aIndex ≤ emitter.lastEndOffset
  within : aIndex < aTokens.length → emitter.lastEndOffset ≤ endOffset aTokens aIndex
  fits : emitter.lastEndOffset ≤ length

section

variable {aIndex : ℕ}

section

variable (h : Reached aTokens length wanted aIndex emitter)
include h

variable (hcovers : Covers aTokens length)
include hcovers

theorem Reached.lastEndOffset_of_le
    (hle : aTokens.length ≤ aIndex) : emitter.lastEndOffset = length := by
  have hstart := h.start
  rw [le_antisymm h.index hle, startOffset_length hcovers] at hstart
  exact le_antisymm h.fits hstart

variable (hindex : aIndex < aTokens.length)
include hindex

theorem Reached.emitPart {endOffset' value : ℕ} (hend : endOffset' ≤ endOffset aTokens aIndex)
    (hwanted : ∀ offset, emitter.lastEndOffset ≤ offset → offset < endOffset' →
    metadataAt aTokens offset = metadata aTokens aIndex → wanted offset = value) :
    Reached aTokens length wanted aIndex (emitter.emitToken endOffset' value) := by
  have hlast := lastEndOffset_emitToken emitter endOffset' value
  have hfits := endOffset_le hcovers hindex
  refine ⟨h.toEmitted.emitToken fun offset hstart hstop => hwanted offset hstart hstop ?_,
    h.index, ?_, fun _ => ?_, ?_⟩
  · exact metadataAt_eq hcovers hindex (h.start.trans hstart) (hstop.trans_le hend)
  · rw [hlast]
    exact h.start.trans (Nat.le_max_left _ _)
  · rw [hlast]
    exact Nat.max_le.2 ⟨h.within hindex, hend⟩
  · rw [hlast]
    exact Nat.max_le.2 ⟨h.fits, hend.trans hfits⟩

theorem Reached.next (hend : endOffset aTokens aIndex ≤ emitter.lastEndOffset) :
    Reached aTokens length wanted (aIndex + 1) emitter := by
  have heq := le_antisymm (h.within hindex) hend
  refine ⟨h.toEmitted, hindex, ?_, fun hnext => ?_, h.fits⟩
  · rw [startOffset_succ]
    exact hend
  · have hle := startOffset_le_endOffset hcovers hnext
    rw [startOffset_succ] at hle
    omega

theorem Reached.emitWhole
    {value : ℕ} (hwanted : ∀ offset, emitter.lastEndOffset ≤ offset → offset < endOffset aTokens
    aIndex → metadataAt aTokens offset = metadata aTokens aIndex → wanted offset = value) : Reached
    aTokens length wanted (aIndex + 1) (emitter.emitToken (endOffset aTokens aIndex) value) := by
  refine (h.emitPart hcovers hindex le_rfl hwanted).next hcovers hindex ?_
  rw [lastEndOffset_emitToken]
  exact Nat.le_max_right _ _

end

variable (hcovers : Covers aTokens length)
include hcovers

theorem pushBefore_spec {bStartCharacter : ℕ}
    (h : Reached aTokens length wanted aIndex emitter) (hwanted : ∀ offset, emitter.lastEndOffset ≤
    offset → offset < bStartCharacter → wanted offset = metadataAt aTokens offset) :
    Reached aTokens length wanted (pushBefore aTokens bStartCharacter aIndex emitter).1
    (pushBefore aTokens bStartCharacter aIndex emitter).2 ∧
    emitter.lastEndOffset ≤ (pushBefore aTokens bStartCharacter aIndex emitter).2.lastEndOffset ∧
    ((pushBefore aTokens bStartCharacter aIndex emitter).1 < aTokens.length →
    bStartCharacter < endOffset aTokens (pushBefore aTokens bStartCharacter aIndex emitter).1) := by
  fun_induction pushBefore aTokens bStartCharacter aIndex emitter with
  | case1 aIndex emitter hgoes ih =>
    have hlast := lastEndOffset_emitToken emitter (endOffset aTokens aIndex)
      (metadata aTokens aIndex)
    have hnext := h.emitWhole hcovers hgoes.1 fun offset hstart hstop hmetadata =>
      (hwanted offset hstart (hstop.trans_le hgoes.2)).trans hmetadata
    obtain ⟨hreached, hmono, hbehind⟩ := ih hnext fun offset hstart hstop =>
      hwanted offset (by omega) hstop
    exact ⟨hreached, by omega, hbehind⟩
  | case2 aIndex emitter hstops =>
    exact ⟨h, le_rfl, fun hindex => not_le.1 fun hle => hstops ⟨hindex, hle⟩⟩

theorem pushInside_spec
    {bEndCharacter bMetadata : ℕ} (h : Reached aTokens length wanted aIndex emitter)
    (hwanted : ∀ offset, emitter.lastEndOffset ≤ offset →
    offset < bEndCharacter → wanted offset = mergeMetadata (metadataAt aTokens offset) bMetadata) :
    Reached aTokens length wanted (pushInside aTokens bEndCharacter bMetadata aIndex emitter).1
    (pushInside aTokens bEndCharacter bMetadata aIndex emitter).2 ∧ emitter.lastEndOffset ≤
    (pushInside aTokens bEndCharacter bMetadata aIndex emitter).2.lastEndOffset ∧
    ((pushInside aTokens bEndCharacter bMetadata aIndex emitter).1 < aTokens.length → bEndCharacter
    ≤ endOffset aTokens (pushInside aTokens bEndCharacter bMetadata aIndex emitter).1) := by
  fun_induction pushInside aTokens bEndCharacter bMetadata aIndex emitter with
  | case1 aIndex emitter hgoes ih =>
    have hlast := lastEndOffset_emitToken emitter (endOffset aTokens aIndex)
      (mergeMetadata (metadata aTokens aIndex) bMetadata)
    have hnext := h.emitWhole hcovers hgoes.1 fun offset hstart hstop hmetadata =>
      hmetadata ▸ hwanted offset hstart (hstop.trans hgoes.2)
    obtain ⟨hreached, hmono, hbehind⟩ := ih hnext fun offset hstart hstop =>
      hwanted offset (by omega) hstop
    exact ⟨hreached, by omega, hbehind⟩
  | case2 aIndex emitter hstops =>
    exact ⟨h, le_rfl, fun hindex => not_lt.1 fun hlt => hstops ⟨hindex, hlt⟩⟩

theorem pushRemaining_spec (h : Reached aTokens length wanted aIndex emitter) (hwanted : ∀ offset,
    emitter.lastEndOffset ≤ offset → offset < length → wanted offset = metadataAt aTokens offset) :
    Emitted wanted (pushRemaining aTokens aIndex emitter) ∧
    (pushRemaining aTokens aIndex emitter).lastEndOffset = length := by
  fun_induction pushRemaining aTokens aIndex emitter with
  | case1 aIndex emitter hindex ih =>
    have hlast := lastEndOffset_emitToken emitter (endOffset aTokens aIndex)
      (metadata aTokens aIndex)
    have hnext := h.emitWhole hcovers hindex fun offset hstart hstop hmetadata =>
      (hwanted offset hstart (hstop.trans_le (endOffset_le hcovers hindex))).trans hmetadata
    exact ih hnext fun offset hstart hstop => hwanted offset (by omega) hstop
  | case2 aIndex emitter hdone =>
    exact ⟨h.toEmitted, h.lastEndOffset_of_le hcovers (not_lt.1 hdone)⟩

end

def tokenOver (bTokens : List SparseToken) (offset : ℕ) : Option SparseToken :=
  bTokens.find? fun token => token.startCharacter ≤ offset ∧ offset < token.endCharacter

/-- The metadata of a character, overridden by the sparse token over it. -/
def overridden (aTokens : List (ℕ × ℕ)) (bTokens : List SparseToken) (offset : ℕ) : ℕ :=
  match tokenOver bTokens offset with
  | none => metadataAt aTokens offset
  | some token => mergeMetadata (metadataAt aTokens offset) token.metadata

/-- The sparse tokens of a line are sorted and disjoint. -/
def Separate (bTokens : List SparseToken) : Prop :=
  bTokens.Pairwise fun token other => token.endCharacter ≤ other.startCharacter

theorem overridden_before (h : ∀ token ∈ bTokens, offset < token.startCharacter) :
    overridden aTokens bTokens offset = metadataAt aTokens offset := by
  have hnone : tokenOver bTokens offset = none := by
    refine find?_eq_none.2 fun token htoken hover => ?_
    exact absurd (of_decide_eq_true hover).1 (not_le.2 (h token htoken))
  rw [overridden, hnone]

theorem overridden_over (hstart : bToken.startCharacter ≤ offset)
    (hend : offset < bToken.endCharacter) (bTokens : List SparseToken) : overridden aTokens
    (bToken :: bTokens) offset = mergeMetadata (metadataAt aTokens offset) bToken.metadata := by
  rw [overridden, tokenOver, find?_cons_of_pos]
  exact decide_eq_true ⟨hstart, hend⟩

theorem overridden_behind (hend : bToken.endCharacter ≤ offset) (bTokens : List SparseToken) :
    overridden aTokens (bToken :: bTokens) offset = overridden aTokens bTokens offset := by
  rw [overridden, tokenOver, find?_cons_of_neg]
  · rfl
  · exact fun hover => absurd (of_decide_eq_true hover).2 (not_lt.2 hend)

variable {aIndex : ℕ}

section

variable (hcovers : Covers aTokens length)
include hcovers

theorem emitStart_spec {bStartCharacter : ℕ} (h : Reached aTokens length wanted aIndex emitter)
    (hbehind : aIndex < aTokens.length → bStartCharacter < endOffset aTokens aIndex)
    (hle : bStartCharacter ≤ length)
    (hwanted : ∀ offset, emitter.lastEndOffset ≤ offset → offset < bStartCharacter →
      wanted offset = metadataAt aTokens offset) :
    let emitted := if aIndex < aTokens.length ∧ startOffset aTokens aIndex < bStartCharacter then
        emitter.emitToken bStartCharacter (metadata aTokens aIndex)
      else emitter
    Reached aTokens length wanted aIndex emitted ∧
      emitter.lastEndOffset ≤ emitted.lastEndOffset ∧ bStartCharacter ≤ emitted.lastEndOffset := by
  simp only
  split_ifs with hpart
  · have hlast := lastEndOffset_emitToken emitter bStartCharacter (metadata aTokens aIndex)
    refine ⟨h.emitPart hcovers hpart.1 (hbehind hpart.1).le fun offset hstart hstop hmetadata =>
      (hwanted offset hstart hstop).trans hmetadata, by omega, by omega⟩
  · refine ⟨h, le_rfl, ?_⟩
    rcases Nat.lt_or_ge aIndex aTokens.length with hlt | hge
    · have hstart := h.start
      omega
    · rwa [h.lastEndOffset_of_le hcovers hge]

theorem pushToken_spec (hne : bToken.startCharacter < bToken.endCharacter)
    (hseparate : ∀ other ∈ bTokens, bToken.endCharacter ≤ other.startCharacter)
    (h : Reached aTokens length wanted aIndex emitter) (hwanted : ∀ offset, emitter.lastEndOffset ≤
    offset → offset < length → wanted offset = overridden aTokens (bToken :: bTokens) offset) :
    Reached aTokens length wanted (pushToken aTokens length bToken aIndex emitter).1
    (pushToken aTokens length bToken aIndex emitter).2 ∧
    ∀ offset, (pushToken aTokens length bToken aIndex emitter).2.lastEndOffset ≤ offset →
    offset < length → wanted offset = overridden aTokens bTokens offset := by
  obtain ⟨hbefore, hmono, hbehind⟩ := @pushBefore_spec _ _ _ _ _ hcovers
    (min bToken.startCharacter length) h fun offset hstart hstop => by
      rw [hwanted offset hstart (by omega)]
      refine overridden_before (forall_mem_cons.2 ⟨by omega, fun other hother => ?_⟩)
      have := hseparate other hother
      omega
  rw [pushToken]
  simp only
  generalize pushBefore aTokens (min bToken.startCharacter length) aIndex emitter = before
    at hbefore hmono hbehind ⊢
  obtain ⟨aIndex₁, emitter₁⟩ := before
  simp only at hbefore hmono hbehind ⊢
  obtain ⟨hreached, hmono', hstarts⟩ := emitStart_spec hcovers hbefore hbehind
    (Nat.min_le_right _ _) fun offset hstart hstop => by
      rw [hwanted offset (hmono.trans hstart) (by omega)]
      refine overridden_before (forall_mem_cons.2 ⟨by omega, fun other hother => ?_⟩)
      have := hseparate other hother
      omega
  generalize (if aIndex₁ < aTokens.length ∧
    startOffset aTokens aIndex₁ < min bToken.startCharacter length then
      emitter₁.emitToken (min bToken.startCharacter length) (metadata aTokens aIndex₁)
    else emitter₁) = emitter₂ at hreached hmono' hstarts ⊢
  obtain ⟨hinside, hmono₂, hcontained⟩ := @pushInside_spec _ _ _ _ _ hcovers
    (min bToken.endCharacter length) bToken.metadata hreached
    fun offset hstart hstop => by
      rw [hwanted offset (by omega) (by omega)]
      exact overridden_over (by omega) (by omega) bTokens
  generalize pushInside aTokens (min bToken.endCharacter length) bToken.metadata aIndex₁
    emitter₂ = inside at hinside hmono₂ hcontained ⊢
  obtain ⟨aIndex₃, emitter₃⟩ := inside
  simp only at hinside hmono₂ hcontained ⊢
  have hover (offset : ℕ) (hstart : emitter₃.lastEndOffset ≤ offset)
      (hstop : offset < min bToken.endCharacter length) : wanted offset =
        mergeMetadata (metadataAt aTokens offset) bToken.metadata := by
    rw [hwanted offset (by omega) (by omega)]
    exact overridden_over (by omega) (by omega) bTokens
  have hrest (offset : ℕ) (hstart : min bToken.endCharacter length ≤ offset)
      (hlast : emitter₃.lastEndOffset ≤ offset) (hstop : offset < length) :
      wanted offset = overridden aTokens bTokens offset := by
    rw [hwanted offset (by omega) hstop]
    exact overridden_behind (by omega) bTokens
  by_cases hindex : aIndex₃ < aTokens.length
  · rw [if_pos hindex]
    simp only
    have hlast := lastEndOffset_emitToken emitter₃ (min bToken.endCharacter length)
      (mergeMetadata (metadata aTokens aIndex₃) bToken.metadata)
    have hemitted := hinside.emitPart hcovers hindex (hcontained hindex)
      fun offset hstart hstop hmetadata => hmetadata ▸ hover offset hstart hstop
    refine ⟨?_, fun offset hstart hstop => hrest offset (by omega) (by omega) hstop⟩
    split_ifs with hsame
    · exact hemitted.next hcovers hindex (by omega)
    · exact hemitted
  · rw [if_neg hindex]
    simp only
    have hlast := hinside.lastEndOffset_of_le hcovers (not_lt.1 hindex)
    have hskip : emitter₃.emitToken (min bToken.endCharacter length)
        (mergeMetadata (metadata aTokens (min (aIndex₃ - 1) (aTokens.length - 1)))
          bToken.metadata) = emitter₃ := if_pos (by omega)
    rw [hskip]
    exact ⟨hinside, fun offset hstart hstop => absurd hstop (by omega)⟩

theorem pushTokens_spec (hne : ∀ token ∈ bTokens, token.startCharacter < token.endCharacter)
    (hseparate : Separate bTokens) (h : Reached aTokens length wanted aIndex emitter)
    (hwanted : ∀ offset, emitter.lastEndOffset ≤ offset → offset < length →
    wanted offset = overridden aTokens bTokens offset) : Reached aTokens length wanted (pushTokens
    aTokens length aIndex emitter bTokens).1 (pushTokens aTokens length aIndex emitter bTokens).2 ∧
    ∀ offset, (pushTokens aTokens length aIndex emitter bTokens).2.lastEndOffset ≤ offset →
    offset < length → wanted offset = metadataAt aTokens offset := by
  induction bTokens generalizing aIndex emitter with
  | nil => exact ⟨h, hwanted⟩
  | cons bToken bTokens ih =>
    obtain ⟨hhead, htail⟩ := forall_mem_cons.1 hne
    obtain ⟨hbehind, hrest⟩ := pairwise_cons.1 hseparate
    obtain ⟨hreached, hleft⟩ := pushToken_spec hcovers hhead hbehind h hwanted
    exact ih htail hrest hreached hleft

end

theorem pushTokens_covers (hcovers : Covers aTokens length) {bTokens : List SparseToken}
    (hne : ∀ token ∈ bTokens, token.startCharacter < token.endCharacter)
    (hseparate : Separate bTokens) (hpos : 0 < length) :
    let pushed := pushTokens aTokens length 0 ⟨[], 0⟩ bTokens
    Covers (pushRemaining aTokens pushed.1 pushed.2).result length ∧
      ∀ offset < length, metadataAt (pushRemaining aTokens pushed.1 pushed.2).result offset =
        overridden aTokens bTokens offset := by
  have hstart : Reached aTokens length (overridden aTokens bTokens) 0 ⟨[], 0⟩ :=
    ⟨emitted_nil _, Nat.zero_le _, le_rfl, fun _ => Nat.zero_le _, Nat.zero_le _⟩
  obtain ⟨hreached, hleft⟩ := pushTokens_spec hcovers hne hseparate hstart fun _ _ _ => rfl
  obtain ⟨⟨hincreasing, hstop, hexpand⟩, hlast⟩ := pushRemaining_spec hcovers hreached hleft
  rw [hlast] at hstop hexpand
  refine ⟨⟨fun hnil => ?_, hincreasing, hstop⟩, fun offset hoffset => ?_⟩
  · rw [hnil] at hstop
    exact hpos.ne hstop
  · rw [metadataAt, metadataOf, hexpand, List.getD_eq_getElem _ _ (by simpa using hoffset),
      List.getElem_map, List.getElem_range]

end SparseTokensStore

end CodeOss
