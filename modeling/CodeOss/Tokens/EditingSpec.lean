import CodeOss.Tokens.ContiguousTokensEditing

/-! What the editing functions do to the metadata, character by character. -/

namespace CodeOss

open LineTokens Runs List

/-- The tokens of a line of `length` characters. -/
structure Covers (tokens : List (ℕ × ℕ)) (length : ℕ) : Prop where
  ne_nil : tokens ≠ []
  increasing : Increasing tokens
  stop : stop 0 tokens = length

/-- The metadata of the characters of a line, one by one. -/
def metadataOf (tokens : List (ℕ × ℕ)) : List ℕ := expand 0 tokens

def NoneEmpty (tokens : List (ℕ × ℕ)) : Prop := ∀ e ∈ ends tokens, 0 < e

namespace Covers

variable {tokens : List (ℕ × ℕ)} {length : ℕ}

theorem length_metadataOf (h : Covers tokens length) : (metadataOf tokens).length = length := by
  rw [metadataOf, h.increasing.ordered_zero.length_expand, h.stop, Nat.sub_zero]

theorem lineTextLength_eq (h : Covers tokens length) :
    ContiguousTokensEditing.lineTextLength tokens = length := by
  obtain ⟨hne, -, rfl⟩ := h
  obtain ⟨tokens, last, rfl⟩ := (eq_nil_or_concat' tokens).resolve_left hne
  rw [stop_append, ContiguousTokensEditing.lineTextLength, endOffset]
  simp

variable {i : ℕ} {before behind : List (ℕ × ℕ)} {token : ℕ × ℕ}

theorem stop_take (tokens : List (ℕ × ℕ)) (hi : i ≤ tokens.length) :
    Runs.stop 0 (tokens.take i) = if 0 < i then endOffset tokens (i - 1) else 0 := by
  cases i with
  | zero => rfl
  | succ i =>
    rw [if_pos (Nat.succ_pos i), take_add_one, stop_append, Nat.add_sub_cancel, endOffset,
      getElem?_eq_getElem hi]
    simp [getElem?_eq_getElem hi]

/-- A line cut at the token its offset lies in. -/
structure CutAt (tokens : List (ℕ × ℕ)) (i : ℕ) (before : List (ℕ × ℕ)) (token : ℕ × ℕ)
    (behind : List (ℕ × ℕ)) : Prop where
  split : tokens = before ++ token :: behind
  before_length : before.length = i

theorem cutAt (hi : i < tokens.length) :
    ∃ before token behind, CutAt tokens i before token behind := by
  refine ⟨tokens.take i, tokens[i], tokens.drop (i + 1), ?_, length_take_of_le hi.le⟩
  rw [cons_getElem_drop_succ, take_append_drop]

section

variable (h : CutAt tokens i before token behind)
include h

theorem CutAt.endOffset : endOffset tokens i = token.1 := by
  rw [LineTokens.endOffset, h.split, ← h.before_length, getD_append_right _ _ _ _ le_rfl,
    Nat.sub_self]
  rfl

theorem CutAt.metadata : metadata tokens i = token.2 := by
  rw [LineTokens.metadata, h.split, ← h.before_length, getD_append_right _ _ _ _ le_rfl,
    Nat.sub_self]
  rfl

theorem CutAt.take : tokens.take i = before := by
  rw [h.split, take_left' h.before_length]

theorem CutAt.drop : tokens.drop i = token :: behind := by
  rw [h.split, drop_left' h.before_length]

theorem CutAt.drop_succ : tokens.drop (i + 1) = behind := by
  rw [← List.drop_drop, h.drop]
  rfl

end

theorem increasing_cut : Increasing (before ++ token :: behind) ↔ Increasing before ∧
    Increasing behind ∧ (∀ e ∈ ends before, e < token.1) ∧ (∀ e ∈ ends behind, token.1 < e) := by
  simp only [Increasing, ends, map_append, map_cons, pairwise_append,
    pairwise_cons, forall_mem_cons]
  constructor
  · rintro ⟨hbefore, ⟨hhead, hbehind⟩, hcross⟩
    exact ⟨hbefore, hbehind, fun e he => (hcross e he).1, hhead⟩
  · rintro ⟨hbefore, hbehind, hlast, hhead⟩
    exact ⟨hbefore, ⟨hhead, hbehind⟩,
      fun e he => ⟨hlast e he, fun e' he' => (hlast e he).trans (hhead e' he')⟩⟩

end Covers

namespace ContiguousTokensEditing

open Covers

variable {tokens : List (ℕ × ℕ)} {length : ℕ}

theorem delete_all (h : Covers tokens length) (hpos : 0 < length) :
    delete (.array tokens) 0 length = .EMPTY_LINE_TOKENS := by
  rw [delete, if_neg hpos.ne, if_pos ⟨rfl, h.lineTextLength_eq⟩]

variable {before behind : List (ℕ × ℕ)} {token : ℕ × ℕ} {start stop : ℕ}

theorem delete_within (h : Covers (before ++ token :: behind) length)
    (hbefore : Runs.stop 0 before ≤ start) (hstart : start < stop) (hstop : stop < token.1) :
    let result := before ++ (token :: behind).map (moveLeft (stop - start))
    Covers result (length - (stop - start)) ∧
      metadataOf result = (metadataOf (before ++ token :: behind)).take start ++
        (metadataOf (before ++ token :: behind)).drop stop ∧
      (NoneEmpty (before ++ token :: behind) → NoneEmpty result) := by
  obtain ⟨hbefore', hbehind, hlast, hhead⟩ := increasing_cut.1 h.increasing
  have hordered : Ordered 0 before := hbefore'.ordered_zero
  have hrest : Ordered token.1 behind := hbehind.ordered fun e he => (hhead e he).le
  have hlen := hordered.length_expand
  have hends := stop_append 0 before (token :: behind)
  rw [h.stop] at hends
  have hall := hrest.le_stop
  refine ⟨⟨by simp, ?_, ?_⟩, ?_, fun hfull e he => ?_⟩
  · rw [map_cons, increasing_cut]
    refine ⟨hbefore', ?_, fun e he => ?_, fun e he => ?_⟩
    · rw [Increasing, ends_moveLeft, pairwise_map]
      refine List.Pairwise.imp_of_mem (fun ha _ hab => ?_) hbehind
      have := hhead _ ha
      omega
    · have := le_stop_of_mem hordered he
      simp only [moveLeft]
      omega
    · rw [ends_moveLeft] at he
      obtain ⟨e', he', rfl⟩ := mem_map.1 he
      have := hhead e' he'
      simp only [moveLeft]
      omega
  · rw [stop_append, map_cons, stop_cons, hends, stop_cons]
    exact stop_moveLeft (stop - start) token.1 behind
  · have hmoved := @expand_moveLeft _ (stop - start) token.1 behind (by omega) hrest
    rw [metadataOf, metadataOf, expand_append, expand_append, map_cons, expand_cons,
      expand_cons, take_append, drop_append, take_append, drop_append,
      take_of_length_le (by omega), @List.drop_eq_nil_of_le _ (expand 0 before) _ (by omega),
      take_replicate, drop_replicate, length_replicate, hlen]
    simp only [moveLeft] at hmoved ⊢
    rw [hmoved]
    have htake : start - (Runs.stop 0 before - 0) - (token.1 - Runs.stop 0 before) = 0 := by omega
    have hdrop : stop - (Runs.stop 0 before - 0) - (token.1 - Runs.stop 0 before) = 0 := by omega
    rw [htake, hdrop, take_zero, drop_zero, append_nil, nil_append, append_assoc, ← append_assoc
      (List.replicate _ _) (List.replicate _ _), ← replicate_add]
    congr 3
    omega
  · rw [ends, map_append, List.mem_append, ← ends, ← ends, ends_moveLeft] at he
    rcases he with he | he
    · exact hfull e (by rw [ends, map_append]; exact mem_append_left _ he)
    · obtain ⟨e', he', rfl⟩ := mem_map.1 he
      rcases mem_cons.1 he' with rfl | he'
      · omega
      · have := hhead e' he'
        omega

theorem keep_spec (value : ℕ) (h : Increasing before) (hbefore : Runs.stop 0 before ≤ start) :
    let kept := if Runs.stop 0 before ≠ start then before ++ [(start, value)] else before
    Runs.stop 0 kept = start ∧
      expand 0 kept = expand 0 before ++ List.replicate (start - Runs.stop 0 before) value ∧
      Increasing kept ∧ (∀ e ∈ ends kept, e ≤ start) ∧
      (NoneEmpty before → NoneEmpty kept) := by
  have hends : ∀ e ∈ ends before, e ≤ Runs.stop 0 before := fun e he =>
    le_stop_of_mem h.ordered_zero he
  simp only
  split_ifs with hne
  · have hpos : 0 < start := by omega
    refine ⟨stop_append 0 before [(start, value)], ?_, ?_, fun e he => ?_, fun hfull e he => ?_⟩
    · rw [expand_append, expand_cons, expand_nil, append_nil]
    · refine increasing_cut.2 ⟨h, List.Pairwise.nil, fun e he => ?_, by simp [ends]⟩
      exact (hends e he).trans_lt (lt_of_le_of_ne hbefore hne)
    · rw [ends, map_append, List.mem_append, ← ends] at he
      rcases he with he | he
      · exact (hends e he).trans hbefore
      · exact (mem_singleton.1 he).le
    · rw [ends, map_append, List.mem_append, ← ends] at he
      rcases he with he | he
      · exact hfull e he
      · rwa [mem_singleton.1 he]
  · have heq := not_not.1 hne
    refine ⟨heq, ?_, h, fun e he => heq ▸ hends e he, id⟩
    rw [heq, Nat.sub_self, replicate_zero, append_nil]

theorem delete_across (h : Covers (before ++ token :: behind) length)
    (hbefore : Runs.stop 0 before ≤ start) (hstart : start < token.1) (htoken : token.1 ≤ stop)
    (hstop : stop ≤ length) (hpart : ¬(start = 0 ∧ length = stop)) :
    let result := (if Runs.stop 0 before ≠ start then before ++ [(start, token.2)] else before) ++
      trim (stop - start) start behind
    Covers result (length - (stop - start)) ∧
      metadataOf result = (metadataOf (before ++ token :: behind)).take start ++
        (metadataOf (before ++ token :: behind)).drop stop ∧
      (NoneEmpty (before ++ token :: behind) → NoneEmpty result) := by
  obtain ⟨hbefore', hbehind, hlast, hhead⟩ := increasing_cut.1 h.increasing
  have hordered : Ordered 0 before := hbefore'.ordered_zero
  have hlen := hordered.length_expand
  have hends := stop_append 0 before (token :: behind)
  rw [h.stop, stop_cons] at hends
  obtain ⟨hexpand, hstop', hincreasing, habove⟩ :=
    @trim_spec _ (stop - start) start token.1 behind hbehind hhead (by omega)
  obtain ⟨hkeptStop, hkeptExpand, hkeptIncreasing, hkeptEnds, hkeptFull⟩ :=
    keep_spec token.2 hbefore' hbefore
  set kept := if Runs.stop 0 before ≠ start then before ++ [(start, token.2)] else before
  refine ⟨⟨fun hnil => ?_, ?_, ?_⟩, ?_, fun hfull e he => ?_⟩
  · obtain ⟨hkeptNil, htrimNil⟩ := append_eq_nil_iff.1 hnil
    rw [hkeptNil] at hkeptStop
    rw [htrimNil] at hstop'
    simp only [stop_nil] at hkeptStop hstop'
    omega
  · rw [Increasing, ends, map_append, pairwise_append]
    exact ⟨hkeptIncreasing, hincreasing,
      fun e he e' he' => (hkeptEnds e he).trans_lt (habove e' he')⟩
  · rw [stop_append, hkeptStop, hstop', ← hends]
    omega
  · rw [metadataOf, metadataOf, expand_append, hkeptStop, hkeptExpand, hexpand, expand_append,
      expand_cons, take_append, drop_append, take_append, drop_append,
      take_of_length_le (by omega), @List.drop_eq_nil_of_le _ (expand 0 before) _ (by omega),
      take_replicate, drop_replicate, length_replicate, hlen, Nat.sub_zero,
      nil_append, Nat.min_eq_left (by omega)]
    have htake : start - Runs.stop 0 before - (token.1 - Runs.stop 0 before) = 0 := by omega
    have hgone : token.1 - Runs.stop 0 before - (stop - Runs.stop 0 before) = 0 := by omega
    have hdrop : start + (stop - start) - token.1 =
        stop - Runs.stop 0 before - (token.1 - Runs.stop 0 before) := by omega
    rw [htake, hgone, hdrop, take_zero, replicate_zero, append_nil, nil_append]
  · rw [ends, map_append, List.mem_append, ← ends, ← ends] at he
    rcases he with he | he
    · refine hkeptFull (fun e he => hfull e ?_) e he
      rw [ends, map_append]
      exact mem_append_left _ he
    · exact (Nat.zero_le start).trans_lt (habove e he)

theorem delete_spec (h : Covers tokens length) (hlt : start < stop) (hstop : stop ≤ length)
    (hpart : ¬(start = 0 ∧ length = stop)) : ∃ result, delete (.array tokens) start stop = .array
    result ∧ Covers result (length - (stop - start)) ∧ metadataOf result = (metadataOf tokens).take
    start ++ (metadataOf tokens).drop stop ∧ (NoneEmpty tokens → NoneEmpty result) := by
  have hfound := findIndexInTokensArray_spec h.increasing h.ne_nil start
  set i := findIndexInTokensArray tokens start with hi
  obtain ⟨before, token, behind, hcut⟩ := cutAt hfound.lt
  have hbefore : Runs.stop 0 before ≤ start := by
    rw [← hcut.take, stop_take _ hfound.lt.le]
    split_ifs with hpos
    · exact hfound.before _ (by omega)
    · exact Nat.zero_le _
  have htoken : start < token.1 := by
    rw [← hcut.endOffset]
    by_cases hlast : i + 1 < tokens.length
    · exact hfound.within hlast
    · have hlen := h.lineTextLength_eq
      have hlt := hfound.lt
      rw [lineTextLength, show tokens.length - 1 = i by omega] at hlen
      omega
  have hcovers := h
  rw [hcut.split] at hcovers
  rw [delete, if_neg hlt.ne, if_neg (by rwa [h.lineTextLength_eq])]
  simp only [← hi, hcut.endOffset]
  split_ifs with hwithin
  · rw [hcut.take, hcut.drop]
    refine ⟨_, rfl, ?_⟩
    rw [hcut.split]
    exact delete_within hcovers hbefore hlt hwithin
  · have hstart : (if 0 < i then endOffset tokens (i - 1) else 0) = Runs.stop 0 before := by
      rw [← stop_take tokens hfound.lt.le, hcut.take]
    have hacross := delete_across hcovers hbefore htoken (by omega) hstop hpart
    refine ⟨_, rfl, ?_⟩
    rw [deleteAcross, hstart, hcut.take, hcut.metadata, hcut.drop_succ, hcut.split]
    simp only at hacross ⊢
    split_ifs at hacross ⊢ with hne
    · exact hacross
    · rw [not_not.1 hne]
      exact hacross

theorem append_spec {otherTokens : List (ℕ × ℕ)} {otherLength : ℕ} (h : Covers tokens length)
    (hother : Covers otherTokens otherLength) (hfull : NoneEmpty otherTokens) : ∃ result, append
    (.array tokens) (.array otherTokens) = .array result ∧ Covers result (length + otherLength) ∧
    metadataOf result = metadataOf tokens ++ metadataOf otherTokens := by
  have hmoved : Runs.stop length (otherTokens.map (moveRight length)) = otherLength + length := by
    rw [← hother.stop, ← stop_moveRight, Nat.zero_add]
  refine ⟨_, rfl, ⟨?_, ?_, ?_⟩, ?_⟩
  · exact fun hnil => h.ne_nil (append_eq_nil_iff.1 hnil).1
  · rw [h.lineTextLength_eq, Increasing, ends, map_append, pairwise_append, ← ends, ← ends,
      ends_moveRight]
    refine ⟨h.increasing, ?_, fun e he e' he' => ?_⟩
    · rw [← ends_moveRight]
      exact hother.increasing.moveRight length
    · obtain ⟨e'', he'', rfl⟩ := mem_map.1 he'
      have hle := le_stop_of_mem h.increasing.ordered_zero he
      have := hfull e'' he''
      rw [h.stop] at hle
      omega
  · rw [h.lineTextLength_eq, stop_append, h.stop, hmoved, Nat.add_comm]
  · rw [h.lineTextLength_eq, metadataOf, metadataOf, metadataOf, expand_append, h.stop]
    have hexpand := expand_moveRight length 0 otherTokens
    rw [Nat.zero_add] at hexpand
    rw [hexpand]

theorem insert_grow {chIndex : ℕ} (h : Covers (before ++ token :: behind) length)
    (hbefore : Runs.stop 0 before ≤ chIndex) (htoken : chIndex ≤ token.1) (textLength : ℕ) :
    let result := before ++ (token :: behind).map (moveRight textLength)
    Covers result (length + textLength) ∧
      metadataOf result = (metadataOf (before ++ token :: behind)).take chIndex ++
        List.replicate textLength token.2 ++
        (metadataOf (before ++ token :: behind)).drop chIndex := by
  obtain ⟨hbefore', hbehind, hlast, hhead⟩ := increasing_cut.1 h.increasing
  have hlen := hbefore'.ordered_zero.length_expand
  have hends := stop_append 0 before (token :: behind)
  rw [h.stop, stop_cons] at hends
  refine ⟨⟨by simp, ?_, ?_⟩, ?_⟩
  · rw [map_cons, increasing_cut]
    refine ⟨hbefore', Increasing.moveRight hbehind textLength, fun e he => ?_, fun e he => ?_⟩
    · exact (hlast e he).trans_le (Nat.le_add_right _ _)
    · rw [ends_moveRight] at he
      obtain ⟨e', he', rfl⟩ := mem_map.1 he
      exact Nat.add_lt_add_right (hhead e' he') textLength
  · rw [stop_append, map_cons, stop_cons, hends]
    exact stop_moveRight textLength token.1 behind
  · rw [metadataOf, metadataOf, expand_append, expand_append,
      expand_grow behind (hbefore.trans htoken), expand_cons, take_append, drop_append,
      take_append, drop_append, take_of_length_le (by omega),
      @List.drop_eq_nil_of_le _ (expand 0 before) _ (by omega), take_replicate,
      drop_replicate, length_replicate, hlen, Nat.sub_zero, nil_append,
      Nat.min_eq_left (by omega)]
    have hrest : chIndex - Runs.stop 0 before - (token.1 - Runs.stop 0 before) = 0 := by omega
    rw [hrest, take_zero, drop_zero, append_nil]
    simp only [← append_assoc]
    congr 1
    rw [append_assoc, append_assoc, append_assoc, ← replicate_add, ← replicate_add, ← replicate_add]
    congr 2
    omega

theorem insert_spec (h : Covers tokens length) {chIndex : ℕ} (hch : chIndex ≤ length)
    (textLength : ℕ) : ∃ result value, insert (.array tokens) chIndex textLength = .array result ∧
    Covers result (length + textLength) ∧ metadataOf result = (metadataOf tokens).take chIndex ++
    List.replicate textLength value ++ (metadataOf tokens).drop chIndex := by
  have hfound := findIndexInTokensArray_spec h.increasing h.ne_nil chIndex
  set index := findIndexInTokensArray tokens chIndex with hindex
  set i := if 0 < index ∧ endOffset tokens (index - 1) = chIndex then index - 1 else index with hi
  have hle : i ≤ index := by
    rw [hi]
    split_ifs <;> omega
  have hlt : i < tokens.length := hle.trans_lt hfound.lt
  obtain ⟨before, token, behind, hcut⟩ := cutAt hlt
  have hbefore : Runs.stop 0 before ≤ chIndex := by
    rw [← hcut.take, stop_take _ hlt.le]
    split_ifs with hpos
    · exact hfound.before _ (by omega)
    · exact Nat.zero_le _
  have htoken : chIndex ≤ token.1 := by
    rw [← hcut.endOffset]
    by_cases hprevious : 0 < index ∧ endOffset tokens (index - 1) = chIndex
    · rw [hi, if_pos hprevious, hprevious.2]
    · rw [hi, if_neg hprevious]
      by_cases hlast : index + 1 < tokens.length
      · exact (hfound.within hlast).le
      · have hlen := h.lineTextLength_eq
        have hlt := hfound.lt
        rw [lineTextLength, show tokens.length - 1 = index by omega] at hlen
        omega
  have hcovers := h
  rw [hcut.split] at hcovers
  refine ⟨_, token.2, rfl, ?_⟩
  simp only [← hindex, ← hi, hcut.take, hcut.drop]
  have hgrow := insert_grow hcovers hbefore htoken textLength
  rw [← hcut.split] at hgrow
  exact hgrow

end ContiguousTokensEditing

end CodeOss
