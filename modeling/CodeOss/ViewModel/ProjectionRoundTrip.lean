import CodeOss.ViewModel.ModelLineProjectionData

/-! Offsets of a wrapped line come back from its output, and positions in output order stand for
offsets in order. -/

namespace CodeOss.ViewModel

open List

def injectedLength (l : List Injection) : ℤ := (l.map Injection.length).sum

@[simp] theorem injectedLength_nil : injectedLength [] = 0 := rfl

@[simp] theorem injectedLength_cons (t : Injection) (l : List Injection) :
    injectedLength (t :: l) = t.length + injectedLength l := by
  simp [injectedLength]

@[simp] theorem injectedLength_append (l m : List Injection) :
    injectedLength (l ++ m) = injectedLength l + injectedLength m := by
  simp [injectedLength]

@[simp] theorem injectedLength_reverse (l : List Injection) :
    injectedLength l.reverse = injectedLength l := by
  induction l with
  | nil => rfl
  | cons t l ih => simp [ih, add_comm]

theorem Injection.length_nonneg (t : Injection) : 0 ≤ t.length := Int.natCast_nonneg _

theorem injectedLength_nonneg (l : List Injection) : 0 ≤ injectedLength l := by
  induction l with
  | nil => exact le_rfl
  | cons t l ih =>
    have := t.length_nonneg
    rw [injectedLength_cons]
    omega

/-- What `createLineBreaks` hands over for a line of `lineLength` code units. -/
structure WellFormed (d : ModelLineProjectionData) (lineLength : ℤ) : Prop where
  sorted : d.injections.Pairwise fun a b => a.offset ≤ b.offset
  inLine : ∀ t ∈ d.injections, 0 ≤ t.offset ∧ t.offset ≤ lineLength
  content : ∀ t ∈ d.injections, t.content ≠ []
  increasing : d.breakOffsets.Pairwise (· < ·)
  positive : ∀ b ∈ d.breakOffsets, 0 ≤ b
  ends : d.breakOffsets.getLast? = some (lineLength + injectedLength d.injections)

namespace WellFormed

variable {d : ModelLineProjectionData} {lineLength : ℤ}

section

variable (h : WellFormed d lineLength)
include h

theorem length_pos : ∀ t ∈ d.injections, 0 < t.length := by
  intro t ht
  have := length_pos_iff.mpr (h.content t ht)
  simpa only [Injection.length, Nat.cast_pos] using this

theorem count_pos : 0 < d.getOutputLineCount := by
  refine length_pos_iff.mpr fun hnil => ?_
  have hends := h.ends
  rw [hnil] at hends
  cases hends

theorem breakOffset_last {l : ℕ} (hl : l + 1 = d.getOutputLineCount) :
    d.breakOffset l = lineLength + injectedLength d.injections := by
  have hends := h.ends
  rw [getLast?_eq_getElem?] at hends
  have hlast : d.breakOffsets.length - 1 = l := by
    simp only [ModelLineProjectionData.getOutputLineCount] at hl
    omega
  rw [hlast] at hends
  rw [ModelLineProjectionData.breakOffset, getD_eq_getElem?_getD, hends, Option.getD_some]

theorem breakOffset_lt {i j : ℕ} (hij : i < j)
    (hj : j < d.getOutputLineCount) : d.breakOffset i < d.breakOffset j := by
  have hi : i < d.breakOffsets.length := hij.trans hj
  simp only [ModelLineProjectionData.breakOffset, getD_eq_getElem?_getD,
    getElem?_eq_getElem hi, getElem?_eq_getElem hj, Option.getD_some]
  exact pairwise_iff_getElem.mp h.increasing i j hi hj hij

theorem breakOffset_nonneg {l : ℕ} (hl : l < d.getOutputLineCount) : 0 ≤ d.breakOffset l := by
  simp only [ModelLineProjectionData.breakOffset, getD_eq_getElem?_getD,
    getElem?_eq_getElem hl, Option.getD_some]
  exact h.positive _ (getElem_mem hl)

end

theorem lineStart_succ (d : ModelLineProjectionData) (l : ℕ) :
    d.lineStart (l + 1) = d.breakOffset l := by
  simp [ModelLineProjectionData.lineStart]

theorem lineStart_le (h : WellFormed d lineLength) {l : ℕ} (hl : l < d.getOutputLineCount) :
    d.lineStart l ≤ d.breakOffset l := by
  cases l with
  | zero => simpa [ModelLineProjectionData.lineStart] using h.breakOffset_nonneg hl
  | succ l =>
    rw [lineStart_succ]
    exact (h.breakOffset_lt l.lt_succ_self hl).le

end WellFormed

variable {l : List Injection}

theorem removeInjections_of_le {x : ℤ} (h : ∀ t ∈ l, x ≤ t.offset) : removeInjections l x = x := by
  cases l with
  | nil => rfl
  | cons t l =>
    have ht := h t mem_cons_self
    rw [removeInjections, if_neg (by omega)]

theorem removeInjections_mono
    (hsorted : l.Pairwise fun a b => a.offset ≤ b.offset) {x y : ℤ} (hxy : x ≤ y) :
    removeInjections l x ≤ removeInjections l y := by
  induction l generalizing x y with
  | nil => exact hxy
  | cons t l ih =>
    obtain ⟨hhead, htail⟩ := pairwise_cons.mp hsorted
    have hstay : removeInjections l t.offset = t.offset := removeInjections_of_le hhead
    have hpast : ∀ {z}, t.offset ≤ z → t.offset ≤ removeInjections l z := by
      intro z hz
      rw [← hstay]
      exact ih htail hz
    have hlength := t.length_nonneg
    simp only [removeInjections]
    split_ifs with hx hx' hy hy' hy hy' hy hy'
    · exact le_rfl
    · rw [hstay]
      exact hpast (by omega)
    · omega
    · omega
    · exact ih htail (by omega)
    · omega
    · rw [hstay]
      omega
    · exact (by omega : x ≤ t.offset).trans (hpast (by omega))
    · exact hxy

theorem injectedLengthBefore_bounds (o : ℤ) (affinity : PositionAffinity) (l : List Injection) : 0 ≤
    injectedLengthBefore o affinity l ∧ injectedLengthBefore o affinity l ≤ injectedLength l := by
  induction l with
  | nil => exact ⟨le_rfl, le_rfl⟩
  | cons t l ih =>
    have hlength := t.length_nonneg
    have hrest := injectedLength_nonneg l
    rw [injectedLength_cons, injectedLengthBefore]
    split_ifs <;> omega

theorem removeInjections_injected (o : ℤ) (affinity : PositionAffinity)
    (hpos : ∀ t ∈ l, 0 < t.length) :
    removeInjections l (o + injectedLengthBefore o affinity l) = o := by
  induction l with
  | nil => exact add_zero o
  | cons t l ih =>
    have hlength := hpos t mem_cons_self
    have hrest := (injectedLengthBefore_bounds o affinity l).1
    have ih := ih fun t' ht' => hpos t' (mem_cons_of_mem t ht')
    rw [injectedLengthBefore]
    split_ifs with hlt heq
    · rw [removeInjections, if_neg (by omega), add_zero]
    · rw [removeInjections, if_neg (by omega), add_zero]
    · rw [removeInjections, if_pos (by omega), if_neg (by omega)]
      have hoff : o + (t.length + injectedLengthBefore o affinity l) - t.length =
          o + injectedLengthBefore o affinity l := by omega
      rw [hoff]
      exact ih

/-- At a break, affinity `left` stays on the line before it. -/
def Past (affinity : PositionAffinity) (offset b : ℤ) : Prop :=
  if affinity = .left then b < offset else b ≤ offset

instance (affinity : PositionAffinity) (offset b : ℤ) : Decidable (Past affinity offset b) :=
  inferInstanceAs (Decidable (if affinity = .left then b < offset else b ≤ offset))

variable {affinity : PositionAffinity}

theorem Past.of_le {offset b c : ℤ} (h : Past affinity offset c)
    (hbc : b ≤ c) : Past affinity offset b := by
  unfold Past at h ⊢
  split_ifs at h ⊢ <;> omega

theorem Past.le {offset b : ℤ} (h : Past affinity offset b) : b ≤ offset := by
  unfold Past at h
  split_ifs at h <;> omega

namespace ModelLineProjectionData

variable {d : ModelLineProjectionData} {lineLength offset : ℤ} {affinity : PositionAffinity}

structure OnLine (d : ModelLineProjectionData) (offset : ℤ) (affinity : PositionAffinity)
    (l : ℕ) : Prop where
  lt : l < d.getOutputLineCount
  start : l = 0 ∨ Past affinity offset (d.lineStart l)
  stop : l + 1 = d.getOutputLineCount ∨ ¬ Past affinity offset (d.breakOffset l)

theorem searchLine_eq {low high : ℤ} (hle : low ≤ high) (mid : ℤ) {m : ℕ} (hm : low + (high - low) /
    2 = m) : d.searchLine offset affinity low high mid = if Past affinity offset (d.lineStart m)
    then if Past affinity offset (d.breakOffset m) then d.searchLine offset affinity (m + 1) high m
    else m else d.searchLine offset affinity low (m - 1) m := by
  rw [searchLine, if_pos hle]
  simp only [hm, Int.toNat_natCast, Past]
  split_ifs <;> first | rfl | omega

section

variable (h : WellFormed d lineLength)
include h

theorem searchLine_onLine (low high mid : ℤ) (hlow : 0 ≤ low) (hhigh : high < d.getOutputLineCount)
    (hbelow : low = 0 ∨ Past affinity offset (d.lineStart low.toNat))
    (habove : high + 1 = d.getOutputLineCount ∨ ¬ Past affinity offset (d.breakOffset high.toNat))
    (hmid : low ≤ high ∨ d.OnLine offset affinity mid.toNat) :
    d.OnLine offset affinity (d.searchLine offset affinity low high mid).toNat := by
  induction hn : (high - low + 1).toNat using Nat.strongRecOn generalizing low high mid with
  | _ n ih =>
    by_cases hle : low ≤ high
    · obtain ⟨m, hm⟩ := Int.eq_ofNat_of_zero_le (a := low + (high - low) / 2) (by omega)
      have hcount : m < d.getOutputLineCount := by omega
      rw [searchLine_eq hle mid hm]
      split_ifs with hstart hstop
      · refine ih _ (by omega) (m + 1) high m (by omega) hhigh (Or.inr ?_) habove ?_ rfl
        · simpa [WellFormed.lineStart_succ] using hstop
        · by_cases hlt : (m : ℤ) < high
          · exact Or.inl (by omega)
          · have hlast : high = m := by omega
            rw [hlast, Int.toNat_natCast] at habove
            exact Or.inr ⟨hcount, Or.inr hstart, habove.imp_left (by omega)⟩
      · exact ⟨hcount, Or.inr hstart, Or.inr hstop⟩
      · have hstop : ¬ Past affinity offset (d.breakOffset m) := fun hpast =>
          hstart (hpast.of_le (h.lineStart_le hcount))
        refine ih _ (by omega) low (m - 1) m hlow (by omega) hbelow ?_ ?_ rfl
        · right
          cases m with
          | zero => exact hstop
          | succ m =>
            rw [WellFormed.lineStart_succ] at hstart
            simpa using hstart
        · by_cases hlt : low < m
          · exact Or.inl (by omega)
          · have hfirst : low = m := by omega
            rw [hfirst, Int.toNat_natCast] at hbelow
            exact Or.inr ⟨hcount, hbelow.imp_left (by omega), Or.inr hstop⟩
    · rw [searchLine, if_neg hle]
      exact hmid.resolve_left hle

theorem position_eq (offset : ℤ) (affinity : PositionAffinity) : ∃ l,
    d.OnLine offset affinity l ∧ d.offsetInInputWithInjectionsToOutputPosition offset affinity =
    ⟨l, offset - d.lineStart l + d.getMinOutputOffset l⟩ := by
  have hcount := h.count_pos
  have hlast : d.getOutputLineCount = d.breakOffsets.length := rfl
  refine ⟨_, searchLine_onLine h 0 (d.breakOffsets.length - 1) 0 le_rfl (by omega) (Or.inl rfl)
    (Or.inl (by omega)) (Or.inl (by omega)), ?_⟩
  rw [offsetInInputWithInjectionsToOutputPosition, getMinOutputOffset]
  split_ifs <;> simp

theorem position_toOffset (offset : ℤ) (affinity : PositionAffinity) :
    d.outputPositionToOffsetInInputWithInjections
    (d.offsetInInputWithInjectionsToOutputPosition offset affinity) = offset := by
  obtain ⟨l, hline, heq⟩ := position_eq h offset affinity
  rw [heq]
  simp only [outputPositionToOffsetInInputWithInjections, getMinOutputOffset]
  split_ifs with hl
  · have hstart := (hline.start.resolve_left (by omega)).le
    omega
  · omega

theorem position_bounds (affinity : PositionAffinity)
    (hnonneg : 0 ≤ offset) (hle : offset ≤ lineLength + injectedLength d.injections) :
    let p := d.offsetInInputWithInjectionsToOutputPosition offset affinity
    d.getMinOutputOffset p.outputLineIndex ≤ p.outputOffset ∧
      p.outputOffset ≤ d.getMaxOutputOffset p.outputLineIndex := by
  obtain ⟨l, hline, heq⟩ := position_eq h offset affinity
  rw [heq]
  have hstart : d.lineStart l ≤ offset := by
    rcases hline.start with hzero | hpast
    · simpa [lineStart, hzero] using hnonneg
    · exact hpast.le
  have hstop : offset ≤ d.breakOffset l := by
    rcases hline.stop with hlast | hnot
    · rw [h.breakOffset_last hlast]
      exact hle
    · unfold Past at hnot
      split_ifs at hnot <;> omega
  simp only [getMinOutputOffset, getMaxOutputOffset, getLineLength]
  split_ifs <;> omega

theorem translate_roundTrip (o : ℤ) (affinity : PositionAffinity) :
    d.translateToInputOffset (d.translateToOutputPosition o affinity) = o := by
  rw [translateToInputOffset, translateToOutputPosition, position_toOffset h]
  exact removeInjections_injected o affinity h.length_pos

theorem toOffset_le {p : OutputPosition} (hline : p.outputLineIndex < d.getOutputLineCount)
    (hmax : p.outputOffset ≤ d.getMaxOutputOffset p.outputLineIndex) :
    d.outputPositionToOffsetInInputWithInjections p ≤ d.breakOffset p.outputLineIndex := by
  have hstart := h.lineStart_le hline
  simp only [getMaxOutputOffset, getLineLength] at hmax
  simp only [outputPositionToOffsetInInputWithInjections]
  split_ifs at hmax ⊢ <;> omega

end

/-- Positions in the order of the output: by line, then by offset. -/
def Before (p q : OutputPosition) : Prop :=
  p.outputLineIndex < q.outputLineIndex ∨
    p.outputLineIndex = q.outputLineIndex ∧ p.outputOffset ≤ q.outputOffset

theorem toOffset_mono (h : WellFormed d lineLength)
    {p q : OutputPosition} (hpq : Before p q) (hline : q.outputLineIndex < d.getOutputLineCount)
    (hmax : p.outputOffset ≤ d.getMaxOutputOffset p.outputLineIndex) :
    d.outputPositionToOffsetInInputWithInjections p ≤
    d.outputPositionToOffsetInInputWithInjections q := by
  rcases hpq with hlt | ⟨heq, hle⟩
  · have hp := toOffset_le h (hlt.trans hline) hmax
    have hstart : d.breakOffset p.outputLineIndex ≤ d.lineStart q.outputLineIndex := by
      obtain ⟨k, hk⟩ := Nat.exists_eq_add_of_lt hlt
      rw [hk, WellFormed.lineStart_succ]
      cases k with
      | zero => exact le_rfl
      | succ k => exact (h.breakOffset_lt (by omega) (by omega)).le
    have hq : d.lineStart q.outputLineIndex ≤
        d.outputPositionToOffsetInInputWithInjections q := by
      rw [outputPositionToOffsetInInputWithInjections, if_pos (by omega)]
      exact le_add_of_nonneg_right (le_max_left _ _)
    omega
  · simp only [outputPositionToOffsetInInputWithInjections, heq]
    split_ifs <;> omega

theorem translate_mono (h : WellFormed d lineLength) {p q : OutputPosition} (hpq : Before p q)
    (hline : q.outputLineIndex < d.getOutputLineCount)
    (hmax : p.outputOffset ≤ d.getMaxOutputOffset p.outputLineIndex) :
    d.translateToInputOffset p ≤ d.translateToInputOffset q :=
  removeInjections_mono h.sorted (toOffset_mono h hpq hline hmax)

end ModelLineProjectionData

end CodeOss.ViewModel
