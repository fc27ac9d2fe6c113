import CodeOss.Folding.FoldingRegions
import CodeOss.Library.Cut

/-! Looking up folding regions: the packed parents are the innermost regions around, whatever states
are set and in whatever order the parents are asked for. -/

namespace CodeOss.Folding

open List

theorem toNat_and_maxLine (word : UInt32) :
    (word &&& MAX_LINE_NUMBER).toNat = word.toNat % 2 ^ 24 := by
  rw [UInt32.toNat_and]
  exact Nat.and_two_pow_sub_one_eq_mod _ 24

theorem and_high (x i n : ℕ) : x &&& ((2 ^ n - 1) <<< i) = x / 2 ^ i % 2 ^ n * 2 ^ i := by
  rw [← Nat.and_two_pow_sub_one_eq_mod, ← Nat.shiftLeft_eq, ← Nat.shiftRight_eq_div_pow]
  apply Nat.eq_of_testBit_eq
  intro j
  simp only [Nat.testBit_and, Nat.testBit_shiftLeft, Nat.testBit_shiftRight]
  by_cases h : i ≤ j <;> simp [h]

theorem toNat_and_mask (word : UInt32) :
    (word &&& MASK_INDENT).toNat = word.toNat / 2 ^ 24 % 2 ^ 8 * 2 ^ 24 := by
  rw [UInt32.toNat_and]
  exact and_high _ 24 8

open FoldingRegions

def parentInt : Option ℕ → ℤ
  | none => -1
  | some index => index

theorem packed_start {line : UInt32} (hline : line ≤ MAX_LINE_NUMBER) (parent : UInt32) :
    (line + ((parent &&& 0xFF) <<< 24)).toNat = line.toNat + parent.toNat % 2 ^ 8 * 2 ^ 24 := by
  have hle : line.toNat ≤ 2 ^ 24 - 1 := hline
  have hand : (parent &&& 0xFF).toNat = parent.toNat % 2 ^ 8 := by
    rw [UInt32.toNat_and]
    exact Nat.and_two_pow_sub_one_eq_mod _ 8
  have hshift : ((parent &&& 0xFF) <<< 24).toNat = parent.toNat % 2 ^ 8 * 2 ^ 24 % 2 ^ 32 := by
    rw [UInt32.toNat_shiftLeft, hand]
    simp [Nat.shiftLeft_eq]
  rw [UInt32.toNat_add, hshift]
  omega

theorem packed_end {line : UInt32} (hline : line ≤ MAX_LINE_NUMBER) (parent : UInt32) : (line +
    ((parent &&& 0xFF00) <<< 16)).toNat = line.toNat + parent.toNat / 2 ^ 8 % 2 ^ 8 * 2 ^ 24 := by
  have hle : line.toNat ≤ 2 ^ 24 - 1 := hline
  have hand : (parent &&& 0xFF00).toNat = parent.toNat / 2 ^ 8 % 2 ^ 8 * 2 ^ 8 := by
    rw [UInt32.toNat_and]
    exact and_high _ 8 8
  have hshift : ((parent &&& 0xFF00) <<< 16).toNat =
      parent.toNat / 2 ^ 8 % 2 ^ 8 * 2 ^ 8 * 2 ^ 16 % 2 ^ 32 := by
    rw [UInt32.toNat_shiftLeft, hand]
    simp [Nat.shiftLeft_eq]
  rw [UInt32.toNat_add, hshift]
  omega

theorem unpack {first last : UInt32} (hfirst : first ≤ MAX_LINE_NUMBER)
    (hlast : last ≤ MAX_LINE_NUMBER) {parent : Option ℕ}
    (hparent : ∀ index ∈ parent, index < MAX_FOLDING_REGIONS) :
    let start := first + ((parentWord parent &&& 0xFF) <<< 24)
    let stop := last + ((parentWord parent &&& 0xFF00) <<< 16)
    start &&& MAX_LINE_NUMBER = first ∧ stop &&& MAX_LINE_NUMBER = last ∧
      (let index := ((start &&& MASK_INDENT) >>> 24).toNat + ((stop &&& MASK_INDENT) >>> 16).toNat
      (if index = MAX_FOLDING_REGIONS then -1 else (index : ℤ)) = parentInt parent) := by
  intro start stop
  have hstart : start.toNat = _ := packed_start hfirst (parentWord parent)
  have hstop : stop.toNat = _ := packed_end hlast (parentWord parent)
  have hle : first.toNat ≤ 2 ^ 24 - 1 := hfirst
  have hle' : last.toNat ≤ 2 ^ 24 - 1 := hlast
  refine ⟨?_, ?_, ?_⟩
  · apply UInt32.toNat_inj.1
    rw [toNat_and_maxLine]
    omega
  · apply UInt32.toNat_inj.1
    rw [toNat_and_maxLine]
    omega
  · have hlow : ((start &&& MASK_INDENT) >>> 24).toNat = (parentWord parent).toNat % 2 ^ 8 := by
      have hshift : ((start &&& MASK_INDENT) >>> 24).toNat =
          (start &&& MASK_INDENT).toNat / 2 ^ 24 := by
        rw [UInt32.toNat_shiftRight]
        simp [Nat.shiftRight_eq_div_pow]
      rw [hshift, toNat_and_mask]
      omega
    have hhigh : ((stop &&& MASK_INDENT) >>> 16).toNat =
        (parentWord parent).toNat / 2 ^ 8 % 2 ^ 8 * 2 ^ 8 := by
      have hshift : ((stop &&& MASK_INDENT) >>> 16).toNat =
          (stop &&& MASK_INDENT).toNat / 2 ^ 16 := by
        rw [UInt32.toNat_shiftRight]
        simp [Nat.shiftRight_eq_div_pow]
      rw [hshift, toNat_and_mask]
      omega
    dsimp only
    rw [hlow, hhigh]
    cases parent with
    | none =>
      have hword : (parentWord none).toNat = 2 ^ 32 - 1 := rfl
      rw [hword, MAX_FOLDING_REGIONS, parentInt]
      norm_num
    | some index =>
      have hindex := hparent index rfl
      rw [MAX_FOLDING_REGIONS] at hindex ⊢
      have hword : (parentWord (some index)).toNat = index := by
        rw [parentWord, UInt32.toNat_ofNat']
        omega
      rw [hword, if_neg (by omega), parentInt]
      omega

namespace BitField

theorem toNat_bit (index : ℕ) : (bit index).toNat = 2 ^ (index % 32) := by
  have hlt : index % 32 < 32 := Nat.mod_lt _ (by decide)
  have hpow : 2 ^ (index % 32) < 2 ^ 32 := Nat.pow_lt_pow_right (by decide) hlt
  have hindex : (index % 32).toUInt32.toNat % 32 = index % 32 := by
    rw [Nat.toUInt32_eq, UInt32.toNat_ofNat']
    omega
  rw [bit, UInt32.toNat_shiftLeft, hindex, Nat.shiftLeft_eq]
  exact (Nat.mod_eq_of_lt (by simpa using hpow)).trans (one_mul _)

theorem get_eq (field : BitField) (index : ℕ) :
    field.get index = (field.states.at (index / 32)).toNat.testBit (index % 32) := by
  have hbit : (field.states.at (index / 32) &&& bit index).toNat =
      ((field.states.at (index / 32)).toNat.testBit (index % 32)).toNat * 2 ^ (index % 32) := by
    rw [UInt32.toNat_and, toNat_bit, Nat.and_two_pow]
  have hzero : field.get index =
      ((field.states.at (index / 32) &&& bit index).toNat != 0) := by
    rw [get, bne, bne, Bool.not_inj_iff, Bool.eq_iff_iff, beq_iff_eq, beq_iff_eq]
    exact UInt32.toNat_inj.symm
  rw [hzero, hbit]
  cases (field.states.at (index / 32)).toNat.testBit (index % 32) <;> simp

theorem get_set (field : BitField) (index : ℕ) (newState : Bool) (other : ℕ) :
    (field.set index newState).get other =
      if other = index ∧ index / 32 < field.states.length then newState else field.get other := by
  have hword : (field.set index newState).states = field.states.set (index / 32)
      (if newState then field.states.at (index / 32) ||| bit index
        else field.states.at (index / 32) &&& ~~~(bit index)) := by
    rw [set]
    cases newState <;> rfl
  rw [get_eq, get_eq, hword]
  by_cases hlt : index / 32 < field.states.length
  · by_cases hslot : other / 32 = index / 32
    · have hat : Uint32Array.at (field.states.set (index / 32)
          (if newState then field.states.at (index / 32) ||| bit index
            else field.states.at (index / 32) &&& ~~~(bit index))) (other / 32) =
          if newState then field.states.at (index / 32) ||| bit index
            else field.states.at (index / 32) &&& ~~~(bit index) := by
        rw [Uint32Array.at, getD_eq_getElem?_getD, hslot, getElem?_set_self hlt, Option.getD_some]
      rw [hat, hslot]
      have hother : other = index ↔ other % 32 = index % 32 := by omega
      have hbits : ∀ i, (2 ^ (index % 32)).testBit i = decide (i = index % 32) := fun i => by
        rw [Nat.testBit_two_pow, Bool.decide_congr eq_comm]
      cases newState with
      | true =>
        rw [if_pos rfl, UInt32.toNat_or, toNat_bit, Nat.testBit_or, hbits]
        by_cases heq : other % 32 = index % 32 <;> simp [heq, hother, hlt]
      | false =>
        have hlow : 2 ^ (index % 32) < 2 ^ 32 :=
          Nat.pow_lt_pow_right (by decide) (Nat.mod_lt _ (by decide))
        have hnot : (~~~(bit index)).toNat = 2 ^ 32 - (2 ^ (index % 32) + 1) := by
          rw [UInt32.toNat_not, toNat_bit, UInt32.size]
          omega
        rw [if_neg Bool.false_ne_true, UInt32.toNat_and, hnot, Nat.testBit_and,
          Nat.testBit_two_pow_sub_succ hlow, hbits]
        have hlt32 : other % 32 < 32 := Nat.mod_lt _ (by decide)
        by_cases heq : other % 32 = index % 32 <;> simp [heq, hother, hlt, hlt32]
    · have hne : other ≠ index := by
        rintro rfl
        exact hslot rfl
      have hcond : ¬ (other = index ∧ index / 32 < field.states.length) := fun h => hne h.1
      rw [if_neg hcond, Uint32Array.at, getD_eq_getElem?_getD,
        getElem?_set_ne (Ne.symm hslot), ← getD_eq_getElem?_getD, Uint32Array.at]
  · have hcond : ¬ (other = index ∧ index / 32 < field.states.length) := fun h => hlt h.2
    rw [if_neg hcond, set_eq_of_length_le (Nat.le_of_not_lt hlt)]

theorem length_set (field : BitField) (index : ℕ) (newState : Bool) :
    (field.set index newState).states.length = field.states.length := by
  rw [set]
  cases newState <;> exact List.length_set

end BitField

/-- Ranges in the order of their start lines, each two of them disjoint or nested. -/
structure WellNested (starts ends : Uint32Array) : Prop where
  valid : ∀ i < starts.length, starts.at i ≤ ends.at i ∧ ends.at i ≤ MAX_LINE_NUMBER
  sorted : ∀ i j, i < j → j < starts.length → starts.at i < starts.at j
  nested : ∀ i j, i < j → j < starts.length →
    ends.at i < starts.at j ∨ ends.at j ≤ ends.at i

variable {ends : Uint32Array} {i : ℕ}

theorem WellNested.start_le {starts : Uint32Array} (h : WellNested starts ends)
    (hi : i < starts.length) : starts.at i ≤ MAX_LINE_NUMBER :=
  UInt32.le_trans (h.valid i hi).1 (h.valid i hi).2

/-- `result` is the innermost of the regions with `P`, or -1 where there is none. -/
def Innermost (starts ends : Uint32Array) (P : ℕ → Prop) (result : ℤ) : Prop :=
  (result = -1 ∧ ∀ j < starts.length, ¬ P j) ∨
    ∃ j < starts.length, result = j ∧ P j ∧
      ∀ i < starts.length, P i → starts.at i ≤ starts.at j ∧ ends.at j ≤ ends.at i

/-- The indices that are open before index `i`, the last one first. -/
def openBefore (ends : Uint32Array) : ℕ → List ℕ
  | 0 => []
  | i + 1 => i :: (openBefore ends i).dropWhile fun j => ends.at j < ends.at i

def parentOf (ends : Uint32Array) (i : ℕ) : Option ℕ :=
  ((openBefore ends i).dropWhile fun j => ends.at j < ends.at i).head?

theorem openBefore_pairwise (ends : Uint32Array) (i : ℕ) :
    (∀ j ∈ openBefore ends i, j < i) ∧ (openBefore ends i).Pairwise (· > ·) := by
  induction i with
  | zero => exact ⟨by simp [openBefore], List.Pairwise.nil⟩
  | succ i ih =>
    have hdrop := dropWhile_sublist (l := openBefore ends i) fun j => ends.at j < ends.at i
    refine ⟨?_, pairwise_cons.2 ⟨fun j hj => ih.1 j (hdrop.subset hj), ih.2.sublist hdrop⟩⟩
    intro j hj
    rcases mem_cons.1 hj with rfl | hj
    · exact Nat.lt_succ_self j
    · exact Nat.lt_succ_of_lt (ih.1 j (hdrop.subset hj))

theorem le_of_mem_dropWhile {x : UInt32} {l : List ℕ} (hsorted : l.Pairwise (· > ·))
    (hreach : ∀ j ∈ l, ∀ m ∈ l, j < m → ends.at m ≤ ends.at j) :
    ∀ j ∈ l.dropWhile fun j => ends.at j < x, x ≤ ends.at j := by
  induction l with
  | nil => exact fun j hj => absurd hj (by simp)
  | cons a l ih =>
    obtain ⟨ha, hl⟩ := pairwise_cons.1 hsorted
    intro j hj
    by_cases hlt : ends.at a < x
    · rw [dropWhile_cons_of_pos (by simpa using hlt)] at hj
      exact ih hl (fun j hj m hm => hreach j (mem_cons_of_mem a hj) m (mem_cons_of_mem a hm)) j hj
    · rw [dropWhile_cons_of_neg (by simpa using hlt)] at hj
      have hx : x ≤ ends.at a := UInt32.not_lt.1 hlt
      rcases mem_cons.1 hj with rfl | hj
      · exact hx
      · exact UInt32.le_trans hx (hreach j (mem_cons_of_mem a hj) a mem_cons_self (ha j hj))

/-- An open region reaches behind all that have begun since. -/
theorem openBefore_reach : ∀ j ∈ openBefore ends i, ∀ m, j < m → m < i → ends.at m ≤ ends.at j := by
  induction i with
  | zero => exact fun j hj => absurd hj (by simp [openBefore])
  | succ i ih =>
    intro j hj m hjm hmi
    rcases mem_cons.1 hj with rfl | hj
    · omega
    · obtain ⟨hlt, hsorted⟩ := openBefore_pairwise ends i
      have hkept := (dropWhile_sublist _).subset hj
      rcases Nat.lt_succ_iff_lt_or_eq.1 hmi with hmi | rfl
      · exact ih j hkept m hjm hmi
      · exact le_of_mem_dropWhile hsorted (fun j hj m hm hjm => ih j hj m hjm (hlt m hm)) j hj

theorem mem_openBefore {j : ℕ} (hj : j < i) (hreach : ∀ m, j < m → m < i → ends.at m ≤ ends.at j) :
    j ∈ openBefore ends i := by
  induction i with
  | zero => omega
  | succ i ih =>
    rcases Nat.lt_succ_iff_lt_or_eq.1 hj with hj | rfl
    · have hi := hreach i hj (Nat.lt_succ_self i)
      refine mem_cons_of_mem _ (List.mem_dropWhile_of_false (ih hj fun m hjm hmi => ?_) ?_)
      · exact hreach m hjm (Nat.lt_succ_of_lt hmi)
      · simpa using hi
    · exact mem_cons_self

theorem parentOf_lt {j : ℕ} (h : parentOf ends i = some j) : j < i :=
  (openBefore_pairwise ends i).1 j ((dropWhile_sublist _).subset (mem_of_head? h))

theorem parentOf_innermost {starts : Uint32Array}
    (h : WellNested starts ends) (hi : i < starts.length) : Innermost starts ends (fun j => j ≠ i ∧
    starts.at j ≤ starts.at i ∧ ends.at i ≤ ends.at j) (parentInt (parentOf ends i)) := by
  obtain ⟨hlt, hsorted⟩ := openBefore_pairwise ends i
  -- a region around `i` is still open there
  have hopen : ∀ j < starts.length, j ≠ i → starts.at j ≤ starts.at i → ends.at i ≤ ends.at j →
      j < i ∧ j ∈ (openBefore ends i).dropWhile fun j => ends.at j < ends.at i := by
    intro j hj hne hstart hend
    have hji : j < i := by
      rcases Nat.lt_or_gt_of_ne hne with hji | hij
      · exact hji
      · exact absurd (h.sorted i j hij hj) (UInt32.not_lt.2 hstart)
    refine ⟨hji, List.mem_dropWhile_of_false (mem_openBefore hji fun m hjm hmi => ?_)
      (by simpa using hend)⟩
    rcases h.nested j m hjm (hmi.trans hi) with hout | hin
    · have hmi' := h.sorted m i hmi hi
      have hvalid := (h.valid i hi).1
      have hcontra := UInt32.lt_of_lt_of_le (UInt32.lt_trans hout hmi')
        (UInt32.le_trans hvalid hend)
      exact absurd hcontra (UInt32.lt_irrefl _)
    · exact hin
  cases hparent : parentOf ends i with
  | none =>
    refine Or.inl ⟨rfl, fun j hj ⟨hne, hstart, hend⟩ => ?_⟩
    have hmem := (hopen j hj hne hstart hend).2
    rw [parentOf, head?_eq_none_iff] at hparent
    rw [hparent] at hmem
    exact absurd hmem (by simp)
  | some j =>
    have hmem := mem_of_head? hparent
    have hji := parentOf_lt hparent
    refine Or.inr ⟨j, hji.trans hi, rfl, ⟨hji.ne, ?_, ?_⟩, ?_⟩
    · exact UInt32.le_of_lt (h.sorted j i hji hi)
    · exact le_of_mem_dropWhile hsorted
        (fun j hj m hm hjm => openBefore_reach j hj m hjm (hlt m hm)) j hmem
    · rintro k hk ⟨hne, hstart, hend⟩
      have hkmem := (hopen k hk hne hstart hend).2
      have hcases : k = j ∨ k < j := by
        rw [parentOf] at hparent
        obtain ⟨rest, hrest⟩ := head?_eq_some_iff.1 hparent
        have hpairs := hsorted.sublist (dropWhile_sublist fun j => ends.at j < ends.at i)
        rw [hrest] at hpairs hkmem
        rcases mem_cons.1 hkmem with rfl | hkmem
        · exact Or.inl rfl
        · exact Or.inr ((pairwise_cons.1 hpairs).1 k hkmem)
      rcases hcases with rfl | hkj
      · exact ⟨UInt32.le_refl _, UInt32.le_refl _⟩
      · refine ⟨UInt32.le_of_lt (h.sorted k j hkj (hji.trans hi)), ?_⟩
        exact openBefore_reach k ((dropWhile_sublist _).subset hkmem) j hkj hji

namespace FoldingRegions

variable {starts ends : Uint32Array} {regions : FoldingRegions}

/-- The words of the first regions carry their parents, the others only their lines. -/
structure PackedBefore (starts ends : Uint32Array) (i : ℕ) (regions : FoldingRegions) : Prop where
  startLength : regions.startIndexes.length = starts.length
  endLength : regions.endIndexes.length = starts.length
  packed : ∀ j < i, j < starts.length →
    regions.startIndexes.at j = starts.at j + ((parentWord (parentOf ends j) &&& 0xFF) <<< 24) ∧
    regions.endIndexes.at j = ends.at j + ((parentWord (parentOf ends j) &&& 0xFF00) <<< 16)
  plain : ∀ j, i ≤ j → j < starts.length →
    regions.startIndexes.at j = starts.at j ∧ regions.endIndexes.at j = ends.at j

variable {line : UInt32} {i j : ℕ} {regions' : FoldingRegions}

theorem and_maxLine (h : line ≤ MAX_LINE_NUMBER) : line &&& MAX_LINE_NUMBER = line := by
  have hle : line.toNat ≤ 2 ^ 24 - 1 := h
  apply UInt32.toNat_inj.1
  rw [toNat_and_maxLine]
  omega

theorem PackedBefore.read (hnested : WellNested starts ends)
    (hmax : starts.length ≤ MAX_FOLDING_REGIONS) (h : PackedBefore starts ends i regions)
    (hj : j < starts.length) : regions.getStartLineNumber j = starts.at j ∧ regions.getEndLineNumber
    j = ends.at j ∧ (j < i → regions.unpackedParent j = parentInt (parentOf ends j)) := by
  have hstart := hnested.start_le hj
  have hend := (hnested.valid j hj).2
  by_cases hlt : j < i
  · obtain ⟨hs, he⟩ := h.packed j hlt hj
    have hparent : ∀ index ∈ parentOf ends j, index < MAX_FOLDING_REGIONS := fun index hindex =>
      (parentOf_lt hindex).trans (hj.trans_le hmax)
    obtain ⟨hfirst, hlast, hunpack⟩ := unpack hstart hend hparent
    rw [getStartLineNumber, getEndLineNumber, unpackedParent, hs, he]
    exact ⟨hfirst, hlast, fun _ => hunpack⟩
  · obtain ⟨hs, he⟩ := h.plain j (Nat.le_of_not_lt hlt) hj
    rw [getStartLineNumber, getEndLineNumber, hs, he]
    exact ⟨and_maxLine hstart, and_maxLine hend, fun hji => absurd hji hlt⟩

theorem at_set {words : Uint32Array} (hi : i < words.length) (word : UInt32) (j : ℕ) :
    Uint32Array.at (words.set i word) j = if j = i then word else words.at j := by
  rw [Uint32Array.at, List.getD_set_eq words i word j 0 hi, Uint32Array.at]

theorem ensureFrom_packed (hnested : WellNested starts ends) (hmax : starts.length ≤
    MAX_FOLDING_REGIONS) (rounds i : ℕ) (h : PackedBefore starts ends i regions) (hrounds : i +
    rounds = starts.length) : ∃ S E, ensureFrom rounds i (openBefore ends i) regions = (.ok (), {
    regions with startIndexes := S, endIndexes := E }) ∧ PackedBefore starts ends starts.length {
    regions with startIndexes := S, endIndexes := E } := by
  induction rounds generalizing i regions with
  | zero =>
    obtain rfl : i = starts.length := by omega
    exact ⟨regions.startIndexes, regions.endIndexes, rfl, h⟩
  | succ rounds ih =>
    have hi : i < starts.length := by omega
    obtain ⟨hs, he⟩ := h.plain i le_rfl hi
    have hstart := hnested.start_le hi
    have hend := (hnested.valid i hi).2
    -- an open region starts earlier, so only its end decides
    have hdrop : ((openBefore ends i).dropWhile fun index =>
        !regions.isInside (starts.at i) (ends.at i) index) =
        (openBefore ends i).dropWhile fun j => ends.at j < ends.at i := by
      have hlt := (openBefore_pairwise ends i).1
      generalize openBefore ends i = l at hlt
      induction l with
      | nil => rfl
      | cons a l ihl =>
        have ha := hlt a mem_cons_self
        obtain ⟨hread, hread', -⟩ := h.read hnested hmax (ha.trans hi)
        have hsorted := hnested.sorted a i ha hi
        have hinside : (!regions.isInside (starts.at i) (ends.at i) a) =
            decide (ends.at a < ends.at i) := by
          rw [isInside, hread, hread', decide_eq_true (UInt32.le_of_lt hsorted), Bool.true_and,
            ← decide_not]
          exact decide_eq_decide.2 UInt32.not_le
        rw [dropWhile_cons, dropWhile_cons, hinside, ihl fun j hj => hlt j (mem_cons_of_mem a hj)]
    have hnext : PackedBefore starts ends (i + 1)
        { regions with
          startIndexes := regions.startIndexes.set i
            (starts.at i + ((parentWord (parentOf ends i) &&& 0xFF) <<< 24))
          endIndexes := regions.endIndexes.set i
            (ends.at i + ((parentWord (parentOf ends i) &&& 0xFF00) <<< 16)) } := by
      have hi' : i < regions.startIndexes.length := h.startLength ▸ hi
      have hi'' : i < regions.endIndexes.length := h.endLength ▸ hi
      refine ⟨List.length_set.trans h.startLength, List.length_set.trans h.endLength, ?_, ?_⟩
      · intro j hji hj
        rw [at_set hi', at_set hi'']
        by_cases hjeq : j = i
        · rw [if_pos hjeq, if_pos hjeq, hjeq]
          exact ⟨rfl, rfl⟩
        · rw [if_neg hjeq, if_neg hjeq]
          exact h.packed j (by omega) hj
      · intro j hji hj
        rw [at_set hi', at_set hi'', if_neg (by omega), if_neg (by omega)]
        exact h.plain j (by omega) hj
    have hlines : ¬ (starts.at i > MAX_LINE_NUMBER ∨ ends.at i > MAX_LINE_NUMBER) :=
      not_or.2 ⟨UInt32.not_lt.2 hstart, UInt32.not_lt.2 hend⟩
    obtain ⟨S, E, hrest, hpacked⟩ := ih (i + 1) hnext (by omega)
    refine ⟨S, E, ?_, hpacked⟩
    rw [ensureFrom, hs, he, if_neg hlines, hdrop]
    exact hrest

/-- The words are untouched, or all of them carry their parents. -/
def Represents (starts ends : Uint32Array) (regions : FoldingRegions) : Prop :=
  PackedBefore starts ends (if regions.parentsComputed then starts.length else 0) regions

def SameStates (regions regions' : FoldingRegions) : Prop :=
  regions'.collapseStates = regions.collapseStates ∧
    regions'.userDefinedStates = regions.userDefinedStates ∧
    regions'.recoveredStates = regions.recoveredStates

section

variable (hnested : WellNested starts ends)
include hnested

variable (hmax : starts.length ≤ MAX_FOLDING_REGIONS)
include hmax

variable (h : Represents starts ends regions)
include h

theorem ensureParentIndices_spec :
    ∃ regions', regions.ensureParentIndices = (.ok (), regions') ∧ Represents starts ends regions' ∧
      regions'.parentsComputed = true ∧ SameStates regions regions' := by
  rw [Represents] at h
  rw [ensureParentIndices]
  by_cases hcomputed : regions.parentsComputed = true
  · rw [if_pos hcomputed] at h
    refine ⟨regions, if_pos hcomputed, ?_, hcomputed, rfl, rfl, rfl⟩
    rwa [Represents, if_pos hcomputed]
  · rw [if_neg hcomputed] at h ⊢
    have hstart : PackedBefore starts ends 0 { regions with parentsComputed := true } :=
      ⟨h.startLength, h.endLength, h.packed, h.plain⟩
    obtain ⟨S, E, hrun, hpacked⟩ :=
      ensureFrom_packed hnested hmax starts.length 0 hstart (Nat.zero_add _)
    refine ⟨{ regions with parentsComputed := true, startIndexes := S, endIndexes := E }, ?_, ?_,
      rfl, rfl, rfl, rfl⟩
    · rw [h.startLength]
      exact hrun
    · rwa [Represents, if_pos rfl]

theorem getParentIndex_spec : ∃ regions', Represents starts ends regions' ∧
    SameStates regions regions' ∧ ∀ i, ∃ index, regions.getParentIndex i = (.ok index, regions') ∧
    (i < starts.length → index = parentInt (parentOf ends i)) := by
  obtain ⟨regions', hrun, hrep, hcomputed, hsame⟩ := ensureParentIndices_spec hnested hmax h
  refine ⟨regions', hrep, hsame, fun i => ⟨regions'.unpackedParent i, ?_, fun hi => ?_⟩⟩
  · rw [getParentIndex, hrun]
  · rw [Represents, if_pos hcomputed] at hrep
    exact (hrep.read hnested hmax hi).2.2 hi

theorem Represents.lines (hi : i < starts.length) :
    regions.getStartLineNumber i = starts.at i ∧ regions.getEndLineNumber i = ends.at i :=
  let hread := PackedBefore.read hnested hmax h hi
  ⟨hread.1, hread.2.1⟩

end

/-- The last region that starts at the line or before it, or -1. -/
def LastStart (starts : Uint32Array) (line : UInt32) (index : ℤ) : Prop :=
  -1 ≤ index ∧ index < starts.length ∧
    ∀ j < starts.length, starts.at j ≤ line ↔ (j : ℤ) ≤ index

theorem findIndexFrom_spec (hnested : WellNested starts ends)
    (hmax : starts.length ≤ MAX_FOLDING_REGIONS) (h : Represents starts ends regions)
    (line : UInt32) (low high : ℕ) (hle : low ≤ high) (hhigh : high ≤ starts.length)
    (hbelow : ∀ j < low, starts.at j ≤ line)
    (habove : ∀ j, high ≤ j → j < starts.length → line < starts.at j) :
    LastStart starts line (findIndexFrom regions line low high) := by
  have hmono : ∀ i j, i ≤ j → j < starts.length → starts.at i ≤ starts.at j := fun i j hij hj => by
    rcases Nat.lt_or_eq_of_le hij with hij | rfl
    · exact UInt32.le_of_lt (hnested.sorted i j hij hj)
    · exact UInt32.le_refl _
  induction low, high using findIndexFrom.induct regions line with
  | case1 low high hlt mid hline ih =>
    rw [findIndexFrom, dif_pos hlt, if_pos hline]
    have hmid : mid < starts.length := by omega
    refine ih (by omega) (by omega) hbelow fun j hj hjn => ?_
    rw [(h.lines hnested hmax hmid).1] at hline
    exact UInt32.lt_of_lt_of_le hline (hmono mid j hj hjn)
  | case2 low high hlt mid hline ih =>
    rw [findIndexFrom, dif_pos hlt, if_neg hline]
    have hmid : mid < starts.length := by omega
    refine ih (by omega) hhigh (fun j hj => ?_) habove
    rw [(h.lines hnested hmax hmid).1, UInt32.not_lt] at hline
    exact UInt32.le_trans (hmono j mid (by omega) hmid) hline
  | case3 low high hlt =>
    rw [findIndexFrom, dif_neg hlt]
    refine ⟨by omega, by omega, fun j hj => ⟨fun hline => ?_, fun hline => hbelow j (by omega)⟩⟩
    by_contra hcontra
    exact absurd hline (UInt32.not_le.2 (habove j (by omega) hj))

theorem findIndex_spec (hnested : WellNested starts ends)
    (hmax : starts.length ≤ MAX_FOLDING_REGIONS) (h : Represents starts ends regions)
    (line : UInt32) : LastStart starts line (regions.findIndex line) := by
  have hlength : regions.length = starts.length := PackedBefore.startLength h
  rw [findIndex, hlength]
  split_ifs with hzero
  · exact ⟨le_rfl, by omega, fun j hj => by omega⟩
  · exact findIndexFrom_spec hnested hmax h line 0 _ (Nat.zero_le _) le_rfl (by omega) (by omega)

def ContainsLine (starts ends : Uint32Array) (line : UInt32) (j : ℕ) : Prop :=
  starts.at j ≤ line ∧ line ≤ ends.at j

theorem innermost_last (hnested : WellNested starts ends) (hj : j < starts.length)
    (hcontains : ContainsLine starts ends line j)
    (hlast : ∀ i < starts.length, ContainsLine starts ends line i → i ≤ j) :
    Innermost starts ends (ContainsLine starts ends line) j := by
  refine Or.inr ⟨j, hj, rfl, hcontains, fun i hi hline => ?_⟩
  rcases Nat.lt_or_eq_of_le (hlast i hi hline) with hij | rfl
  · refine ⟨UInt32.le_of_lt (hnested.sorted i j hij hj), ?_⟩
    rcases hnested.nested i j hij hj with hout | hin
    · have hcontra := UInt32.lt_of_lt_of_le hout (UInt32.le_trans hcontains.1 hline.2)
      exact absurd hcontra (UInt32.lt_irrefl _)
    · exact hin
  · exact ⟨UInt32.le_refl _, UInt32.le_refl _⟩

/-- No region behind `index`, which starts at the line or before it, contains the line. -/
structure Candidate (starts ends : Uint32Array) (line : UInt32) (index : ℤ) : Prop where
  ge : -1 ≤ index
  lt : index < starts.length
  start : ∀ j : ℕ, index = j → starts.at j ≤ line
  last : ∀ i < starts.length, ContainsLine starts ends line i → (i : ℤ) ≤ index

section

variable (hnested : WellNested starts ends)
include hnested

theorem Candidate.parent
    (h : Candidate starts ends line j) (hcontains : ¬ ContainsLine starts ends line j) :
    Candidate starts ends line (parentInt (parentOf ends j)) ∧ parentInt (parentOf ends j) < j := by
  have hj : j < starts.length := by exact_mod_cast h.lt
  have hline : starts.at j ≤ line := h.start j rfl
  have hend : ends.at j < line := UInt32.not_le.1 fun hle => hcontains ⟨hline, hle⟩
  have hbound : -1 ≤ parentInt (parentOf ends j) ∧ parentInt (parentOf ends j) < j := by
    cases hparent : parentOf ends j with
    | none =>
      rw [parentInt]
      omega
    | some k =>
      have hk := parentOf_lt hparent
      rw [parentInt]
      omega
  have hlt := h.lt
  refine ⟨⟨hbound.1, by omega, fun k hk => ?_, fun i hi hiline => ?_⟩, hbound.2⟩
  · have hkj : k < j := by omega
    exact UInt32.le_trans (UInt32.le_of_lt (hnested.sorted k j hkj hj)) hline
  · have hij : i < j := by
      have hle := h.last i hi hiline
      have hne : i ≠ j := by
        rintro rfl
        exact hcontains hiline
      omega
    -- a region around the line is a region around `j`
    have haround : i ≠ j ∧ starts.at i ≤ starts.at j ∧ ends.at j ≤ ends.at i :=
      ⟨hij.ne, UInt32.le_of_lt (hnested.sorted i j hij hj),
        UInt32.le_trans (UInt32.le_of_lt hend) hiline.2⟩
    rcases parentOf_innermost hnested hj with ⟨-, hnone⟩ | ⟨k, hk, hkeq, -, hinner⟩
    · exact absurd haround (hnone i hi)
    · rw [hkeq]
      by_contra hcontra
      have hki : k < i := by omega
      exact absurd (hinner i hi haround).1 (UInt32.not_le.2 (hnested.sorted k i hki hi))

theorem Candidate.innermost (h : Candidate starts ends line j)
    (hcontains : ContainsLine starts ends line j) :
    Innermost starts ends (ContainsLine starts ends line) j :=
  innermost_last hnested (by exact_mod_cast h.lt) hcontains fun i hi hline => by
    exact_mod_cast h.last i hi hline

theorem findParent_spec (hmax : starts.length ≤ MAX_FOLDING_REGIONS) (line : UInt32)
    (fuel : ℕ) {index : ℤ} (h : Represents starts ends regions) (hfuel : index + 1 < fuel)
    (hcandidate : Candidate starts ends line index) : ∃ result regions', findParent
    fuel regions index line = some (.ok result, regions') ∧ Represents starts ends regions' ∧
    SameStates regions regions' ∧ Innermost starts ends (ContainsLine starts ends line) result := by
  induction fuel generalizing regions index with
  | zero =>
    have hge := hcandidate.ge
    omega
  | succ fuel ih =>
    rw [findParent]
    by_cases hnone : index = -1
    · rw [if_pos hnone]
      refine ⟨-1, regions, rfl, h, ⟨rfl, rfl, rfl⟩, Or.inl ⟨rfl, fun j hj hline => ?_⟩⟩
      have hle := hcandidate.last j hj hline
      omega
    · have hge := hcandidate.ge
      have hlt := hcandidate.lt
      rw [if_neg hnone]
      obtain ⟨j, rfl⟩ : ∃ j : ℕ, index = j := ⟨index.toNat, by omega⟩
      have hj : j < starts.length := by omega
      obtain ⟨hs, he⟩ := h.lines hnested hmax hj
      rw [Int.toNat_natCast, contains, hs, he]
      by_cases hcontains : ContainsLine starts ends line j
      · rw [if_pos (by simpa [ContainsLine] using hcontains)]
        exact ⟨j, regions, rfl, h, ⟨rfl, rfl, rfl⟩, hcandidate.innermost hnested hcontains⟩
      · rw [if_neg (by simpa [ContainsLine] using hcontains)]
        obtain ⟨regions', hrep, hsame, hget⟩ := getParentIndex_spec hnested hmax h
        obtain ⟨index, hrun, hparent⟩ := hget j
        obtain rfl := hparent hj
        obtain ⟨hparent', hless⟩ := hcandidate.parent hnested hcontains
        rw [hrun]
        obtain ⟨result, regions'', hfound, hrep', hsame', hinner⟩ :=
          ih hrep (by omega) hparent'
        exact ⟨result, regions'', hfound, hrep', ⟨hsame'.1.trans hsame.1,
          hsame'.2.1.trans hsame.2.1, hsame'.2.2.trans hsame.2.2⟩, hinner⟩

theorem findRange_spec
    (hmax : starts.length ≤ MAX_FOLDING_REGIONS) (h : Represents starts ends regions)
    (line : UInt32) {fuel : ℕ} (hfuel : starts.length < fuel) : ∃ result regions',
    findRange fuel regions line = some (.ok result, regions') ∧ Represents starts ends regions' ∧
    SameStates regions regions' ∧ Innermost starts ends (ContainsLine starts ends line) result := by
  obtain ⟨hge, hlt, hlast⟩ := findIndex_spec hnested hmax h line
  have hcandidate : Candidate starts ends line (regions.findIndex line) := by
    refine ⟨hge, hlt, fun j hj => ?_, fun i hi hline => (hlast i hi).1 hline.1⟩
    have hjn : j < starts.length := by omega
    exact (hlast j hjn).2 (by omega)
  rw [findRange]
  split_ifs with hnonneg hend
  · obtain ⟨j, hj⟩ : ∃ j : ℕ, regions.findIndex line = j := ⟨_, (Int.toNat_of_nonneg hnonneg).symm⟩
    rw [hj] at hcandidate hlt hend ⊢
    have hjn : j < starts.length := by omega
    rw [Int.toNat_natCast, (h.lines hnested hmax hjn).2] at hend
    exact ⟨j, regions, rfl, h, ⟨rfl, rfl, rfl⟩,
      hcandidate.innermost hnested ⟨hcandidate.start j rfl, hend⟩⟩
  · obtain ⟨j, hj⟩ : ∃ j : ℕ, regions.findIndex line = j := ⟨_, (Int.toNat_of_nonneg hnonneg).symm⟩
    rw [hj] at hcandidate hlt hend ⊢
    have hjn : j < starts.length := by omega
    rw [Int.toNat_natCast, (h.lines hnested hmax hjn).2] at hend
    obtain ⟨regions', hrep, hsame, hget⟩ := getParentIndex_spec hnested hmax h
    obtain ⟨index, hrun, hparent⟩ := hget j
    obtain rfl := hparent hjn
    obtain ⟨hparent', hless⟩ := hcandidate.parent hnested fun hcontains => hend hcontains.2
    rw [Int.toNat_natCast, hrun]
    obtain ⟨result, regions'', hfound, hrep', hsame', hinner⟩ :=
      findParent_spec hnested hmax line fuel hrep (by omega) hparent'
    exact ⟨result, regions'', hfound, hrep', ⟨hsame'.1.trans hsame.1,
      hsame'.2.1.trans hsame.2.1, hsame'.2.2.trans hsame.2.2⟩, hinner⟩
  · refine ⟨-1, regions, rfl, h, ⟨rfl, rfl, rfl⟩, Or.inl ⟨rfl, fun j hj hline => ?_⟩⟩
    have hle := (hlast j hj).1 hline.1
    omega

end

/-- What is done with regions between two questions. -/
inductive Operation
  | setCollapsed (index : ℕ) (newState : Bool)
  | setSource (index : ℕ) (source : FoldSource)
  | getParentIndex (index : ℕ)
  | findRange (line : UInt32)

def perform (regions : FoldingRegions) : Operation → FoldingRegions
  | .setCollapsed index newState => regions.setCollapsed index newState
  | .setSource index source => regions.setSource index source
  | .getParentIndex index => (regions.getParentIndex index).2
  | .findRange line =>
    ((findRange (regions.length + 1) regions line).map Prod.snd).getD regions

def lastCollapsed (index : ℕ) : List Operation → Bool → Bool
  | [], given => given
  | .setCollapsed i newState :: rest, given =>
    lastCollapsed index rest (if i = index then newState else given)
  | _ :: rest, given => lastCollapsed index rest given

def lastSource (index : ℕ) : List Operation → FoldSource → FoldSource
  | [], given => given
  | .setSource i source :: rest, given =>
    lastSource index rest (if i = index then source else given)
  | _ :: rest, given => lastSource index rest given

def HasBits (size : ℕ) (regions : FoldingRegions) : Prop :=
  regions.collapseStates.states.length = (size + 31) / 32 ∧
    regions.userDefinedStates.states.length = (size + 31) / 32 ∧
    regions.recoveredStates.states.length = (size + 31) / 32

section

variable (h : SameStates regions regions')
include h

theorem SameStates.hasBits {size : ℕ} (hbits : HasBits size regions) : HasBits size regions' := by
  obtain ⟨hcollapsed, huser, hrecovered⟩ := h
  rwa [HasBits, hcollapsed, huser, hrecovered]

theorem SameStates.isCollapsed (i : ℕ) : regions'.isCollapsed i = regions.isCollapsed i := by
  rw [FoldingRegions.isCollapsed, h.1, FoldingRegions.isCollapsed]

theorem SameStates.getSource (i : ℕ) : regions'.getSource i = regions.getSource i := by
  rw [FoldingRegions.getSource, h.2.1, h.2.2, FoldingRegions.getSource]

end

theorem perform_spec (hnested : WellNested starts ends) (hmax : starts.length ≤ MAX_FOLDING_REGIONS)
    (h : Represents starts ends regions) (hbits : HasBits starts.length regions) (op : Operation) :
    Represents starts ends (regions.perform op) ∧ HasBits starts.length (regions.perform op) ∧ ∀ i <
    starts.length, lastCollapsed i [op] (regions.isCollapsed i) = (regions.perform op).isCollapsed
    i ∧ lastSource i [op] (regions.getSource i) = (regions.perform op).getSource i := by
  have hbit : ∀ {field : BitField}, field.states.length = (starts.length + 31) / 32 →
      ∀ {i}, i < starts.length → ∀ index newState,
        (field.set index newState).get i = if index = i then newState else field.get i := by
    intro field hlength i hi index newState
    rw [BitField.get_set, hlength]
    by_cases heq : index = i
    · rw [if_pos heq, if_pos ⟨heq.symm, by omega⟩]
    · rw [if_neg heq, if_neg fun hand => heq hand.1.symm]
  cases op with
  | setCollapsed index newState =>
    refine ⟨⟨h.startLength, h.endLength, h.packed, h.plain⟩,
      ⟨(BitField.length_set ..).trans hbits.1, hbits.2⟩, fun i hi => ⟨?_, rfl⟩⟩
    exact (hbit hbits.1 hi index newState).symm
  | setSource index source =>
    refine ⟨⟨h.startLength, h.endLength, h.packed, h.plain⟩,
      ⟨hbits.1, (BitField.length_set ..).trans hbits.2.1,
        (BitField.length_set ..).trans hbits.2.2⟩, fun i hi => ⟨rfl, ?_⟩⟩
    have hread : (regions.perform (.setSource index source)).getSource i =
        if (regions.userDefinedStates.set index (source == .userDefined)).get i then .userDefined
        else if (regions.recoveredStates.set index (source == .recovered)).get i then .recovered
        else .provider := rfl
    rw [hread, hbit hbits.2.1 hi, hbit hbits.2.2 hi, lastSource, lastSource]
    by_cases heq : index = i
    · rw [if_pos heq, if_pos heq, if_pos heq]
      cases source <;> rfl
    · rw [if_neg heq, if_neg heq, if_neg heq, FoldingRegions.getSource]
  | getParentIndex index =>
    obtain ⟨regions', hrep, hsame, hget⟩ := getParentIndex_spec hnested hmax h
    obtain ⟨_, hrun, -⟩ := hget index
    rw [perform, hrun]
    exact ⟨hrep, hsame.hasBits hbits, fun i _ => ⟨(hsame.isCollapsed i).symm,
      (hsame.getSource i).symm⟩⟩
  | findRange line =>
    have hlength : regions.length = starts.length := PackedBefore.startLength h
    obtain ⟨_, regions', hrun, hrep, hsame, -⟩ :=
      findRange_spec hnested hmax h line (Nat.lt_succ_self starts.length)
    rw [perform, hlength, hrun]
    exact ⟨hrep, hsame.hasBits hbits, fun i _ => ⟨(hsame.isCollapsed i).symm,
      (hsame.getSource i).symm⟩⟩

theorem run_spec (hnested : WellNested starts ends) (hmax : starts.length ≤ MAX_FOLDING_REGIONS)
    (h : Represents starts ends regions) (hbits : HasBits starts.length regions)
    (operations : List Operation) : Represents starts ends (operations.foldl perform regions) ∧
    ∀ i < starts.length, (operations.foldl perform regions).isCollapsed i = lastCollapsed
    i operations (regions.isCollapsed i) ∧ (operations.foldl perform regions).getSource i =
    lastSource i operations (regions.getSource i) := by
  induction operations generalizing regions with
  | nil => exact ⟨h, fun i _ => ⟨rfl, rfl⟩⟩
  | cons op rest ih =>
    obtain ⟨hrep, hbits', hstates⟩ := perform_spec hnested hmax h hbits op
    obtain ⟨hlast, hstates'⟩ := ih hrep hbits'
    refine ⟨hlast, fun i hi => ?_⟩
    obtain ⟨hcollapsed, hsource⟩ := hstates i hi
    obtain ⟨hcollapsed', hsource'⟩ := hstates' i hi
    rw [foldl_cons, hcollapsed', hsource', ← hcollapsed, ← hsource]
    cases op <;> exact ⟨rfl, rfl⟩

/-- Whatever states are set and whatever was asked before, the parent of a region and the region of
a line are the innermost around, and lines and states are those given. -/
theorem lookup_exact {starts ends : Uint32Array} {regions : FoldingRegions}
    (hnew : new starts ends = .ok regions) (hnested : WellNested starts ends)
    (operations : List Operation) :
    (∀ i < starts.length, ∃ index,
      ((operations.foldl perform regions).getParentIndex i).1 = .ok index ∧
        Innermost starts ends
          (fun j => j ≠ i ∧ starts.at j ≤ starts.at i ∧ ends.at i ≤ ends.at j) index) ∧
    (∀ line fuel, starts.length < fuel → ∃ index,
      (findRange fuel (operations.foldl perform regions) line).map Prod.fst = some (.ok index) ∧
        Innermost starts ends (ContainsLine starts ends line) index) ∧
    ∀ i < starts.length,
      (operations.foldl perform regions).getStartLineNumber i = starts.at i ∧
      (operations.foldl perform regions).getEndLineNumber i = ends.at i ∧
      (operations.foldl perform regions).isCollapsed i = lastCollapsed i operations false ∧
      (operations.foldl perform regions).getSource i = lastSource i operations .provider := by
  rw [new] at hnew
  split_ifs at hnew with hsize
  obtain ⟨hlength, hmax⟩ := not_or.1 hsize
  obtain rfl := Except.ok.inj hnew
  have hmax' := Nat.le_of_not_lt hmax
  have hstart : Represents starts ends
      { startIndexes := starts, endIndexes := ends, collapseStates := .ofSize starts.length
        userDefinedStates := .ofSize starts.length, recoveredStates := .ofSize starts.length
        parentsComputed := false } :=
    ⟨rfl, (not_not.1 hlength).symm, fun j hj => absurd hj (Nat.not_lt_zero j),
      fun j _ _ => ⟨rfl, rfl⟩⟩
  have hempty : ∀ i, (BitField.ofSize starts.length).get i = false := fun i => by
    rw [BitField.get_eq, BitField.ofSize, Uint32Array.at, List.getD_eq_getElem?_getD,
      List.getElem?_replicate]
    split_ifs <;> exact Nat.zero_testBit _
  obtain ⟨hrep, hstates⟩ := run_spec hnested hmax' hstart
    ⟨List.length_replicate, List.length_replicate, List.length_replicate⟩ operations
  refine ⟨fun i hi => ?_, fun line fuel hfuel => ?_, fun i hi => ?_⟩
  · obtain ⟨_, -, -, hget⟩ := getParentIndex_spec hnested hmax' hrep
    obtain ⟨index, hrun, hindex⟩ := hget i
    obtain rfl := hindex hi
    exact ⟨_, by rw [hrun], parentOf_innermost hnested hi⟩
  · obtain ⟨index, _, hrun, -, -, hinner⟩ := findRange_spec hnested hmax' hrep line hfuel
    exact ⟨index, by rw [hrun]; rfl, hinner⟩
  · obtain ⟨hs, he⟩ := hrep.lines hnested hmax' hi
    obtain ⟨hcollapsed, hsource⟩ := hstates i hi
    refine ⟨hs, he, hcollapsed.trans ?_, hsource.trans ?_⟩
    · rw [FoldingRegions.isCollapsed, hempty]
    · rw [FoldingRegions.getSource, hempty]
      rfl

/-- One region in another and one behind them. -/
theorem lookup_exact_three :
    ∃ index, (findRange 4 ([.setCollapsed 1 true, .getParentIndex 1].foldl perform
      { startIndexes := [1, 2, 8], endIndexes := [6, 4, 9], collapseStates := .ofSize 3
        userDefinedStates := .ofSize 3, recoveredStates := .ofSize 3, parentsComputed := false })
      5).map Prod.fst = some (.ok index) ∧
      Innermost [1, 2, 8] [6, 4, 9] (ContainsLine [1, 2, 8] [6, 4, 9] 5) index := by
  have hnested : WellNested [1, 2, 8] [6, 4, 9] := by
    have hpairs : ∀ j < 3, ∀ i < j, Uint32Array.at [1, 2, 8] i < Uint32Array.at [1, 2, 8] j ∧
        (Uint32Array.at [6, 4, 9] i < Uint32Array.at [1, 2, 8] j ∨
          Uint32Array.at [6, 4, 9] j ≤ Uint32Array.at [6, 4, 9] i) := by decide
    exact ⟨by decide, fun i j hij hj => (hpairs j hj i hij).1,
      fun i j hij hj => (hpairs j hj i hij).2⟩
  exact (lookup_exact rfl hnested _).2.1 5 4 (by decide)

end FoldingRegions

end CodeOss.Folding
