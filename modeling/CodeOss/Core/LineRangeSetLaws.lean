import CodeOss.Core.LineRangeSet
import Mathlib.Data.List.TakeWhile
import Mathlib.Order.Bounds.Basic
import Mathlib.Tactic.Tauto

/-! The lines of a set of lines, after any calls of its methods. -/

namespace CodeOss

open List hiding set lookup

section Bisect

variable {α : Type*} {before : α → Bool} {xs ys : List α}

section

variable (hxs : ∀ x ∈ xs, before x)
include hxs

variable (hys : ∀ y ∈ ys, before y = false)
include hys

theorem bisect_eq (i j : ℕ) (hj : j ≤ (xs ++ ys).length)
    (hi : i ≤ xs.length) (hxj : xs.length ≤ j) : bisect (xs ++ ys) before i j hj = xs.length := by
  fun_induction bisect (xs ++ ys) before i j hj with
  | case1 i j hj hlt k hk ih =>
    apply ih _ hxj
    by_contra hle
    have hright : xs.length ≤ k := by omega
    have hget : (xs ++ ys).get ⟨k, by omega⟩ ∈ ys := by
      rw [get_eq_getElem, getElem_append_right hright]
      exact getElem_mem _
    rw [hys _ hget] at hk
    contradiction
  | case2 i j hj hlt k hk ih =>
    apply ih hi
    by_contra hle
    have hleft : k < xs.length := by omega
    apply hk
    apply hxs
    rw [get_eq_getElem, getElem_append_left hleft]
    exact getElem_mem _
  | case3 i j hj hlt => omega

theorem findLastIdxMonotonous_eq : findLastIdxMonotonous (xs ++ ys) before = xs.length - 1 := by
  rw [findLastIdxMonotonous, bisect_eq hxs hys _ _ _ (Nat.zero_le _) (by simp)]

theorem findLastMonotonous_eq : findLastMonotonous (xs ++ ys) before = xs.getLast? := by
  rw [findLastMonotonous, findLastIdxMonotonous_eq hxs hys]
  cases xs with
  | nil => rfl
  | cons x xs =>
    have hlast : (((x :: xs).length : ℤ) - 1).toNat = (x :: xs).length - 1 := by
      simp only [length_cons]
      omega
    simp only [hlast]
    rw [if_neg (by simp), getLast?_eq_getElem?, getElem?_append_left (by simp)]

end

theorem findFirstIdxMonotonousOrArrLen_eq (hxs : ∀ x ∈ xs, before x = false)
    (hys : ∀ y ∈ ys, before y) : findFirstIdxMonotonousOrArrLen (xs ++ ys) before = xs.length :=
  bisect_eq (by simpa using hxs) (by simpa using hys) _ _ _ (Nat.zero_le _) (by simp)

theorem dropWhile_false {R : α → α → Prop} {as : List α} (has : as.Pairwise R)
    (h : ∀ a b, R a b → before b → before a) : ∀ a ∈ as.dropWhile before, before a = false := by
  induction as with
  | nil => exact fun a ha => absurd ha not_mem_nil
  | cons b bs ih =>
    obtain ⟨hb, hbs⟩ := pairwise_cons.mp has
    by_cases hbefore : before b
    · rw [dropWhile_cons_of_pos hbefore]
      exact ih hbs
    · rw [dropWhile_cons_of_neg hbefore]
      intro a ha
      rcases mem_cons.mp ha with rfl | ha
      · simpa using hbefore
      · by_contra hfalse
        exact hbefore (h b a (hb a ha) (by simpa using hfalse))

end Bisect

namespace LineRange

variable {r : LineRange} {l : ℤ}

theorem contains_iff : r.contains l ↔ r.startLineNumber ≤ l ∧ l < r.endLineNumberExclusive := by
  simp [contains]

theorem isEmpty_iff : r.isEmpty = false ↔ r.startLineNumber < r.endLineNumberExclusive := by
  have := r.start_le_end
  simp only [isEmpty, decide_eq_false_iff_not]
  omega

end LineRange

namespace LineRangeSet

def lines (ranges : LineRangeSet) : Set ℤ := {l | ∃ r ∈ ranges, r.contains l}

/-- Sorted, without an empty range, and without two that touch. -/
def Normalized (ranges : LineRangeSet) : Prop :=
  ranges.Pairwise (fun r s => r.endLineNumberExclusive < s.startLineNumber) ∧
    ∀ r ∈ ranges, r.isEmpty = false

variable {ranges other as ms bs : LineRangeSet} {r range : LineRange} {l : ℤ}

@[simp] theorem lines_nil : lines [] = ∅ := by
  simp [lines]

theorem mem_lines_cons : l ∈ lines (r :: ranges) ↔
    (r.startLineNumber ≤ l ∧ l < r.endLineNumberExclusive) ∨ l ∈ lines ranges := by
  simp [lines, LineRange.contains_iff]

theorem mem_lines_append : l ∈ lines (as ++ bs) ↔ l ∈ lines as ∨ l ∈ lines bs := by
  simp only [lines, Set.mem_ofPred_eq, List.mem_append, or_and_right, exists_or]

theorem normalized_cons : Normalized (r :: ranges) ↔ r.startLineNumber < r.endLineNumberExclusive ∧
    (∀ l ∈ lines ranges, r.endLineNumberExclusive < l) ∧ Normalized ranges := by
  constructor
  · rintro ⟨hpairs, hempty⟩
    obtain ⟨hr, hpairs⟩ := pairwise_cons.mp hpairs
    refine ⟨LineRange.isEmpty_iff.mp (hempty r mem_cons_self), ?_, hpairs,
      fun s hs => hempty s (mem_cons_of_mem r hs)⟩
    rintro l ⟨s, hs, hl⟩
    exact (hr s hs).trans_le (LineRange.contains_iff.mp hl).1
  · rintro ⟨hr, hlines, hpairs, hempty⟩
    refine ⟨pairwise_cons.mpr ⟨fun s hs => ?_, hpairs⟩,
      forall_mem_cons.mpr ⟨LineRange.isEmpty_iff.mpr hr, hempty⟩⟩
    have hs' := LineRange.isEmpty_iff.mp (hempty s hs)
    exact hlines _ ⟨s, hs, LineRange.contains_iff.mpr ⟨le_rfl, hs'⟩⟩

theorem normalized_append : Normalized (as ++ bs) ↔ Normalized as ∧ Normalized bs ∧
    ∀ a ∈ as, ∀ b ∈ bs, a.endLineNumberExclusive < b.startLineNumber := by
  simp only [Normalized, pairwise_append, forall_mem_append]
  tauto

theorem Normalized.split (hn : Normalized ranges) (range : LineRange) : ∃ as ms bs,
    ranges = as ++ (ms ++ bs) ∧ (∀ a ∈ as, a.endLineNumberExclusive < range.startLineNumber) ∧
    (∀ m ∈ ms, range.startLineNumber ≤ m.endLineNumberExclusive ∧
    m.startLineNumber ≤ range.endLineNumberExclusive) ∧
    (∀ b ∈ bs, range.endLineNumberExclusive < b.startLineNumber) ∧ findFirstIdxMonotonousOrArrLen
    ranges (fun r => r.endLineNumberExclusive ≥ range.startLineNumber) = as.length ∧
    (findLastIdxMonotonous ranges (fun r => r.startLineNumber ≤ range.endLineNumberExclusive) +
    1).toNat = as.length + ms.length := by
  let before : LineRange → Bool := fun r => r.endLineNumberExclusive < range.startLineNumber
  let upTo : LineRange → Bool := fun r => r.startLineNumber ≤ range.endLineNumberExclusive
  have has : ∀ a ∈ ranges.takeWhile before, a.endLineNumberExclusive < range.startLineNumber :=
    fun a ha => by simpa [before] using mem_takeWhile_imp ha
  have hrest : ∀ a ∈ ranges.dropWhile before, before a = false :=
    dropWhile_false hn.1 fun a b hab hb => by
      have := b.start_le_end
      simp only [before, decide_eq_true_eq] at hb ⊢
      omega
  have hms : ∀ m ∈ (ranges.dropWhile before).takeWhile upTo,
      m.startLineNumber ≤ range.endLineNumberExclusive :=
    fun m hm => by simpa [upTo] using mem_takeWhile_imp hm
  have hbs : ∀ b ∈ (ranges.dropWhile before).dropWhile upTo, upTo b = false :=
    dropWhile_false (hn.1.sublist (dropWhile_sublist _)) fun a b hab hb => by
      have := a.start_le_end
      simp only [upTo, decide_eq_true_eq] at hb ⊢
      omega
  refine ⟨ranges.takeWhile before, (ranges.dropWhile before).takeWhile upTo,
    (ranges.dropWhile before).dropWhile upTo, ?_, has, fun m hm => ⟨?_, hms m hm⟩, fun b hb => ?_,
    ?_, ?_⟩
  · rw [takeWhile_append_dropWhile, takeWhile_append_dropWhile]
  · simpa [before] using hrest m (takeWhile_subset _ hm)
  · simpa [upTo] using hbs b hb
  · conv_lhs => rw [← takeWhile_append_dropWhile (p := before) (l := ranges)]
    refine findFirstIdxMonotonousOrArrLen_eq (fun a ha => ?_) fun b hb => ?_
    · simpa using has a ha
    · simpa [before] using hrest b hb
  · have hsplit : ranges = (ranges.takeWhile before ++ (ranges.dropWhile before).takeWhile upTo) ++
        (ranges.dropWhile before).dropWhile upTo := by
      rw [append_assoc, takeWhile_append_dropWhile, takeWhile_append_dropWhile]
    conv_lhs => rw [hsplit]
    rw [findLastIdxMonotonous_eq, length_append]
    · omega
    · intro x hx
      rcases List.mem_append.mp hx with hx | hx
      · have := has x hx
        have := x.start_le_end
        have := range.start_le_end
        exact decide_eq_true (by omega)
      · exact decide_eq_true (hms x hx)
    · exact hbs

theorem replace_touched (hn : Normalized (as ++ (ms ++ bs)))
    (hrange : range.startLineNumber < range.endLineNumberExclusive)
    (has : ∀ a ∈ as, a.endLineNumberExclusive < range.startLineNumber)
    (hbs : ∀ b ∈ bs, range.endLineNumberExclusive < b.startLineNumber)
    (hr : ∀ l, r.contains l ↔ range.contains l ∨ l ∈ lines ms) : Normalized (as ++ r :: bs) ∧
    lines (as ++ r :: bs) = lines (as ++ (ms ++ bs)) ∪ {l | range.contains l} := by
  obtain ⟨hnas, hnmsbs, habs⟩ := normalized_append.mp hn
  obtain ⟨-, hnbs, hmsbs⟩ := normalized_append.mp hnmsbs
  have hlt : r.startLineNumber < r.endLineNumberExclusive := by
    have hstart := (hr range.startLineNumber).mpr
      (Or.inl (LineRange.contains_iff.mpr ⟨le_rfl, hrange⟩))
    exact (LineRange.contains_iff.mp hstart).1.trans_lt (LineRange.contains_iff.mp hstart).2
  have hbefore : ∀ a ∈ as, a.endLineNumberExclusive < r.startLineNumber := by
    intro a ha
    rcases (hr r.startLineNumber).mp (LineRange.contains_iff.mpr ⟨le_rfl, hlt⟩) with hl | ⟨m, hm, hl⟩
    · exact (has a ha).trans_le (LineRange.contains_iff.mp hl).1
    · exact (habs a ha m (mem_append_left bs hm)).trans_le (LineRange.contains_iff.mp hl).1
  have hbehind : ∀ b ∈ bs, r.endLineNumberExclusive < b.startLineNumber := by
    intro b hb
    have hlast : r.contains (r.endLineNumberExclusive - 1) :=
      LineRange.contains_iff.mpr ⟨by omega, by omega⟩
    rcases (hr _).mp hlast with hl | ⟨m, hm, hl⟩
    · have := hbs b hb
      have := (LineRange.contains_iff.mp hl).2
      omega
    · have := hmsbs m hm b hb
      have := (LineRange.contains_iff.mp hl).2
      omega
  refine ⟨normalized_append.mpr ⟨hnas, normalized_cons.mpr ⟨hlt, ?_, hnbs⟩, ?_⟩, ?_⟩
  · rintro l ⟨b, hb, hl⟩
    exact (hbehind b hb).trans_le (LineRange.contains_iff.mp hl).1
  · exact fun a ha => forall_mem_cons.mpr
      ⟨hbefore a ha, fun b hb => habs a ha b (mem_append_right ms hb)⟩
  · ext l
    have := hr l
    simp only [Set.mem_union, Set.mem_ofPred_eq, mem_lines_append, mem_lines_cons,
      ← LineRange.contains_iff, this]
    tauto

theorem start_head_le {first : LineRange} (hn : Normalized ms) (h : ms.head? = some first) :
    ∀ m ∈ ms, first.startLineNumber ≤ m.startLineNumber := by
  obtain ⟨ms, rfl⟩ := head?_eq_some_iff.mp h
  refine forall_mem_cons.mpr ⟨le_rfl, fun m hm => ?_⟩
  exact first.start_le_end.trans ((pairwise_cons.mp hn.1).1 m hm).le

theorem end_le_getLast {last : LineRange} (hn : Normalized ms) (h : ms.getLast? = some last) :
    ∀ m ∈ ms, m.endLineNumberExclusive ≤ last.endLineNumberExclusive := by
  obtain ⟨ms, rfl⟩ := getLast?_eq_some_iff.mp h
  intro m hm
  rcases List.mem_append.mp hm with hm | hm
  · have hlt := (normalized_append.mp hn).2.2 m hm last (mem_singleton_self last)
    exact hlt.le.trans last.start_le_end
  · rw [mem_singleton.mp hm]

theorem contains_join {first last : LineRange} (hn : Normalized ms) (hfirst : ms.head? = some first)
    (hlast : ms.getLast? = some last) (htouch : ∀ m ∈ ms, range.startLineNumber ≤
    m.endLineNumberExclusive ∧ m.startLineNumber ≤ range.endLineNumberExclusive) :
    ((first.join last).join range).contains l ↔ range.contains l ∨ l ∈ lines ms := by
  have hmem := mem_of_mem_getLast? hlast
  have hfirst' := htouch first (mem_of_mem_head? hfirst)
  have hlast' := htouch last hmem
  have hstart := start_head_le hn hfirst
  have hend := end_le_getLast hn hlast
  simp only [LineRange.contains_iff, LineRange.join]
  constructor
  · intro hl
    by_cases hbefore : l < range.startLineNumber
    · have := hstart last hmem
      refine Or.inr ⟨first, mem_of_mem_head? hfirst, LineRange.contains_iff.mpr ?_⟩
      omega
    by_cases hbehind : range.endLineNumberExclusive ≤ l
    · have := hend first (mem_of_mem_head? hfirst)
      refine Or.inr ⟨last, hmem, LineRange.contains_iff.mpr ?_⟩
      omega
    · exact Or.inl ⟨not_lt.mp hbefore, not_le.mp hbehind⟩
  · rintro (hl | ⟨m, hm, hl⟩)
    · omega
    · have := hstart m hm
      have := hend m hm
      rw [LineRange.contains_iff] at hl
      omega

section

variable (hn : Normalized ranges)
include hn

theorem addRange_spec (range : LineRange) : ∃ s, addRange ranges range =
    some s ∧ Normalized s ∧ lines s = lines ranges ∪ {l | range.contains l} := by
  by_cases hlength : range.length = 0
  · refine ⟨ranges, by rw [addRange, if_pos hlength], hn, ?_⟩
    ext l
    simp only [LineRange.length] at hlength
    simp only [Set.mem_union, Set.mem_ofPred_eq, LineRange.contains_iff]
    constructor
    · exact Or.inl
    · rintro (hl | hl)
      · exact hl
      · omega
  have hrange : range.startLineNumber < range.endLineNumberExclusive := by
    have := range.start_le_end
    simp only [LineRange.length] at hlength
    omega
  obtain ⟨as, ms, bs, rfl, has, hms, hbs, hfirst, hlast⟩ := hn.split range
  have hnms := (normalized_append.mp (normalized_append.mp hn).2.1).1
  rw [addRange, if_neg hlength]
  simp only [hfirst, hlast]
  rcases hjoin : ms with - | ⟨first, rest⟩
  · subst hjoin
    have hput := replace_touched (r := range) hn hrange has hbs (by simp)
    refine ⟨_, ?_, hput⟩
    rw [length_nil, if_pos (Nat.add_zero _).symm, nil_append, take_left, drop_left]
  obtain ⟨last, hgetLast⟩ : ∃ last, ms.getLast? = some last := by
    rw [hjoin]
    exact ⟨_, getLast?_cons⟩
  have hput := replace_touched hn hrange has hbs fun l =>
    contains_join hnms (by rw [hjoin, head?_cons]) hgetLast hms
  refine ⟨_, ?_, hjoin ▸ hput⟩
  have hhead : (as ++ (first :: rest ++ bs))[as.length]? = some first := by simp
  rcases rest with - | ⟨second, rest⟩
  · obtain rfl : first = last := by simpa [hjoin] using hgetLast
    rw [if_neg (by simp), if_pos (by simp), hhead]
    simp [LineRange.join]
  · have hend : (as ++ (first :: second :: rest ++ bs))[
        as.length + (first :: second :: rest).length - 1]? = some last := by
      rw [← hgetLast, hjoin, getLast?_eq_getElem?, getElem?_append_right (by simp),
        getElem?_append_left (by simp)]
      congr 1
      simp only [length_cons]
      omega
    rw [if_neg (by simp), if_neg (by simp), hhead, hend]
    simp

theorem next_spec (ho : Normalized other)
    {rest1 rest2 : LineRangeSet} (h : next ranges other = some (r, rest1, rest2)) :
    Normalized rest1 ∧ Normalized rest2 ∧ r.startLineNumber < r.endLineNumberExclusive ∧
      (∀ l, l ∈ lines ranges ∪ lines other ↔ r.contains l ∨ l ∈ lines rest1 ∪ lines rest2) ∧
      ∀ l ∈ lines rest1 ∪ lines rest2, r.startLineNumber ≤ l := by
  unfold next at h
  simp only [Set.mem_union]
  split at h
  · obtain ⟨h1, hrest1, hn'⟩ := normalized_cons.mp hn
    obtain ⟨h2, hrest2, ho'⟩ := normalized_cons.mp ho
    split at h
    · cases h
      refine ⟨hn', ho, h1, fun l => ?_, fun l hl => ?_⟩
      · rw [mem_lines_cons, ← LineRange.contains_iff, or_assoc]
      · rcases hl with hl | hl
        · exact (h1.trans (hrest1 l hl)).le
        · rcases mem_lines_cons.mp hl with hl | hl
          · omega
          · have := hrest2 l hl
            omega
    · cases h
      refine ⟨hn, ho', h2, fun l => ?_, fun l hl => ?_⟩
      · rw [mem_lines_cons (r := r), ← LineRange.contains_iff, or_left_comm]
      · rcases hl with hl | hl
        · rcases mem_lines_cons.mp hl with hl | hl
          · omega
          · have := hrest1 l hl
            omega
        · exact (h2.trans (hrest2 l hl)).le
  · cases h
    obtain ⟨h1, hrest1, hn'⟩ := normalized_cons.mp hn
    refine ⟨hn', ho, h1, fun l => ?_, fun l hl => ?_⟩
    · rw [mem_lines_cons, ← LineRange.contains_iff, or_assoc]
    · exact (h1.trans (hrest1 l (hl.resolve_right (by simp)))).le
  · cases h
    obtain ⟨h2, hrest2, ho'⟩ := normalized_cons.mp ho
    refine ⟨hn, ho', h2, fun l => ?_, fun l hl => ?_⟩
    · rw [mem_lines_cons, ← LineRange.contains_iff, or_left_comm]
    · exact (h2.trans (hrest2 l (hl.resolve_left (by simp)))).le
  · cases h

omit hn in
theorem next_eq_none (h : next ranges other = none) : ranges = [] ∧ other = [] := by
  unfold next at h
  split at h
  · split at h <;> cases h
  · cases h
  · cases h
  · exact ⟨rfl, rfl⟩

theorem unionLoop_spec {current : LineRange} (ho : Normalized other)
    (hcurrent : current.startLineNumber < current.endLineNumberExclusive)
    (hstart : ∀ l ∈ lines ranges ∪ lines other, current.startLineNumber ≤ l) :
    Normalized (unionLoop ranges other current) ∧ ∀ l, l ∈ lines (unionLoop ranges other current) ↔
      current.contains l ∨ l ∈ lines ranges ∪ lines other := by
  fun_induction unionLoop ranges other current with
  | case1 ranges other current h =>
    obtain ⟨rfl, rfl⟩ := next_eq_none h
    refine ⟨normalized_cons.mpr ⟨hcurrent, by simp, ⟨List.Pairwise.nil, by simp⟩⟩, fun l => ?_⟩
    simp [mem_lines_cons, LineRange.contains_iff]
  | case2 ranges other current r rest1 rest2 h _ htouch ih =>
    obtain ⟨hn', ho', hr, hlines, hrest⟩ := next_spec hn ho h
    have hle : current.startLineNumber ≤ r.startLineNumber :=
      hstart _ ((hlines _).mpr (Or.inl (LineRange.contains_iff.mpr ⟨le_rfl, hr⟩)))
    obtain ⟨hnorm, hloop⟩ := ih hn' ho' (hcurrent.trans_le (le_max_left _ _))
      fun l hl => hstart l ((hlines l).mpr (Or.inr hl))
    refine ⟨hnorm, fun l => ?_⟩
    rw [hloop, hlines, ← or_assoc]
    refine or_congr_left ?_
    simp only [LineRange.contains_iff]
    omega
  | case3 ranges other current r rest1 rest2 h _ htouch ih =>
    obtain ⟨hn', ho', hr, hlines, hrest⟩ := next_spec hn ho h
    obtain ⟨hnorm, hloop⟩ := ih hn' ho' hr hrest
    refine ⟨normalized_cons.mpr ⟨hcurrent, fun l hl => ?_, hnorm⟩, fun l => ?_⟩
    · rcases (hloop l).mp hl with hl | hl
      · have := (LineRange.contains_iff.mp hl).1
        omega
      · have := hrest l hl
        omega
    · rw [mem_lines_cons, hloop, hlines, LineRange.contains_iff (r := current)]

theorem getUnion_spec (ho : Normalized other) : Normalized
    (getUnion ranges other) ∧ lines (getUnion ranges other) = lines ranges ∪ lines other := by
  unfold getUnion
  split
  · rename_i h
    rw [List.isEmpty_iff.mp h, lines_nil, Set.empty_union]
    exact ⟨ho, rfl⟩
  split
  · rename_i h
    rw [List.isEmpty_iff.mp h, lines_nil, Set.union_empty]
    exact ⟨hn, rfl⟩
  split
  · rename_i hempty _ h
    exact absurd (List.isEmpty_iff.mpr (next_eq_none h).2) hempty
  · rename_i current rest1 rest2 h
    obtain ⟨hn', ho', hr, hlines, hrest⟩ := next_spec hn ho h
    obtain ⟨hnorm, hloop⟩ := unionLoop_spec hn' ho' hr hrest
    refine ⟨hnorm, ?_⟩
    ext l
    rw [hloop, hlines]

omit hn in
theorem subtractLoop_spec {start : ℤ} (stop : ℤ) (hn : Normalized ms)
    (hms : ∀ m ∈ ms, start ≤ m.endLineNumberExclusive ∧ m.startLineNumber ≤ stop) :
    Normalized (subtractLoop stop start ms) ∧
    ∀ l, l ∈ lines (subtractLoop stop start ms) ↔ (start ≤ l ∧ l < stop) ∧ l ∉ lines ms := by
  induction ms generalizing start with
  | nil =>
    rw [subtractLoop]
    split
    · rename_i h
      refine ⟨normalized_cons.mpr ⟨h, by simp, ⟨List.Pairwise.nil, by simp⟩⟩, fun l => ?_⟩
      simp [mem_lines_cons]
    · refine ⟨⟨List.Pairwise.nil, by simp⟩, fun l => ?_⟩
      simp only [lines_nil, Set.mem_empty_iff_false, not_false_eq_true, and_true, false_iff]
      omega
  | cons m ms ih =>
    obtain ⟨hm, hbehind, hn'⟩ := normalized_cons.mp hn
    obtain ⟨⟨hstart, hstop⟩, hms⟩ := forall_mem_cons.mp hms
    have hends : ∀ x ∈ ms, m.endLineNumberExclusive ≤ x.endLineNumberExclusive ∧
        x.startLineNumber ≤ stop := fun x hx =>
      ⟨((pairwise_cons.mp hn.1).1 x hx).le.trans x.start_le_end, (hms x hx).2⟩
    obtain ⟨hnorm, hloop⟩ := ih hn' hends
    rw [subtractLoop]
    split
    · rename_i h
      refine ⟨normalized_cons.mpr ⟨h, fun l hl => ?_, hnorm⟩, fun l => ?_⟩
      · exact hm.trans_le ((hloop l).mp hl).1.1
      · rw [mem_lines_cons, mem_lines_cons, hloop]
        by_cases hl : l ∈ lines ms
        · have := hbehind l hl
          simp only [hl, not_true_eq_false, and_false, or_false, or_true, iff_false]
          omega
        · simp only [hl, not_false_eq_true, and_true, or_false]
          omega
    · refine ⟨hnorm, fun l => ?_⟩
      rw [mem_lines_cons, hloop]
      by_cases hl : l ∈ lines ms
      · simp only [hl, not_true_eq_false, and_false, or_true]
      · simp only [hl, not_false_eq_true, and_true, or_false]
        omega

theorem subtractFrom_spec (hrange : range.isEmpty = false) :
    Normalized (subtractFrom ranges range) ∧
      lines (subtractFrom ranges range) = {l | range.contains l} \ lines ranges := by
  obtain ⟨as, ms, bs, rfl, has, hms, hbs, hfirst, hlast⟩ := hn.split range
  have hnms := (normalized_append.mp (normalized_append.mp hn).2.1).1
  -- The other ranges have no line of this one.
  have hothers : ∀ l, range.contains l → (l ∈ lines (as ++ (ms ++ bs)) ↔ l ∈ lines ms) := by
    intro l hl
    rw [LineRange.contains_iff] at hl
    simp only [mem_lines_append]
    have has' : l ∉ lines as := by
      rintro ⟨a, ha, hla⟩
      have := has a ha
      rw [LineRange.contains_iff] at hla
      omega
    have hbs' : l ∉ lines bs := by
      rintro ⟨b, hb, hlb⟩
      have := hbs b hb
      rw [LineRange.contains_iff] at hlb
      omega
    tauto
  have hresult : subtractFrom (as ++ (ms ++ bs)) range =
      subtractLoop range.endLineNumberExclusive range.startLineNumber ms := by
    rw [subtractFrom]
    simp only [hfirst, hlast]
    split
    · rename_i h
      obtain rfl := length_eq_zero_iff.mp (show ms.length = 0 by omega)
      rw [subtractLoop, dif_pos (LineRange.isEmpty_iff.mp hrange)]
    · rw [← append_assoc, ← length_append, take_left, drop_left]
  obtain ⟨hnorm, hloop⟩ := subtractLoop_spec range.endLineNumberExclusive hnms hms
  rw [hresult]
  refine ⟨hnorm, ?_⟩
  ext l
  rw [hloop, ← LineRange.contains_iff, Set.mem_sdiff, Set.mem_ofPred_eq]
  exact and_congr_right fun hl => not_congr (hothers l hl).symm

end

theorem contains_of_intersect {i : LineRange} (h : r.intersect range = some i) :
    (i.contains l ↔ r.contains l ∧ range.contains l) ∧
      i.endLineNumberExclusive = min r.endLineNumberExclusive range.endLineNumberExclusive := by
  unfold LineRange.intersect at h
  split at h
  · cases h
    refine ⟨?_, rfl⟩
    simp only [LineRange.contains_iff]
    omega
  · cases h

theorem not_contains_of_intersect (h : r.intersect range = none) :
    ¬ (r.contains l ∧ range.contains l) := by
  unfold LineRange.intersect at h
  split at h
  · cases h
  · simp only [LineRange.contains_iff]
    omega

theorem intersection_rest {r1 r2 : LineRange} {rest1 rest2 : LineRangeSet} (rest : LineRangeSet)
    (hn : Normalized (r1 :: rest1)) (ho : Normalized (r2 :: rest2))
    (h1 : r1.endLineNumberExclusive < r2.endLineNumberExclusive → ∀ l,
    l ∈ lines rest ↔ l ∈ lines rest1 ∧ l ∈ lines (r2 :: rest2)) (h2 : r2.endLineNumberExclusive ≤
    r1.endLineNumberExclusive → ∀ l, l ∈ lines rest ↔ l ∈ lines (r1 :: rest1) ∧ l ∈ lines rest2) :
    (∀ l ∈ lines rest, min r1.endLineNumberExclusive r2.endLineNumberExclusive < l) ∧ ∀ l, l ∈ lines
    (r1 :: rest1) ∧ l ∈ lines (r2 :: rest2) ↔ (r1.contains l ∧ r2.contains l) ∨ l ∈ lines rest := by
  have hbehind1 := (normalized_cons.mp hn).2.1
  have hbehind2 := (normalized_cons.mp ho).2.1
  have hrest : ∀ l, l ∈ lines rest → l ∈ lines rest1 ∧ r1.endLineNumberExclusive <
      r2.endLineNumberExclusive ∨ l ∈ lines rest2 ∧ r2.endLineNumberExclusive ≤
      r1.endLineNumberExclusive := by
    intro l hl
    rcases lt_or_ge r1.endLineNumberExclusive r2.endLineNumberExclusive with h | h
    · exact Or.inl ⟨((h1 h l).mp hl).1, h⟩
    · exact Or.inr ⟨((h2 h l).mp hl).2, h⟩
  refine ⟨fun l hl => ?_, fun l => ?_⟩
  · rcases hrest l hl with ⟨hl, h⟩ | ⟨hl, h⟩
    · have := hbehind1 l hl
      omega
    · have := hbehind2 l hl
      omega
  · have hl1 := hbehind1 l
    have hl2 := hbehind2 l
    simp only [mem_lines_cons, LineRange.contains_iff] at h1 h2 ⊢
    rcases lt_or_ge r1.endLineNumberExclusive r2.endLineNumberExclusive with h | h
    · rw [h1 h l]
      grind
    · rw [h2 h l]
      grind

variable (hn : Normalized ranges)
include hn

theorem getIntersection_spec (ho : Normalized other) : Normalized (getIntersection ranges other) ∧
    ∀ l, l ∈ lines (getIntersection ranges other) ↔ l ∈ lines ranges ∧ l ∈ lines other := by
  induction hlen : ranges.length + other.length using Nat.strong_induction_on
    generalizing ranges other with
  | _ n ih =>
    rcases ranges with - | ⟨r1, rest1⟩
    · simp [getIntersection, Normalized]
    rcases other with - | ⟨r2, rest2⟩
    · simp [getIntersection, Normalized]
    obtain ⟨hr1, -, hn'⟩ := normalized_cons.mp hn
    obtain ⟨-, -, ho'⟩ := normalized_cons.mp ho
    simp only [length_cons] at hlen
    have hleft := ih _ (by simp only [length_cons]; omega) hn' ho rfl
    have hright := ih _ (by simp only [length_cons]; omega) hn ho' rfl
    rw [getIntersection]
    generalize hrest : (if r1.endLineNumberExclusive < r2.endLineNumberExclusive then
      getIntersection rest1 (r2 :: rest2) else getIntersection (r1 :: rest1) rest2) = rest
    have hnorm : Normalized rest := by
      rw [← hrest]
      split
      · exact hleft.1
      · exact hright.1
    obtain ⟨hbehind, hlines⟩ := intersection_rest rest hn ho
      (fun h => by rw [← hrest, if_pos h]; exact hleft.2)
      (fun h => by rw [← hrest, if_neg (not_lt.mpr h)]; exact hright.2)
    simp only [hlines]
    split
    · rename_i i hi
      have hi' := fun l => (contains_of_intersect (l := l) hi).1
      split
      · rename_i hempty
        refine ⟨hnorm, fun l => ?_⟩
        rw [← hi', LineRange.contains_iff]
        simp only [LineRange.isEmpty, decide_eq_true_eq] at hempty
        constructor
        · exact Or.inr
        · rintro (hl | hl)
          · omega
          · exact hl
      · rename_i hempty
        refine ⟨normalized_cons.mpr ⟨LineRange.isEmpty_iff.mp (by simpa using hempty), ?_, hnorm⟩,
          fun l => ?_⟩
        · rw [(contains_of_intersect (l := 0) hi).2]
          exact hbehind
        · rw [mem_lines_cons, ← hi', LineRange.contains_iff]
    · rename_i hi
      refine ⟨hnorm, fun l => ?_⟩
      have := not_contains_of_intersect (l := l) hi
      tauto

theorem getWithDelta_spec (value : ℤ) : Normalized (getWithDelta ranges value) ∧
    ∀ l, l ∈ lines (getWithDelta ranges value) ↔ l - value ∈ lines ranges := by
  refine ⟨⟨pairwise_map.mpr (hn.1.imp fun h => Int.add_lt_add_right h value), ?_⟩, fun l => ?_⟩
  · intro r hr
    obtain ⟨s, hs, rfl⟩ := mem_map.mp hr
    have := LineRange.isEmpty_iff.mp (hn.2 s hs)
    exact LineRange.isEmpty_iff.mpr (Int.add_lt_add_right this value)
  · simp only [lines, getWithDelta, Set.mem_ofPred_eq, mem_map, exists_exists_and_eq_and]
    refine exists_congr fun r => and_congr_right fun _ => ?_
    simp only [LineRange.contains_iff, LineRange.delta]
    omega

theorem findLast_iff {p : ℤ → Bool} (hp : ∀ a b, a ≤ b → p b → p a) (q : ℤ) :
    (findLastMonotonous ranges fun r => p r.startLineNumber).any (fun r => r.endLineNumberExclusive
    > q) ↔ ∃ r ∈ ranges, p r.startLineNumber ∧ q < r.endLineNumberExclusive := by
  let early : LineRange → Bool := fun r => p r.startLineNumber
  have has : ∀ a ∈ ranges.takeWhile early, early a := fun a ha => mem_takeWhile_imp ha
  have hbs : ∀ b ∈ ranges.dropWhile early, early b = false :=
    dropWhile_false hn.1 fun a b hab => hp _ _ (a.start_le_end.trans hab.le)
  have hsplit := takeWhile_append_dropWhile (p := early) (l := ranges)
  have hfind := findLastMonotonous_eq has hbs
  rw [hsplit] at hfind
  rw [hfind, Option.any_eq_true]
  constructor
  · rintro ⟨r, hr, hq⟩
    have hmem := mem_of_mem_getLast? (Option.mem_def.mpr hr)
    exact ⟨r, takeWhile_subset _ hmem, has r hmem, of_decide_eq_true hq⟩
  · rintro ⟨r, hr, hpr, hq⟩
    rw [← hsplit, List.mem_append] at hr
    have hmem : r ∈ ranges.takeWhile early := by
      refine hr.resolve_right fun hdrop => ?_
      have hfalse := hbs r hdrop
      simp only [early, hpr, Bool.true_eq_false] at hfalse
    have hnorm : Normalized (ranges.takeWhile early) :=
      ⟨hn.1.sublist (takeWhile_sublist _), fun a ha => hn.2 a (takeWhile_subset _ ha)⟩
    have hsome : (ranges.takeWhile early).getLast? ≠ none := by
      rw [Ne, getLast?_eq_none_iff]
      exact ne_nil_of_mem hmem
    obtain ⟨last, hlast⟩ := Option.ne_none_iff_exists'.mp hsome
    exact ⟨last, hlast, decide_eq_true (hq.trans_le (end_le_getLast hnorm hlast r hmem))⟩

theorem contains_iff (l : ℤ) : contains ranges l ↔ l ∈ lines ranges := by
  rw [contains, findLast_iff (p := fun a => a ≤ l) hn (fun a b hab hb => by simp at hb ⊢; omega)]
  simp only [lines, Set.mem_ofPred_eq, LineRange.contains_iff, decide_eq_true_eq]

theorem intersects_iff (hrange : range.isEmpty = false) :
    intersects ranges range ↔ ({l | range.contains l} ∩ lines ranges).Nonempty := by
  rw [LineRange.isEmpty_iff] at hrange
  rw [intersects, findLast_iff (p := fun a => a < range.endLineNumberExclusive) hn
    (fun a b hab hb => by simp at hb ⊢; omega)]
  constructor
  · rintro ⟨r, hr, hstart, hend⟩
    have hr' := LineRange.isEmpty_iff.mp (hn.2 r hr)
    have hstart := of_decide_eq_true hstart
    refine ⟨max range.startLineNumber r.startLineNumber, ?_, r, hr, ?_⟩
    · exact LineRange.contains_iff.mpr (by omega)
    · exact LineRange.contains_iff.mpr (by omega)
  · rintro ⟨l, hl, r, hr, hlr⟩
    rw [Set.mem_ofPred_eq, LineRange.contains_iff] at hl
    rw [LineRange.contains_iff] at hlr
    exact ⟨r, hr, decide_eq_true (by omega), by omega⟩

end LineRangeSet

structure SetMethods (σ : Type) where
  empty : σ
  isEmpty : σ → Bool
  addRange : σ → LineRange → Option σ
  getUnion : σ → σ → σ
  subtractFrom : σ → LineRange → σ
  getIntersection : σ → σ → σ
  getWithDelta : σ → ℤ → σ

/-- A call names the sets the calls before it have returned by their numbers. -/
inductive SetCall
  | new
  | addRange (set : ℕ) (range : LineRange)
  | getUnion (set other : ℕ)
  | subtractFrom (set : ℕ) (range : LineRange)
  | getIntersection (set other : ℕ)
  | getWithDelta (set : ℕ) (value : ℤ)

/-- The objects, and which of them each call returned. -/
structure SetObjects (σ : Type) where
  objects : List σ
  returned : List ℕ

namespace SetObjects

variable {σ : Type}

def create (s : SetObjects σ) (set : σ) : SetObjects σ :=
  ⟨s.objects ++ [set], s.returned ++ [s.objects.length]⟩

/-- `getUnion` may return one of its sets itself, and `addRange` changes the object. -/
def step (m : SetMethods σ) (s : SetObjects σ) : SetCall → Option (SetObjects σ)
  | .new => some (s.create m.empty)
  | .addRange set range => do
    let i ← s.returned[set]?
    let ranges ← s.objects[i]?
    let ranges ← m.addRange ranges range
    some { s with objects := s.objects.set i ranges }
  | .getUnion set other => do
    let i ← s.returned[set]?
    let j ← s.returned[other]?
    let ranges ← s.objects[i]?
    let others ← s.objects[j]?
    if m.isEmpty ranges then some { s with returned := s.returned ++ [j] }
    else if m.isEmpty others then some { s with returned := s.returned ++ [i] }
    else some (s.create (m.getUnion ranges others))
  | .subtractFrom set range => do
    let i ← s.returned[set]?
    let ranges ← s.objects[i]?
    some (s.create (m.subtractFrom ranges range))
  | .getIntersection set other => do
    let i ← s.returned[set]?
    let j ← s.returned[other]?
    let ranges ← s.objects[i]?
    let others ← s.objects[j]?
    some (s.create (m.getIntersection ranges others))
  | .getWithDelta set value => do
    let i ← s.returned[set]?
    let ranges ← s.objects[i]?
    some (s.create (m.getWithDelta ranges value))

def run (m : SetMethods σ) (s : SetObjects σ) : List SetCall → Option (SetObjects σ)
  | [] => some s
  | call :: calls => (s.step m call).bind fun s => s.run m calls

end SetObjects

namespace SetCall

/-- The call names sets that were returned, and does not subtract from an empty range. -/
def Meets (returned : ℕ) : SetCall → Prop
  | .new => True
  | .addRange set _ | .getWithDelta set _ => set < returned
  | .getUnion set other | .getIntersection set other => set < returned ∧ other < returned
  | .subtractFrom set range => set < returned ∧ range.isEmpty = false

def returns : SetCall → ℕ
  | .addRange .. => 0
  | _ => 1

def AllMeet (returned : ℕ) : List SetCall → Prop
  | [] => True
  | call :: calls => call.Meets returned ∧ AllMeet (returned + call.returns) calls

end SetCall

namespace LineRangeSet

def methods : SetMethods LineRangeSet where
  empty := []
  isEmpty := List.isEmpty
  addRange := addRange
  getUnion := getUnion
  subtractFrom := subtractFrom
  getIntersection := getIntersection
  getWithDelta := getWithDelta

open Classical in
noncomputable def lineMethods : SetMethods (Set ℤ) where
  empty := ∅
  isEmpty set := decide (set = ∅)
  addRange set range := some (set ∪ {l | range.contains l})
  getUnion set other := set ∪ other
  subtractFrom set range := {l | range.contains l} \ set
  getIntersection set other := set ∩ other
  getWithDelta set value := {l | l - value ∈ set}

variable {ranges : LineRangeSet}

theorem Normalized.isEmpty_eq (hn : Normalized ranges) :
    methods.isEmpty ranges = lineMethods.isEmpty (lines ranges) := by
  simp only [methods, lineMethods]
  rcases ranges with - | ⟨r, ranges⟩
  · simp
  · have hmem : r.startLineNumber ∈ lines (r :: ranges) :=
      mem_lines_cons.mpr (Or.inl ⟨le_rfl, (normalized_cons.mp hn).1⟩)
    rw [decide_eq_false (Set.nonempty_iff_ne_empty.mp ⟨_, hmem⟩)]
    rfl

/-- Normalized objects, and the sets of their lines. -/
structure Agrees (s : SetObjects LineRangeSet) (t : SetObjects (Set ℤ)) : Prop where
  objects : s.objects.map lines = t.objects
  normalized : ∀ ranges ∈ s.objects, Normalized ranges
  returned : s.returned = t.returned
  named : ∀ i ∈ s.returned, i < s.objects.length

variable {s : SetObjects LineRangeSet} {t : SetObjects (Set ℤ)} {name : ℕ}

section

variable (h : Agrees s t)
include h

theorem Agrees.lookup (hname : name < s.returned.length) : ∃ i ranges,
    s.returned[name]? = some i ∧ t.returned[name]? = some i ∧ s.objects[i]? = some ranges ∧
    t.objects[i]? = some (lines ranges) ∧ Normalized ranges ∧ i < s.objects.length := by
  have hi := h.named _ (getElem_mem hname)
  have hs := getElem?_eq_getElem hi
  refine ⟨_, _, getElem?_eq_getElem hname, ?_, hs, ?_, h.normalized _ (getElem_mem hi), hi⟩
  · rw [← h.returned, getElem?_eq_getElem hname]
  · rw [← h.objects, getElem?_map, hs]
    rfl

theorem Agrees.create {set : Set ℤ} (hn : Normalized ranges)
    (hset : lines ranges = set) : Agrees (s.create ranges) (t.create set) := by
  refine ⟨?_, ?_, ?_, fun i hi => ?_⟩
  · simp only [SetObjects.create, map_append, h.objects, map_singleton, hset]
  · exact forall_mem_append.mpr ⟨h.normalized, forall_mem_singleton.mpr hn⟩
  · simp only [SetObjects.create, h.returned, ← h.objects, length_map]
  · simp only [SetObjects.create, length_append, length_singleton, List.mem_append,
      mem_singleton] at hi ⊢
    rcases hi with hi | rfl
    · exact (h.named i hi).trans (Nat.lt_succ_self _)
    · exact Nat.lt_succ_self _

theorem Agrees.again {i : ℕ} (hi : i < s.objects.length) :
    Agrees { s with returned := s.returned ++ [i] } { t with returned := t.returned ++ [i] } := by
  refine ⟨h.objects, h.normalized, by rw [h.returned], fun j hj => ?_⟩
  rcases List.mem_append.mp hj with hj | hj
  · exact h.named j hj
  · exact (mem_singleton.mp hj) ▸ hi

theorem Agrees.step {call : SetCall} (hcall : call.Meets s.returned.length) :
    ∃ s' t', s.step methods call = some s' ∧ t.step lineMethods call = some t' ∧ Agrees s' t' ∧
      s'.returned.length = s.returned.length + call.returns := by
  cases call with
  | new =>
    exact ⟨_, _, rfl, rfl, h.create ⟨List.Pairwise.nil, by simp [methods]⟩ lines_nil,
      length_append⟩
  | addRange name range =>
    obtain ⟨i, ranges, hs, ht, hranges, hset, hn, hi⟩ := h.lookup hcall
    obtain ⟨ranges', hadd, hn', hlines⟩ := addRange_spec hn range
    refine ⟨{ s with objects := s.objects.set i ranges' },
      { t with objects := t.objects.set i (lines ranges') }, ?_, ?_, ⟨?_, ?_, h.returned, ?_⟩, rfl⟩
    · simp [SetObjects.step, hs, hranges, methods, hadd]
    · simp [SetObjects.step, ht, hset, lineMethods, hlines]
    · rw [← h.objects, map_set]
    · intro ranges hmem
      rcases mem_or_eq_of_mem_set hmem with hmem | rfl
      · exact h.normalized ranges hmem
      · exact hn'
    · simpa using h.named
  | getUnion name other =>
    obtain ⟨i, ranges, hs, ht, hranges, hset, hn, hi⟩ := h.lookup hcall.1
    obtain ⟨j, others, hs', ht', hothers, hset', ho, hj⟩ := h.lookup hcall.2
    have hempty := hn.isEmpty_eq
    have hempty' := ho.isEmpty_eq
    obtain ⟨hnorm, hlines⟩ := getUnion_spec hn ho
    simp only [SetObjects.step, hs, ht, hranges, hset, hs', ht', hothers, hset', Option.bind_eq_bind,
      Option.bind_some, hempty, hempty']
    split
    · exact ⟨_, _, rfl, rfl, h.again hj, length_append⟩
    split
    · exact ⟨_, _, rfl, rfl, h.again hi, length_append⟩
    · exact ⟨_, _, rfl, rfl, h.create hnorm hlines, length_append⟩
  | subtractFrom name range =>
    obtain ⟨hname, hrange⟩ := hcall
    obtain ⟨i, ranges, hs, ht, hranges, hset, hn, hi⟩ := h.lookup hname
    obtain ⟨hnorm, hlines⟩ := subtractFrom_spec hn hrange
    simp only [SetObjects.step, hs, ht, hranges, hset, Option.bind_eq_bind, Option.bind_some]
    exact ⟨_, _, rfl, rfl, h.create hnorm hlines, length_append⟩
  | getIntersection name other =>
    obtain ⟨i, ranges, hs, ht, hranges, hset, hn, hi⟩ := h.lookup hcall.1
    obtain ⟨j, others, hs', ht', hothers, hset', ho, hj⟩ := h.lookup hcall.2
    obtain ⟨hnorm, hlines⟩ := getIntersection_spec hn ho
    simp only [SetObjects.step, hs, ht, hranges, hset, hs', ht', hothers, hset', Option.bind_eq_bind,
      Option.bind_some]
    exact ⟨_, _, rfl, rfl, h.create hnorm (Set.ext hlines), length_append⟩
  | getWithDelta name value =>
    obtain ⟨i, ranges, hs, ht, hranges, hset, hn, hi⟩ := h.lookup hcall
    obtain ⟨hnorm, hlines⟩ := getWithDelta_spec hn value
    simp only [SetObjects.step, hs, ht, hranges, hset, Option.bind_eq_bind, Option.bind_some]
    exact ⟨_, _, rfl, rfl, h.create hnorm (Set.ext hlines), length_append⟩

theorem Agrees.run {calls : List SetCall} (hcalls : SetCall.AllMeet s.returned.length calls) :
    ∃ s' t', s.run methods calls = some s' ∧ t.run lineMethods calls = some t' ∧ Agrees s' t' := by
  induction calls generalizing s t with
  | nil => exact ⟨s, t, rfl, rfl, h⟩
  | cons call calls ih =>
    obtain ⟨hcall, hcalls⟩ := hcalls
    obtain ⟨s', t', hs, ht, h', hlength⟩ := h.step hcall
    obtain ⟨s'', t'', hs', ht', h''⟩ := ih h' (hlength ▸ hcalls)
    refine ⟨s'', t'', ?_, ?_, h''⟩
    · rw [SetObjects.run, hs, Option.bind_some, hs']
    · rw [SetObjects.run, ht, Option.bind_some, ht']

end

/-- After any calls the sets are normalized, their lines are what the same calls make of sets of
lines, and the two questions are answered from the lines. -/
theorem run_lines (calls : List SetCall) (h : SetCall.AllMeet 0 calls) :
    ∃ s t, SetObjects.run methods ⟨[], []⟩ calls = some s ∧
      SetObjects.run lineMethods ⟨[], []⟩ calls = some t ∧
      s.returned = t.returned ∧ s.objects.map lines = t.objects ∧
      ∀ set ∈ s.objects, Normalized set ∧ (∀ l, contains set l ↔ l ∈ lines set) ∧
        ∀ range : LineRange, range.isEmpty = false →
          (intersects set range ↔ ({l | range.contains l} ∩ lines set).Nonempty) := by
  have hstart : Agrees ⟨[], []⟩ ⟨[], []⟩ := ⟨rfl, by simp, rfl, by simp⟩
  obtain ⟨s, t, hs, ht, hagrees⟩ := hstart.run h
  refine ⟨s, t, hs, ht, hagrees.returned, hagrees.objects, fun set hset => ?_⟩
  have hn := hagrees.normalized set hset
  exact ⟨hn, contains_iff hn, fun range hrange => intersects_iff hn hrange⟩

/-- Two lines, moved, joined with themselves and taken from a range. -/
theorem run_lines_short : ∃ s, SetObjects.run methods ⟨[], []⟩ [.new, .addRange 0 ⟨1, 3, by decide⟩,
      .getWithDelta 0 2, .getUnion 0 1, .subtractFrom 2 ⟨0, 9, by decide⟩] = some s ∧
    ∀ set ∈ s.objects, Normalized set ∧ ∀ l, contains set l ↔ l ∈ lines set := by
  have hmeets : SetCall.AllMeet 0 [.new, .addRange 0 ⟨1, 3, by decide⟩, .getWithDelta 0 2,
      .getUnion 0 1, .subtractFrom 2 ⟨0, 9, by decide⟩] :=
    ⟨trivial, Nat.zero_lt_one, Nat.zero_lt_one, ⟨by decide, by decide⟩, ⟨by decide, by decide⟩,
      trivial⟩
  obtain ⟨s, -, hrun, -, -, -, hsets⟩ := run_lines _ hmeets
  exact ⟨s, hrun, fun set hset => ⟨(hsets set hset).1, (hsets set hset).2.1⟩⟩

variable {a b c : LineRangeSet}

theorem Normalized.bounds (h : Normalized (r :: a)) :
    IsLeast (lines (r :: a)) r.startLineNumber ∧
    IsLeast {l | r.startLineNumber ≤ l ∧ l ∉ lines (r :: a)} r.endLineNumberExclusive ∧
    lines a = {l | l ∈ lines (r :: a) ∧ r.endLineNumberExclusive < l} := by
  obtain ⟨hr, hafter, -⟩ := normalized_cons.mp h
  simp only [IsLeast, mem_lowerBounds, Set.ext_iff, Set.mem_ofPred_eq, mem_lines_cons]
  refine ⟨⟨Or.inl ⟨le_rfl, hr⟩, fun l hl => ?_⟩, ⟨⟨hr.le, fun hl => ?_⟩, fun l hl => ?_⟩,
    fun l => ⟨fun hl => ⟨Or.inr hl, hafter l hl⟩, fun hl => ?_⟩⟩
  · exact hl.elim And.left fun hl => (hr.trans (hafter l hl)).le
  · exact hl.elim (fun hl => hl.2.false) fun hl => (hafter _ hl).false
  · exact le_of_not_gt fun hlt => hl.2 (Or.inl ⟨hl.1, hlt⟩)
  · exact hl.1.resolve_left fun hlt => hlt.2.not_gt hl.2

/-- Normalized sets are told apart by their lines. -/
theorem Normalized.eq_of_lines (ha : Normalized a) (hb : Normalized b) (h : lines a = lines b) :
    a = b := by
  induction a generalizing b with
  | nil =>
    rcases b with - | ⟨s, b⟩
    · rfl
    · exact absurd hb.bounds.1.1 (by simp [← h])
  | cons r a ih =>
    obtain ⟨hstart, hend, hrest⟩ := ha.bounds
    rcases b with - | ⟨s, b⟩
    · exact absurd hstart.1 (by simp [h])
    obtain ⟨hstart', hend', hrest'⟩ := hb.bounds
    rw [h] at hstart hend hrest
    have hstarts := hstart.unique hstart'
    rw [hstarts] at hend
    obtain rfl := LineRange.ext hstarts (hend.unique hend')
    rw [ih (normalized_cons.mp ha).2.2 (normalized_cons.mp hb).2.2 (hrest.trans hrest'.symm)]

/-- Union and intersection are those of a distributive lattice, to the very ranges. -/
theorem set_laws (ha : Normalized a) (hb : Normalized b) (hc : Normalized c) :
    getUnion a b = getUnion b a ∧
    getUnion (getUnion a b) c = getUnion a (getUnion b c) ∧
    getUnion a (getIntersection a b) = a ∧
    getIntersection a b = getIntersection b a ∧
    getIntersection (getIntersection a b) c = getIntersection a (getIntersection b c) ∧
    getIntersection a (getUnion a b) = a ∧
    getIntersection a (getUnion b c) = getUnion (getIntersection a b) (getIntersection a c) := by
  have union {x y : LineRangeSet} (hx : Normalized x) (hy : Normalized y) := getUnion_spec hx hy
  have inter {x y : LineRangeSet} (hx : Normalized x) (hy : Normalized y) :
      Normalized (getIntersection x y) ∧ lines (getIntersection x y) = lines x ∩ lines y :=
    (getIntersection_spec hx hy).imp_right Set.ext
  have uab := union ha hb
  have ubc := union hb hc
  have iab := inter ha hb
  have ibc := inter hb hc
  have iac := inter ha hc
  refine ⟨uab.1.eq_of_lines (union hb ha).1 ?_, (union uab.1 hc).1.eq_of_lines (union ha ubc.1).1 ?_,
    (union ha iab.1).1.eq_of_lines ha ?_, iab.1.eq_of_lines (inter hb ha).1 ?_,
    (inter iab.1 hc).1.eq_of_lines (inter ha ibc.1).1 ?_, (inter ha uab.1).1.eq_of_lines ha ?_,
    (inter ha ubc.1).1.eq_of_lines (union iab.1 iac.1).1 ?_⟩
  · rw [uab.2, (union hb ha).2, Set.union_comm]
  · rw [(union uab.1 hc).2, (union ha ubc.1).2, uab.2, ubc.2, Set.union_assoc]
  · rw [(union ha iab.1).2, iab.2]
    exact sup_inf_self
  · rw [iab.2, (inter hb ha).2, Set.inter_comm]
  · rw [(inter iab.1 hc).2, (inter ha ibc.1).2, iab.2, ibc.2, Set.inter_assoc]
  · rw [(inter ha uab.1).2, uab.2]
    exact inf_sup_self
  · rw [(inter ha ubc.1).2, (union iab.1 iac.1).2, ubc.2, iab.2, iac.2, Set.inter_union_distrib_left]

/-- Ranges that touch, and one that cuts both. -/
theorem set_laws_touching :
    getIntersection [⟨2, 4, by decide⟩] (getUnion [⟨1, 3, by decide⟩] [⟨3, 5, by decide⟩]) =
      getUnion (getIntersection [⟨2, 4, by decide⟩] [⟨1, 3, by decide⟩])
        (getIntersection [⟨2, 4, by decide⟩] [⟨3, 5, by decide⟩]) := by
  have single (x y : ℤ) (h : x < y) : Normalized [⟨x, y, h.le⟩] :=
    normalized_cons.mpr ⟨h, by simp, Pairwise.nil, by simp⟩
  exact (set_laws (single 2 4 (by decide)) (single 1 3 (by decide))
    (single 3 5 (by decide))).2.2.2.2.2.2

end LineRangeSet

end CodeOss
