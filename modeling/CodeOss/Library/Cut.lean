import Mathlib

/-! Cutting lists at integer offsets: `take` and `drop` at `n.toNat`, where the
offsets come from integer arithmetic and are only known to be in range. -/

namespace Cut

open List

universe u

variable {α : Type u} {x y : List α} {n m : Int}

theorem take_append_right (h : (x.length : Int) ≤ n) :
    (x ++ y).take n.toNat = x ++ y.take (n - x.length).toNat := by
  rw [take_append, take_of_length_le (by omega)]
  congr 2
  omega

theorem drop_append_right (h : (x.length : Int) ≤ n) :
    (x ++ y).drop n.toNat = y.drop (n - x.length).toNat := by
  rw [drop_append, drop_of_length_le (by omega), nil_append]
  congr 1
  omega

theorem take_append_left (h : n ≤ x.length) : (x ++ y).take n.toNat = x.take n.toNat :=
  take_append_of_le_length (by omega)

theorem drop_append_left (h : n ≤ x.length) : (x ++ y).drop n.toNat = x.drop n.toNat ++ y :=
  drop_append_of_le_length (by omega)

theorem drop_drop (hn : 0 ≤ n) (hm : 0 ≤ m) :
    (x.drop n.toNat).drop m.toNat = x.drop (n + m).toNat := by
  rw [List.drop_drop, Int.toNat_add hn hm]

theorem drop_take (hn : 0 ≤ n) :
    (x.take m.toNat).drop n.toNat = (x.drop n.toNat).take (m - n).toNat := by
  rw [List.drop_take]
  congr 1
  omega

theorem take_take (h : n ≤ m) : (x.take m.toNat).take n.toNat = x.take n.toNat := by
  rw [List.take_take, min_eq_left (by omega)]

theorem length_take (hn : 0 ≤ n) (h : n ≤ x.length) : ((x.take n.toNat).length : Int) = n := by
  rw [List.length_take]
  omega

theorem length_drop (hn : 0 ≤ n) (h : n ≤ x.length) :
    ((x.drop n.toNat).length : Int) = x.length - n := by
  rw [List.length_drop]
  omega

theorem take_eq_self (h : (x.length : Int) ≤ n) : x.take n.toNat = x :=
  take_of_length_le (by omega)

theorem drop_eq_nil (h : (x.length : Int) ≤ n) : x.drop n.toNat = [] :=
  drop_of_length_le (by omega)

end Cut

/-! Lists with a stretch in the middle replaced, read position by position. -/

variable {α : Type u}

namespace List

theorem getD_drop' (l : List α) (i n : ℕ) (d : α) : (l.drop i).getD n d = l.getD (i + n) d := by
  rw [getD_eq_getElem?_getD, getElem?_drop, getD_eq_getElem?_getD]

theorem getD_splice {l : List α} {i : ℕ} (hi : i ≤ l.length) (j : ℕ) (mid : List α) (n : ℕ) (d : α)
    : (l.take i ++ mid ++ l.drop j).getD n d = if n < i then l.getD n d else if n < i + mid.length
    then mid.getD (n - i) d else l.getD (n - i - mid.length + j) d := by
  have htake : (l.take i).length = i := length_take_of_le hi
  split_ifs with hlt hmid
  · rw [append_assoc, getD_append _ _ _ _ (by rwa [htake]), getD_eq_getElem?_getD,
      getElem?_take_of_lt hlt, ← getD_eq_getElem?_getD]
  · rw [append_assoc, getD_append_right _ _ _ _ (by omega), htake,
      getD_append _ _ _ _ (by omega)]
  · have hlen : (l.take i ++ mid).length = i + mid.length := by
      rw [length_append, htake]
    rw [getD_append_right _ _ _ _ (by omega), hlen, getD_drop']
    congr 1
    omega

theorem getD_set_eq (l : List α) (i : ℕ) (a : α) (n : ℕ) (d : α) (hi : i < l.length) :
    (l.set i a).getD n d = if n = i then a else l.getD n d := by
  rw [getD_eq_getElem?_getD, getElem?_set]
  split_ifs with h₁ h₂ h₂
  · rfl
  · exact absurd h₁.symm h₂
  · exact absurd h₂.symm h₁
  · rw [getD_eq_getElem?_getD]

theorem stretch_append_left {x : List α} {n : ℕ} (h : n ≤ x.length) (y : List α) (m : ℕ) :
    ((x ++ y).take n).drop m = (x.take n).drop m := by
  rw [take_append_of_le_length h]

theorem stretch_append_right (x y : List α) (n m : ℕ) :
    ((x ++ y).take (x.length + n)).drop (x.length + m) = (y.take n).drop m := by
  rw [take_length_add_append, drop_length_add_append]

theorem stretch_append_over {x : List α} {m : ℕ} (h : m ≤ x.length) (y : List α) (n : ℕ) :
    ((x ++ y).take (x.length + n)).drop m = x.drop m ++ y.take n := by
  rw [take_length_add_append, drop_append_of_le_length h]

variable {p : α → Bool}

theorem mem_dropWhile_of_false {a : α} {l : List α} (ha : a ∈ l)
    (hp : p a = false) : a ∈ l.dropWhile p := by
  rw [← takeWhile_append_dropWhile (p := p) (l := l), List.mem_append] at ha
  rcases ha with ha | ha
  · rw [mem_takeWhile_imp ha] at hp
    exact absurd hp (by simp)
  · exact ha

theorem dropWhile_dropWhile {p q : α → Bool} (hpq : ∀ a, p a → q a) (l : List α) :
    (l.dropWhile p).dropWhile q = l.dropWhile q := by
  induction l with
  | nil => rfl
  | cons a l ih =>
    by_cases hp : p a = true
    · rw [dropWhile_cons_of_pos hp, ih, dropWhile_cons_of_pos (hpq a hp)]
    · rw [dropWhile_cons_of_neg hp]

theorem rdropWhile_append_of_ne_nil {s t : List α} (h : t.rdropWhile p ≠ []) :
    (s ++ t).rdropWhile p = s ++ t.rdropWhile p := by
  have hne : (t.reverse.dropWhile p).isEmpty = false := by
    simpa [List.rdropWhile] using h
  rw [List.rdropWhile, List.rdropWhile, reverse_append, dropWhile_append, hne,
    if_neg Bool.false_ne_true, reverse_append, reverse_reverse]

theorem rdropWhile_append_of_forall {s t : List α} (h : ∀ a ∈ t, p a) :
    (s ++ t).rdropWhile p = s.rdropWhile p := by
  induction t using List.reverseRecOn with
  | nil => rw [append_nil]
  | append_singleton t a ih =>
    rw [← append_assoc, rdropWhile_concat_pos _ _ _ (h a (by simp))]
    exact ih fun x hx => h x (by simp [hx])

end List
