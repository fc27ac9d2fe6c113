import CodeOss.Core.PrefixSumComputer

/-! Both kept sums are those of the list of values, after any calls. -/

namespace CodeOss

open List

def sumTo (values : List ℕ) (count : ℕ) : ℕ := (values.take count).sum

variable {values values' : List ℕ} {i k n : ℕ}

@[simp] theorem sumTo_zero : sumTo values 0 = 0 := rfl

theorem sumTo_succ (h : i < values.length) :
    sumTo values (i + 1) = sumTo values i + values.getD i 0 := by
  rw [sumTo, take_succ_eq_append_getElem h, sum_append, sum_singleton, getD_eq_getElem _ _ h]
  rfl

theorem sumTo_length : sumTo values values.length = values.sum := by
  rw [sumTo, take_length]

theorem sumTo_mono (h : i ≤ k) : sumTo values i ≤ sumTo values k :=
  ((take_sublist_take_left h).sum_le_sum fun _ _ => Nat.zero_le _)

theorem sumTo_le_sum : sumTo values k ≤ values.sum :=
  (take_sublist k values).sum_le_sum fun _ _ => Nat.zero_le _

theorem sumTo_congr (h : values'.take n = values.take n) (hk : k ≤ n) :
    sumTo values' k = sumTo values k := by
  have htake := congrArg (List.take k) h
  rw [List.take_take, List.take_take, min_eq_left hk] at htake
  rw [sumTo, sumTo, htake]

/-- The index that `getIndexOf` promises. -/
def IsIndex (values : List ℕ) (sum i : ℕ) : Prop := sumTo values i ≤ sum ∧ sum < sumTo values (i + 1)

variable {sum : ℕ}

theorem IsIndex.unique (hi : IsIndex values sum i) (hk : IsIndex values sum k) : i = k := by
  by_contra hne
  rcases lt_or_gt_of_ne hne with h | h
  · exact absurd (hk.1.trans_lt hi.2) (sumTo_mono h).not_gt
  · exact absurd (hi.1.trans_lt hk.2) (sumTo_mono h).not_gt

theorem exists_isIndex (h : sum < sumTo values n) : ∃ i < n, IsIndex values sum i := by
  induction n with
  | zero => exact absurd h (Nat.not_lt_zero sum)
  | succ n ih =>
    by_cases hn : sum < sumTo values n
    · obtain ⟨i, hi, hindex⟩ := ih hn
      exact ⟨i, hi.trans (Nat.lt_succ_self n), hindex⟩
    · exact ⟨n, Nat.lt_succ_self n, not_lt.mp hn, h⟩

inductive PrefixSumCall
  | insertValues (index : ℕ) (inserted : List ℕ)
  | removeValues (start count : ℕ)
  | setValue (index value : ℕ)
  | getPrefixSum (count : ℕ)
  | getTotalSum
  | getIndexOf (sum : ℕ)

namespace PrefixSumCall

def onValues (values : List ℕ) : PrefixSumCall → List ℕ
  | insertValues index inserted => values.take index ++ inserted ++ values.drop index
  | removeValues start count => values.take start ++ values.drop (start + count)
  | setValue index value => values.set index value
  | _ => values

/-- The indices are in range. -/
def InRange (values : List ℕ) : PrefixSumCall → Prop
  | insertValues index _ => index ≤ values.length
  | removeValues start count => start + count ≤ values.length
  | setValue index _ => index < values.length
  | getPrefixSum count => count ≤ values.length
  | getTotalSum => True
  | getIndexOf sum => sum < values.sum

/-- The total is below `2 ^ 32`, and an index is a number of the `Int32Array`. -/
def Fits (values : List ℕ) : Prop := values.sum < 2 ^ 32 ∧ values.length < 2 ^ 31

def AllInRange (values : List ℕ) : List PrefixSumCall → Prop
  | [] => True
  | call :: calls => call.InRange values ∧ Fits (call.onValues values) ∧
    AllInRange (call.onValues values) calls

inductive Answer
  | sum (sum : ℕ)
  | index (result : PrefixSumIndexOfResult)

def Right (values : List ℕ) : PrefixSumCall → Option Answer → Prop
  | getPrefixSum count, answer => answer = some (.sum (sumTo values count))
  | getTotalSum, answer => answer = some (.sum values.sum)
  | getIndexOf sum, answer => ∃ i, answer = some (.index ⟨i, sum - sumTo values i⟩) ∧
    ∀ k, IsIndex values sum k ↔ k = i
  | _, answer => answer = none

def AllRight (values : List ℕ) : List PrefixSumCall → List (Option Answer) → Prop
  | [], answers => answers = []
  | call :: calls, answers => ∃ answer rest, answers = answer :: rest ∧ call.Right values answer ∧
    AllRight (call.onValues values) calls rest

theorem Right.unique {call : PrefixSumCall} {a b : Option Answer} (ha : call.Right values a)
    (hb : call.Right values b) : a = b := by
  cases call with
  | getIndexOf sum =>
    obtain ⟨i, rfl, hi⟩ := ha
    obtain ⟨k, rfl, hk⟩ := hb
    rw [(hk i).mp ((hi i).mpr rfl)]
  | _ => exact Eq.trans ha (Eq.symm hb)

theorem AllRight.unique {calls : List PrefixSumCall} {as bs : List (Option Answer)}
    (ha : AllRight values calls as) (hb : AllRight values calls bs) : as = bs := by
  induction calls generalizing values as bs with
  | nil => exact Eq.trans ha (Eq.symm hb)
  | cons call calls ih =>
    obtain ⟨a, as, rfl, ha, has⟩ := ha
    obtain ⟨b, bs, rfl, hb, hbs⟩ := hb
    rw [ha.unique hb, ih has hbs]

end PrefixSumCall

structure PrefixSums (σ : Type) where
  insertValues : σ → ℕ → List ℕ → σ
  removeValues : σ → ℕ → ℕ → σ
  setValue : σ → ℕ → ℕ → σ
  getPrefixSum : σ → ℕ → σ × ℕ
  getTotalSum : σ → σ × ℕ
  getIndexOf : σ → ℕ → σ × PrefixSumIndexOfResult

namespace PrefixSums

open PrefixSumCall

variable {σ : Type}

def step (m : PrefixSums σ) (s : σ) : PrefixSumCall → σ × Option Answer
  | .insertValues index inserted => (m.insertValues s index inserted, none)
  | .removeValues start count => (m.removeValues s start count, none)
  | .setValue index value => (m.setValue s index value, none)
  | .getPrefixSum count => ((m.getPrefixSum s count).1, some (.sum (m.getPrefixSum s count).2))
  | .getTotalSum => ((m.getTotalSum s).1, some (.sum (m.getTotalSum s).2))
  | .getIndexOf sum => ((m.getIndexOf s sum).1, some (.index (m.getIndexOf s sum).2))

def run (m : PrefixSums σ) (s : σ) : List PrefixSumCall → List (Option Answer)
  | [] => []
  | call :: calls => (m.step s call).2 :: m.run (m.step s call).1 calls

/-- What holds of a state and the values it stands for is kept, and the answers are right. -/
def Keeps (m : PrefixSums σ) (Holds : σ → List ℕ → Prop) : Prop :=
  ∀ s values call, Holds s values → Fits values → Fits (call.onValues values) →
    call.InRange values →
    Holds (m.step s call).1 (call.onValues values) ∧ call.Right values (m.step s call).2

theorem Keeps.run {m : PrefixSums σ} {Holds : σ → List ℕ → Prop} (hm : m.Keeps Holds) {s : σ}
    {calls : List PrefixSumCall} (h : Holds s values) (hfits : Fits values)
    (hcalls : AllInRange values calls) : AllRight values calls (m.run s calls) := by
  induction calls generalizing s values with
  | nil => rfl
  | cons call calls ih =>
    obtain ⟨hcall, hfits', hcalls⟩ := hcalls
    obtain ⟨hnext, hright⟩ := hm s values call h hfits hfits' hcall
    exact ⟨_, _, rfl, hright, ih hnext hfits' hcalls⟩

end PrefixSums

theorem toUint32_of_lt {v : ℕ} (h : v < 2 ^ 31) : toUint32 v = v := by
  rw [toUint32, if_neg (by omega), if_neg (by omega), Int.bmod_def]
  omega

theorem toUint32_mod {v : ℕ} (h : v < 2 ^ 32) : (toUint32 v % 2 ^ 32).toNat = v := by
  rw [toUint32, if_neg (by omega), if_neg (by omega), Int.bmod_def]
  omega

namespace PrefixSumComputer

open PrefixSumCall (Fits)

/-- The sums up to the valid index are right. -/
structure Holds (c : PrefixSumComputer) (values : List ℕ) : Prop where
  values_eq : c.values = values
  length_eq : c.prefixSum.length = values.length
  neg_one_le : -1 ≤ c.prefixSumValidIndex
  lt_length : c.prefixSumValidIndex < values.length
  sums : ∀ i : ℕ, i ≤ c.prefixSumValidIndex → c.prefixSum.getD i 0 = sumTo values (i + 1)

variable {c : PrefixSumComputer} {p : ℕ}

theorem new_holds (values : List ℕ) : Holds (new values) values :=
  ⟨rfl, length_replicate, le_rfl, by simp only [new]; omega,
    fun i hi => by simp only [new] at hi; omega⟩

theorem cutBack_eq (c : PrefixSumComputer) (index : ℤ) :
    c.cutBack index = min c.prefixSumValidIndex (index - 1) := by
  rw [cutBack]
  split <;> omega

variable {prefixSum : List ℕ}

theorem Holds.change (h : c.Holds values) (hp' : p ≤ values'.length)
    (htake : values'.take p = values.take p) (hlength : prefixSum.length = values'.length)
    (hsums : ∀ i : ℕ, i ≤ c.cutBack p → prefixSum.getD i 0 = c.prefixSum.getD i 0) :
    Holds ⟨values', prefixSum, c.cutBack p⟩ values' := by
  have hvalid := cutBack_eq c p
  have hneg := h.neg_one_le
  refine ⟨rfl, hlength, ?_, ?_, fun i hi => ?_⟩
  · simp only [hvalid]
    omega
  · simp only [hvalid]
    omega
  · simp only at hi
    rw [hsums i hi, h.sums i (by omega)]
    exact (sumTo_congr htake (by omega)).symm

theorem trusted_spec (h : c.Holds values) (hp : p ≤ values'.length) : (trusted c.prefixSum
    (c.cutBack p) values'.length).length = values'.length ∧ ∀ i : ℕ, i ≤ c.cutBack p →
    (trusted c.prefixSum (c.cutBack p) values'.length).getD i 0 = c.prefixSum.getD i 0 := by
  have hvalid := cutBack_eq c p
  have hlt := h.lt_length
  have hlength := h.length_eq
  constructor
  · simp only [trusted, length_append, length_replicate, List.length_take]
    omega
  · intro i hi
    have hi' : i < (c.prefixSum.take (c.cutBack p + 1).toNat).length := by
      rw [List.length_take]
      omega
    rw [trusted, getD_append _ _ _ _ hi', getD_eq_getElem?_getD,
      getElem?_take_of_lt (by omega), getD_eq_getElem?_getD]

theorem addUp_spec (hfits : values.sum < 2 ^ 32) (hi : 1 ≤ i) (hn : i + n ≤ values.length)
    (hlength : prefixSum.length = values.length)
    (hsums : ∀ j < i, prefixSum.getD j 0 = sumTo values (j + 1)) :
    (addUp values prefixSum i n).length = values.length ∧
      ∀ j < i + n, (addUp values prefixSum i n).getD j 0 = sumTo values (j + 1) := by
  induction n generalizing prefixSum i with
  | zero => exact ⟨hlength, hsums⟩
  | succ n ih =>
    have hsum := sumTo_succ (show i < values.length by omega)
    have hle := (@sumTo_le_sum values (i + 1)).trans_lt hfits
    have hset : (prefixSum.getD (i - 1) 0 + values.getD i 0) % 2 ^ 32 = sumTo values (i + 1) := by
      rw [hsums _ (by omega), Nat.sub_add_cancel hi, ← hsum, Nat.mod_eq_of_lt hle]
    have hlength' : (prefixSum.set i (sumTo values (i + 1))).length = values.length := by
      rw [List.length_set, hlength]
    have hnext := ih (Nat.le_add_left 1 i) (by omega) hlength' fun j hj => ?_
    · rw [addUp, hset, show i + (n + 1) = i + 1 + n by omega]
      exact hnext
    · rcases (Nat.lt_succ_iff.mp hj).lt_or_eq with hj | rfl
      · rw [getD_eq_getElem?_getD, getElem?_set_ne (by omega), ← getD_eq_getElem?_getD,
          hsums j hj]
      · rw [getD_eq_getElem?_getD, getElem?_set_self (by omega), Option.getD_some]

theorem Holds.sumUpTo (h : c.Holds values) (hfits : values.sum < 2 ^ 32) (hi : i < values.length) :
    (c.sumUpTo i).1.Holds values ∧ (c.sumUpTo i).2 = sumTo values (i + 1) ∧
      i ≤ (c.sumUpTo i).1.prefixSumValidIndex := by
  obtain ⟨rfl, hlength, hneg, hlt, hsums⟩ := h
  rw [PrefixSumComputer.sumUpTo]
  split
  · rename_i hle
    exact ⟨⟨rfl, hlength, hneg, hlt, hsums⟩, hsums i hle, hle⟩
  · rename_i hle
    simp only [if_neg (not_le.mpr hi)]
    -- The sums before the start, where the first one is put in by itself.
    have hstart : ∀ j < if (c.prefixSumValidIndex + 1).toNat = 0 then 1
          else (c.prefixSumValidIndex + 1).toNat,
        (if (c.prefixSumValidIndex + 1).toNat = 0 then c.prefixSum.set 0 (c.values.getD 0 0)
          else c.prefixSum).getD j 0 = sumTo c.values (j + 1) := by
      intro j hj
      split at hj
      · obtain rfl : j = 0 := by omega
        rw [if_pos (by assumption), getD_eq_getElem?_getD, getElem?_set_self (by omega),
          Option.getD_some, sumTo_succ (by omega), sumTo_zero, zero_add]
      · rw [if_neg (by assumption), hsums j (by omega)]
    have hlength' : (if (c.prefixSumValidIndex + 1).toNat = 0 then
        c.prefixSum.set 0 (c.values.getD 0 0) else c.prefixSum).length = c.values.length := by
      split <;> simp [hlength]
    have hpos : 1 ≤ (if (c.prefixSumValidIndex + 1).toNat = 0 then 1
        else (c.prefixSumValidIndex + 1).toNat) ∧ (if (c.prefixSumValidIndex + 1).toNat = 0 then 1
        else (c.prefixSumValidIndex + 1).toNat) ≤ i + 1 := by
      split <;> omega
    generalize (if (c.prefixSumValidIndex + 1).toNat = 0 then 1
      else (c.prefixSumValidIndex + 1).toNat) = start at hstart hpos ⊢
    obtain ⟨hlength', hsums'⟩ := addUp_spec (n := i + 1 - start) hfits hpos.1 (by omega) hlength'
      hstart
    refine ⟨⟨rfl, hlength', ?_, ?_, fun j hj => hsums' j ?_⟩, hsums' i (by omega), ?_⟩
    · exact hneg.trans (le_max_left _ _)
    · exact max_lt hlt (by omega)
    · simp only at hj
      omega
    · exact le_max_right _ _

theorem start_stop {mid : ℕ}
    (hsums : ∀ i < values.length, prefixSum.getD i 0 = sumTo values (i + 1))
    (hmid : mid < values.length) : prefixSum.getD mid 0 = sumTo values (mid + 1) ∧
      (prefixSum.getD mid 0 : ℤ) - values.getD mid 0 = sumTo values mid := by
  have hsum := sumTo_succ hmid
  rw [hsums mid hmid]
  omega

theorem search_spec {sum : ℕ} (hk : IsIndex values sum k)
    (hsums : ∀ i < values.length, prefixSum.getD i 0 = sumTo values (i + 1)) (low high : ℤ)
    (hlow : 0 ≤ low) (hlowk : low ≤ k) (hkhigh : k ≤ high) (hhigh : high < values.length) (mid : ℕ)
    (midStart : ℤ) :
    search values prefixSum sum low high mid midStart = (k, (sumTo values k : ℤ)) := by
  fun_induction search values prefixSum sum low high mid midStart with
  | case1 low high mid' midStart' hle mid midStop midStart hlt ih =>
    obtain ⟨-, hstart⟩ := start_stop hsums (show mid < values.length by omega)
    have hbefore : k < mid := by
      by_contra hge
      have : sumTo values _ ≤ sumTo values _ := sumTo_mono (not_lt.mp hge)
      have := hk.1
      omega
    exact ih hlow hlowk (by omega) (by omega)
  | case2 low high mid' midStart' hle mid midStop midStart hlt hge ih =>
    obtain ⟨hstop, -⟩ := start_stop hsums (show mid < values.length by omega)
    have hbehind : mid < k := by
      by_contra hle
      have : sumTo values _ ≤ sumTo values _ :=
        sumTo_mono (Nat.add_le_add_right (not_lt.mp hle) 1)
      have := hk.2
      omega
    exact ih (by omega) (by omega) hkhigh hhigh
  | case3 low high mid' midStart' hle mid midStop midStart hlt hge =>
    obtain ⟨hstop, hstart⟩ := start_stop hsums (show mid < values.length by omega)
    have hmid : IsIndex values sum mid := ⟨by omega, by omega⟩
    have hindex := hmid.unique hk
    exact Prod.ext hindex (hindex ▸ hstart)
  | case4 low high mid' midStart' hgt => omega

section

variable (h : c.Holds values)
include h

theorem Holds.getTotalSum (hfits : Fits values) : c.getTotalSum.1.Holds values ∧
    c.getTotalSum.2 = values.sum ∧ values.length ≤ c.getTotalSum.1.prefixSumValidIndex + 1 := by
  have hvalues := h.values_eq
  rw [PrefixSumComputer.getTotalSum]
  split
  · rename_i hempty
    rw [hvalues] at hempty
    refine ⟨h, ?_, ?_⟩
    · rw [eq_nil_of_length_eq_zero hempty]
      rfl
    · have hneg := h.neg_one_le
      simp only
      omega
  · rename_i hne
    rw [hvalues] at hne ⊢
    obtain ⟨hh, hsum, hvalid⟩ := h.sumUpTo hfits.1 (show values.length - 1 < values.length by omega)
    refine ⟨hh, ?_, by omega⟩
    rw [hsum, Nat.sub_add_cancel (by omega), sumTo_length]

theorem Holds.insertValues {inserted : List ℕ} (hp : p ≤ values.length)
    (hfits : Fits (values.take p ++ inserted ++ values.drop p)) :
    (c.insertValues p inserted).1.Holds (values.take p ++ inserted ++ values.drop p) := by
  have hlength := hfits.2
  simp only [length_append, List.length_take, List.length_drop] at hlength
  rw [PrefixSumComputer.insertValues]
  split
  · rename_i hempty
    rw [eq_nil_of_length_eq_zero hempty, append_nil, take_append_drop]
    exact h
  · rename_i hne
    rw [toUint32_of_lt (by omega), Int.toNat_natCast, h.values_eq]
    have hp' : p ≤ (values.take p ++ inserted ++ values.drop p).length := by
      simp only [length_append, List.length_take]
      omega
    obtain ⟨hlength', hsums⟩ := trusted_spec h hp'
    refine h.change hp' ?_ hlength' hsums
    rw [append_assoc, take_left' (by simp [hp])]

theorem Holds.removeValues {count : ℕ} (hcount : p + count ≤ values.length) (hfits : Fits values) :
    (c.removeValues p count).1.Holds (values.take p ++ values.drop (p + count)) := by
  have hlength := hfits.2
  have hsame : count = 0 → values.take p ++ values.drop (p + count) = values := by
    rintro rfl
    exact take_append_drop p values
  rw [PrefixSumComputer.removeValues]
  simp only [toUint32_of_lt (show p < 2 ^ 31 by omega), toUint32_of_lt (show count < 2 ^ 31 by omega),
    h.values_eq]
  split
  · rw [hsame (by omega)]
    exact h
  rw [show (if (count : ℤ) ≥ values.length - p then (values.length : ℤ) - p else count) = count by
    split <;> omega]
  split
  · rw [hsame (by omega)]
    exact h
  · have hp' : p ≤ (values.take p ++ values.drop (p + count)).length := by
      simp only [length_append, List.length_take]
      omega
    obtain ⟨hlength', hsums⟩ := trusted_spec h hp'
    refine h.change hp' ?_ hlength' hsums
    rw [take_left' (by simp; omega), Int.toNat_natCast]

theorem Holds.setValue {value : ℕ} (hp : p < values.length) (hfits : Fits values)
    (hfits' : Fits (values.set p value)) : (c.setValue p value).1.Holds (values.set p value) := by
  have hlength := hfits.2
  have hvalue : value < 2 ^ 32 := by
    refine lt_of_le_of_lt ?_ hfits'.1
    exact single_le_sum (fun _ _ => Nat.zero_le _) value (mem_set hp value)
  rw [PrefixSumComputer.setValue]
  simp only [toUint32_of_lt (show p < 2 ^ 31 by omega), h.values_eq, Int.toNat_natCast,
    toUint32_mod hvalue]
  split
  · rename_i hold
    rw [getElem?_eq_getElem hp, Option.any_some, decide_eq_true_eq] at hold
    have hle : values[p] < 2 ^ 32 :=
      lt_of_le_of_lt (single_le_sum (fun _ _ => Nat.zero_le _) _ (getElem_mem hp)) hfits.1
    have hsame := toUint32_mod hvalue
    rw [← hold] at hsame
    have hself : values.set p value = values := by
      have hback : (((values[p] : ℕ) : ℤ) % 2 ^ 32).toNat = values[p] := by omega
      rw [← hsame, hback, set_getElem_self]
    rw [hself]
    exact h
  · exact h.change (by simp; omega) (take_set_of_le le_rfl) (by simp [h.length_eq])
      fun _ _ => rfl

end

def methods : PrefixSums PrefixSumComputer where
  insertValues c index inserted := (c.insertValues index inserted).1
  removeValues c start count := (c.removeValues start count).1
  setValue c index value := (c.setValue index value).1
  getPrefixSum c count := c.getPrefixSum (count - 1)
  getTotalSum c := c.getTotalSum
  getIndexOf c sum := c.getIndexOf sum

theorem methods_keeps : methods.Keeps Holds := by
  intro c values call h hfits hfits' hcall
  have hvalues := h.values_eq
  cases call with
  | insertValues index inserted => exact ⟨h.insertValues hcall hfits', rfl⟩
  | removeValues start count => exact ⟨h.removeValues hcall hfits, rfl⟩
  | setValue index value => exact ⟨h.setValue hcall hfits hfits', rfl⟩
  | getPrefixSum count =>
    simp only [PrefixSums.step, methods, getPrefixSum]
    have hcount : count ≤ values.length := hcall
    have hlength := hfits.2
    rcases count with - | i
    · rw [if_pos (by omega)]
      exact ⟨h, rfl⟩
    · rw [if_neg (by omega), show ((i + 1 : ℕ) : ℤ) - 1 = i by omega, toUint32_of_lt (by omega)]
      obtain ⟨hh, hsum, -⟩ := h.sumUpTo hfits.1 hcount
      exact ⟨hh, congrArg (some ∘ PrefixSumCall.Answer.sum) hsum⟩
  | getTotalSum =>
    obtain ⟨hh, hsum, -⟩ := h.getTotalSum hfits
    exact ⟨hh, congrArg (some ∘ PrefixSumCall.Answer.sum) hsum⟩
  | getIndexOf sum =>
    obtain ⟨hh, hsum, hvalid⟩ := h.getTotalSum hfits
    have hlt : sum < values.sum := hcall
    obtain ⟨k, hk, hindex⟩ := exists_isIndex (hlt.trans_eq sumTo_length.symm)
    have hsums := fun i (hi : i < values.length) => hh.sums i (by omega)
    have hsearch := search_spec hindex hsums 0 (values.length - 1) le_rfl
      (by omega) (by omega) (by omega) 0 0
    refine ⟨hh, k, ?_, fun i => ⟨fun hi => hi.unique hindex, fun hi => hi ▸ hindex⟩⟩
    simp only [PrefixSums.step, methods, getIndexOf, hh.values_eq, hsearch]

end PrefixSumComputer

namespace ConstantTimePrefixSumComputer

/-- The first sums, and the index of every smaller number. -/
structure Kept (values : List ℕ) (n : ℕ) (sums : JsArray ℕ × JsArray ℕ) : Prop where
  prefixes : ∀ i < n, sums.1.get i = some (sumTo values (i + 1))
  indices : ∀ sum < sumTo values n, ∃ k < n, sums.2.get sum = some k ∧ IsIndex values sum k

variable {c : ConstantTimePrefixSumComputer} {sums : JsArray ℕ × JsArray ℕ} {p : ℕ}

theorem get_foldl_set (a : JsArray ℕ) (above i value j : ℕ) :
    ((List.range value).foldl (fun a j => a.set (above + j) i) a).get j =
      if above ≤ j ∧ j < above + value then some i else a.get j := by
  induction value with
  | zero => rw [if_neg (by omega)]; rfl
  | succ value ih =>
    rw [range_succ, foldl_append, foldl_cons, foldl_nil, JsArray.set]
    simp only [ih]
    split_ifs <;> first | rfl | omega

theorem Kept.enter (h : Kept values i sums) (hi : i < values.length) :
    Kept values (i + 1) (enter values sums i) := by
  have habove : (if i > 0 then (sums.1.get (i - 1)).getD 0 else 0) = sumTo values i := by
    rcases i with - | i
    · rfl
    · rw [if_pos (Nat.succ_pos i), Nat.add_sub_cancel, h.prefixes i (Nat.lt_succ_self i),
        Option.getD_some]
  have hsum := sumTo_succ hi
  rw [ConstantTimePrefixSumComputer.enter, habove, ← hsum]
  constructor
  · intro j hj
    simp only [JsArray.set]
    split
    · rename_i hji
      rw [hji]
    · exact h.prefixes j (by omega)
  · intro sum hlt
    simp only [get_foldl_set, ← hsum]
    by_cases hge : sumTo values i ≤ sum
    · exact ⟨i, Nat.lt_succ_self i, if_pos ⟨hge, hlt⟩, hge, hlt⟩
    · obtain ⟨k, hk, hget, hindex⟩ := h.indices sum (not_le.mp hge)
      exact ⟨k, hk.trans (Nat.lt_succ_self i), by rw [if_neg (fun h => hge h.1), hget], hindex⟩

theorem Kept.foldl (h : Kept values i sums) (hn : i + n ≤ values.length) :
    Kept values (i + n) ((List.range' i n).foldl (ConstantTimePrefixSumComputer.enter values)
    sums) := by
  induction n generalizing i sums with
  | zero => exact h
  | succ n ih =>
    rw [range'_succ, foldl_cons, show i + (n + 1) = i + 1 + n by omega]
    exact ih (h.enter (by omega)) (by omega)

theorem Kept.change (h : Kept values n sums) (hk : k ≤ n) (htake : values'.take k = values.take k) :
    Kept values' k sums := by
  constructor
  · intro i hi
    rw [sumTo_congr htake hi]
    exact h.prefixes i (hi.trans_le hk)
  · intro sum hlt
    rw [sumTo_congr htake le_rfl] at hlt
    obtain ⟨i, -, hget, hindex⟩ := h.indices sum (hlt.trans_le (sumTo_mono hk))
    have hi : i < k := by
      by_contra hge
      exact absurd (hindex.1.trans_lt hlt) (sumTo_mono (not_lt.mp hge)).not_gt
    refine ⟨i, hi, hget, ?_⟩
    rw [IsIndex, sumTo_congr htake hi.le, sumTo_congr htake hi]
    exact hindex

/-- Up to the valid index all is kept, and all of it while the computer is valid. -/
structure Holds (c : ConstantTimePrefixSumComputer) (values : List ℕ) : Prop where
  values_eq : c.values = values
  neg_one_le : -1 ≤ c.validEndIndex
  lt_length : c.validEndIndex < values.length
  kept : Kept values (c.validEndIndex + 1).toNat (c.prefixSum, c.indexBySum)
  valid : c.isValid → c.validEndIndex + 1 = values.length ∧ c.indexBySum.length = values.sum

theorem new_holds (values : List ℕ) : Holds (new values) values :=
  ⟨rfl, le_rfl, by simp only [new]; omega, ⟨fun i hi => absurd hi (Nat.not_lt_zero i),
    fun i hi => absurd hi (Nat.not_lt_zero i)⟩, fun h => by cases h⟩

theorem Holds.invalidate (h : c.Holds values) (hp : p ≤ values'.length)
    (htake : values'.take p = values.take p) : (c.invalidate values' p).Holds values' := by
  have hneg := h.neg_one_le
  refine ⟨rfl, ?_, ?_, h.kept.change ?_ ?_, fun h => by cases h⟩
  · simp only [ConstantTimePrefixSumComputer.invalidate]
    omega
  · simp only [ConstantTimePrefixSumComputer.invalidate]
    omega
  · simp only [ConstantTimePrefixSumComputer.invalidate]
    omega
  · have hle : ((c.invalidate values' p).validEndIndex + 1).toNat ≤ p := by
      simp only [ConstantTimePrefixSumComputer.invalidate]
      omega
    have htake' := congrArg (List.take ((c.invalidate values' p).validEndIndex + 1).toNat) htake
    rwa [List.take_take, List.take_take, min_eq_left hle] at htake'

theorem Holds.ensureValid (h : c.Holds values) : c.ensureValid.Holds values ∧
    Kept values values.length (c.ensureValid.prefixSum, c.ensureValid.indexBySum) ∧
    c.ensureValid.indexBySum.length = values.sum := by
  rw [ConstantTimePrefixSumComputer.ensureValid]
  split
  · rename_i hvalid
    obtain ⟨hend, hsum⟩ := h.valid hvalid
    have hkept := h.kept
    rw [hend] at hkept
    exact ⟨h, hkept, hsum⟩
  · obtain ⟨rfl, hneg, hlt, hkept, -⟩ := h
    have hall := hkept.foldl (n := c.values.length - (c.validEndIndex + 1).toNat) (by omega)
    rw [show (c.validEndIndex + 1).toNat + (c.values.length - (c.validEndIndex + 1).toNat) =
      c.values.length by omega] at hall
    dsimp only
    generalize (List.range' (c.validEndIndex + 1).toNat (c.values.length - (c.validEndIndex +
      1).toNat)).foldl (enter c.values) (c.prefixSum, c.indexBySum) = sums at hall ⊢
    have htotal : (if c.values.length > 0 then (sums.1.get (c.values.length - 1)).getD 0 else 0) =
        c.values.sum := by
      split
      · rw [hall.prefixes _ (by omega), Option.getD_some, Nat.sub_add_cancel (by omega), sumTo_length]
      · rw [eq_nil_of_length_eq_zero (show c.values.length = 0 by omega), sum_nil]
    have hkept' : Kept c.values c.values.length
        (sums.1.setLength c.values.length, sums.2.setLength c.values.sum) := by
      constructor
      · intro i hi
        simp only [JsArray.setLength, if_pos hi]
        exact hall.prefixes i hi
      · intro sum hsum
        simp only [JsArray.setLength, if_pos (hsum.trans_eq sumTo_length)]
        exact hall.indices sum hsum
    rw [htotal]
    refine ⟨⟨rfl, ?_, ?_, ?_, fun _ => ⟨?_, rfl⟩⟩, hkept', rfl⟩
    · simp only
      omega
    · simp only
      omega
    · simpa using hkept'
    · simp only
      omega

def methods : PrefixSums ConstantTimePrefixSumComputer where
  insertValues := insertValues
  removeValues := removeValues
  setValue := setValue
  getPrefixSum := getPrefixSum
  getTotalSum := getTotalSum
  getIndexOf := getIndexOf

theorem methods_keeps : methods.Keeps Holds := by
  intro c values call h _ _ hcall
  obtain ⟨hvalid, hkept, hlength⟩ := h.ensureValid
  have hvalues := h.values_eq
  cases call with
  | insertValues index inserted =>
    have hindex : index ≤ values.length := hcall
    simp only [PrefixSums.step, methods, insertValues, hvalues]
    refine ⟨h.invalidate (by simp; omega) ?_, rfl⟩
    rw [append_assoc, take_left' (by simp [hindex])]
  | removeValues start count =>
    have hcount : start + count ≤ values.length := hcall
    simp only [PrefixSums.step, methods, removeValues, hvalues]
    refine ⟨h.invalidate (by simp; omega) ?_, rfl⟩
    rw [take_left' (by simp; omega)]
  | setValue index value =>
    have hindex : index < values.length := hcall
    simp only [PrefixSums.step, methods, setValue, hvalues]
    refine ⟨?_, rfl⟩
    split
    · rename_i hold
      rw [getElem?_eq_getElem hindex, Option.some.injEq] at hold
      rw [PrefixSumCall.onValues, ← hold, set_getElem_self]
      exact h
    · exact h.invalidate (by simp; omega) (take_set_of_le le_rfl)
  | getPrefixSum count =>
    refine ⟨hvalid, congrArg (some ∘ PrefixSumCall.Answer.sum) ?_⟩
    have hcount : count ≤ values.length := hcall
    rcases count with - | i
    · rfl
    · simp only [methods, getPrefixSum]
      rw [if_neg (Nat.succ_ne_zero i), Nat.add_sub_cancel, hkept.prefixes i hcount, Option.getD_some]
  | getTotalSum => exact ⟨hvalid, congrArg (some ∘ PrefixSumCall.Answer.sum) hlength⟩
  | getIndexOf sum =>
    have hlt : sum < values.sum := hcall
    obtain ⟨k, hk, hget, hindex⟩ := hkept.indices sum (hlt.trans_eq sumTo_length.symm)
    refine ⟨hvalid, k, ?_, fun i => ⟨fun hi => hi.unique hindex, fun hi => hi ▸ hindex⟩⟩
    simp only at hget
    simp only [PrefixSums.step, methods, getIndexOf, hget]
    rcases k with - | k
    · rfl
    · rw [if_pos (Nat.succ_pos k), Nat.add_sub_cancel, hkept.prefixes k (by omega), Option.getD_some]

end ConstantTimePrefixSumComputer

/-- Called alike, the two give the same answers, and these are the sums of the list of values. -/
theorem prefixSums_agree (values : List ℕ) (calls : List PrefixSumCall)
    (hvalues : PrefixSumCall.Fits values) (hcalls : PrefixSumCall.AllInRange values calls) :
    PrefixSumComputer.methods.run (.new values) calls =
        ConstantTimePrefixSumComputer.methods.run (.new values) calls ∧
      PrefixSumCall.AllRight values calls (PrefixSumComputer.methods.run (.new values) calls) := by
  have hsums := PrefixSumComputer.methods_keeps.run (PrefixSumComputer.new_holds values) hvalues
    hcalls
  have hconstant := ConstantTimePrefixSumComputer.methods_keeps.run
    (ConstantTimePrefixSumComputer.new_holds values) hvalues hcalls
  exact ⟨hsums.unique hconstant, hsums⟩

theorem prefixSums_agree_short :
    PrefixSumComputer.methods.run (.new [1, 0, 2]) [.getIndexOf 1, .insertValues 1 [3],
        .setValue 0 0, .removeValues 2 1, .getTotalSum, .getPrefixSum 2] =
      ConstantTimePrefixSumComputer.methods.run (.new [1, 0, 2]) [.getIndexOf 1,
        .insertValues 1 [3], .setValue 0 0, .removeValues 2 1, .getTotalSum, .getPrefixSum 2] := by
  have hcalls : PrefixSumCall.AllInRange [1, 0, 2] [.getIndexOf 1, .insertValues 1 [3],
      .setValue 0 0, .removeValues 2 1, .getTotalSum, .getPrefixSum 2] := by
    simp [PrefixSumCall.AllInRange, PrefixSumCall.InRange, PrefixSumCall.Fits,
      PrefixSumCall.onValues]
  exact (prefixSums_agree [1, 0, 2] _ ⟨by decide, by decide⟩ hcalls).1

end CodeOss
