import CodeOss.ContextKeys.AtomOrder

/-! The order of expressions of any nesting. An expression is written as a list of ranks in
which each operator comes with the number of its operands; `cmp` is the order of these lists,
and `equals` is their equality. -/

namespace CodeOss.ContextKeys

open ContextKeyExpression SortedInclusion List

abbrev Rank := ℤ ×ₗ List Nat ×ₗ (List Nat ⊕ₗ WithBot (WithTop ℚ))

def operatorRank (type : ℤ) (operands : Nat) : Rank :=
  toLex (type, toLex ([operands], toLex (.inl [])))

mutual

def exprRank : ContextKeyExpression → List Rank
  | falseExpr => [operatorRank 0 0]
  | trueExpr => [operatorRank 1 0]
  | atom a => [atomRank a]
  | andExpr xs _ => operatorRank 6 xs.length :: exprRanks xs
  | orExpr xs _ => operatorRank 9 xs.length :: exprRanks xs

def exprRanks : List ContextKeyExpression → List Rank
  | [] => []
  | x :: xs => exprRank x ++ exprRanks xs

end

section Order

variable {E : Engine} {S : Atom → Prop} {a b : ContextKeyExpression}

theorem operatorRank_lt (type : ℤ) (n m : Nat) :
    operatorRank type n < operatorRank type m ↔ n < m := by
  simp [operatorRank, Prod.Lex.toLex_lt_toLex, cons_lt_cons_iff]

theorem operatorRank_inj (type : ℤ) (n m : Nat) :
    operatorRank type n = operatorRank type m ↔ n = m := by
  simp [operatorRank]

theorem exprRank_head (e : ContextKeyExpression) :
    ∃ t ts, exprRank e = t :: ts ∧ (ofLex t).1 = e.type := by
  cases e with
  | andExpr xs n => exact ⟨_, _, by rw [exprRank], rfl⟩
  | orExpr xs n => exact ⟨_, _, by rw [exprRank], rfl⟩
  | _ => exact ⟨_, [], by rw [exprRank], rfl⟩

theorem atom_type_ne (a : Atom) : a.type ≠ 0 ∧ a.type ≠ 1 ∧ a.type ≠ 6 ∧ a.type ≠ 9 := by
  cases a with
  | comparisonExpr op => cases op <;> simp [Atom.type, Comparison.type]
  | _ => simp [Atom.type]

theorem cmp_of_type_ne (h : a.type ≠ b.type) :
    ContextKeyExpression.cmp E a b = a.type - b.type := by
  cases a with
  | atom a =>
    cases b with
    | atom b =>
      rw [ContextKeyExpression.cmp, atom_cmp_eq]
      exact if_neg h
    | _ =>
      rw [ContextKeyExpression.cmp]
      all_goals simp
  | andExpr =>
    cases b with
    | andExpr => exact absurd rfl h
    | _ =>
      rw [ContextKeyExpression.cmp]
      all_goals simp
  | orExpr =>
    cases b with
    | orExpr => exact absurd rfl h
    | _ =>
      rw [ContextKeyExpression.cmp]
      all_goals simp
  | _ =>
    rw [ContextKeyExpression.cmp]
    all_goals simp

theorem exprRank_lt_of_type_ne (h : a.type ≠ b.type) (r r' : List Rank) : exprRank a ++ r < exprRank
    b ++ r' ↔ ContextKeyExpression.cmp E a b < 0 ∨ ContextKeyExpression.cmp E a b = 0 ∧ r < r' := by
  obtain ⟨t, ts, ht, htype⟩ := exprRank_head a
  obtain ⟨u, us, hu, hutype⟩ := exprRank_head b
  have hne : (ofLex t).1 ≠ (ofLex u).1 := by rwa [htype, hutype]
  have hlt : t < u ↔ a.type < b.type := by
    rw [Prod.Lex.lt_iff, htype, hutype]
    simp [h]
  rw [ht, hu, cons_append, cons_append, cons_lt_cons_iff, hlt, cmp_of_type_ne h]
  have hne' : t ≠ u := fun heq => hne (heq ▸ rfl)
  simp only [hne', false_and, or_false]
  omega

variable {xs ys : List ContextKeyExpression}

theorem exprRanks_append_lt (hx : ∀ x ∈ xs, ∀ y ∈ ys, ∀ r r' : List Rank, exprRank x ++ r < exprRank
    y ++ r' ↔ ContextKeyExpression.cmp E x y < 0 ∨ ContextKeyExpression.cmp E x y = 0 ∧ r < r')
    (hlen : xs.length = ys.length) (r r' : List Rank) : exprRanks xs ++ r < exprRanks ys ++ r' ↔
    cmpFirst E xs ys < 0 ∨ cmpFirst E xs ys = 0 ∧ r < r' := by
  induction xs generalizing ys with
  | nil =>
    cases ys with
    | nil => simp [exprRanks, cmpFirst]
    | cons y ys => cases hlen
  | cons x xs ih =>
    cases ys with
    | nil => cases hlen
    | cons y ys =>
      have hrest := ih (fun x hx' y hy => hx x (mem_cons_of_mem _ hx') y
        (mem_cons_of_mem _ hy)) (Nat.succ.inj hlen)
      rw [exprRanks, exprRanks, append_assoc, append_assoc,
        hx x mem_cons_self y mem_cons_self, hrest, cmpFirst]
      by_cases hzero : ContextKeyExpression.cmp E x y = 0
      · simp [hzero]
      · simp [hzero]

/-- By induction on the first expression, whatever follows the two. -/
theorem exprRank_append_lt (htold : ToldApart S) (ha : Over S a) : ∀ {b}, Over S b →
    ∀ r r' : List Rank, exprRank a ++ r < exprRank b ++ r' ↔
      ContextKeyExpression.cmp E a b < 0 ∨ ContextKeyExpression.cmp E a b = 0 ∧ r < r' := by
  have hoperators : ∀ (type : ℤ) (xs ys : List ContextKeyExpression),
      (∀ x ∈ xs, ∀ y ∈ ys, ∀ r r' : List Rank, exprRank x ++ r < exprRank y ++ r' ↔
        ContextKeyExpression.cmp E x y < 0 ∨ ContextKeyExpression.cmp E x y = 0 ∧ r < r') →
      ∀ r r' : List Rank, operatorRank type xs.length :: (exprRanks xs ++ r) <
          operatorRank type ys.length :: (exprRanks ys ++ r') ↔
        (if xs.length < ys.length then -1
          else if xs.length > ys.length then 1 else cmpFirst E xs ys) < 0 ∨
        (if xs.length < ys.length then -1
          else if xs.length > ys.length then 1 else cmpFirst E xs ys) = 0 ∧ r < r' := by
    intro type xs ys hxs r r'
    rw [List.cons_lt_cons_iff, operatorRank_lt, operatorRank_inj]
    rcases lt_trichotomy xs.length ys.length with hlt | heq | hgt
    · simp [hlt]
    · rw [exprRanks_append_lt hxs heq]
      simp [heq]
    · simp [hgt, hgt.not_gt, hgt.ne']
  induction ha with
  | falseExpr =>
    intro b hb r r'
    cases hb with
    | falseExpr => simp [exprRank, ContextKeyExpression.cmp, type]
    | atom h =>
      refine exprRank_lt_of_type_ne ?_ r r'
      exact (atom_type_ne _).1.symm
    | _ => exact exprRank_lt_of_type_ne (by simp [type]) r r'
  | trueExpr =>
    intro b hb r r'
    cases hb with
    | trueExpr => simp [exprRank, ContextKeyExpression.cmp, type]
    | atom h =>
      refine exprRank_lt_of_type_ne ?_ r r'
      exact (atom_type_ne _).2.1.symm
    | _ => exact exprRank_lt_of_type_ne (by simp [type]) r r'
  | @atom a h =>
    intro b hb r r'
    obtain ⟨h₀, h₁, h₆, h₉⟩ := atom_type_ne a
    cases hb with
    | @atom b h' =>
      have hagrees := @agrees_atomRank E S htold
      rw [exprRank, exprRank, List.singleton_append, List.singleton_append, List.cons_lt_cons_iff,
        ContextKeyExpression.cmp, (hagrees a b h h').1, hagrees.eq_zero h h']
    | falseExpr =>
      refine exprRank_lt_of_type_ne ?_ r r'
      exact h₀
    | trueExpr =>
      refine exprRank_lt_of_type_ne ?_ r r'
      exact h₁
    | andExpr =>
      refine exprRank_lt_of_type_ne ?_ r r'
      exact h₆
    | orExpr =>
      refine exprRank_lt_of_type_ne ?_ r r'
      exact h₉
  | @andExpr xs n hxs ih =>
    intro b hb r r'
    cases hb with
    | @andExpr ys n' hys =>
      rw [exprRank, exprRank, ContextKeyExpression.cmp]
      exact hoperators 6 xs ys (fun x hx y hy => ih x hx (hys y hy)) r r'
    | atom h =>
      refine exprRank_lt_of_type_ne ?_ r r'
      exact (atom_type_ne _).2.2.1.symm
    | _ => exact exprRank_lt_of_type_ne (by simp [type]) r r'
  | @orExpr xs n hxs ih =>
    intro b hb r r'
    cases hb with
    | @orExpr ys n' hys =>
      rw [exprRank, exprRank, ContextKeyExpression.cmp]
      exact hoperators 9 xs ys (fun x hx y hy => ih x hx (hys y hy)) r r'
    | atom h =>
      refine exprRank_lt_of_type_ne ?_ r r'
      exact (atom_type_ne _).2.2.2.symm
    | _ => exact exprRank_lt_of_type_ne (by simp [type]) r r'

theorem equals_of_type_ne (h : a.type ≠ b.type) : a.equals b = false := by
  cases a with
  | atom a =>
    cases b with
    | atom b =>
      rw [equals, ← Bool.not_eq_true]
      intro heq
      refine h ?_
      cases a <;> cases b <;> simp [Atom.equals] at heq <;>
        first | rfl | (rw [type, type, heq.1.1]; rfl)
    | _ => simp [equals]
  | andExpr =>
    cases b with
    | andExpr => exact absurd rfl h
    | _ => simp [equals]
  | orExpr =>
    cases b with
    | orExpr => exact absurd rfl h
    | _ => simp [equals]
  | falseExpr =>
    cases b with
    | falseExpr => exact absurd rfl h
    | _ => simp [equals]
  | trueExpr =>
    cases b with
    | trueExpr => exact absurd rfl h
    | _ => simp [equals]

theorem equalsAll_iff (hx : ∀ x ∈ xs, ∀ y ∈ ys, ContextKeyExpression.cmp E x y = 0 ↔ x.equals y =
    true) : (if xs.length < ys.length then -1 else if xs.length > ys.length then 1 else cmpFirst E
    xs ys) = 0 ↔ equalsAll xs ys = true := by
  induction xs generalizing ys with
  | nil =>
    cases ys with
    | nil => simp [cmpFirst, equalsAll]
    | cons y ys => simp [equalsAll]
  | cons x xs ih =>
    cases ys with
    | nil => simp [equalsAll]
    | cons y ys =>
      have hrest := ih fun x hx' y hy => hx x (mem_cons_of_mem _ hx') y
        (mem_cons_of_mem _ hy)
      rw [equalsAll, Bool.and_eq_true, ← hrest, ← hx x mem_cons_self y mem_cons_self, cmpFirst]
      simp only [length_cons, add_lt_add_iff_right, gt_iff_lt]
      rcases lt_trichotomy xs.length ys.length with hlt | heq | hgt
      · simp [hlt]
      · by_cases hzero : ContextKeyExpression.cmp E x y = 0
        · simp [heq, hzero]
        · simp [heq, hzero]
      · simp [hgt, hgt.not_gt]

variable (htold : ToldApart S)
include htold

theorem cmp_eq_zero_iff (ha : Over S a) : ∀ {b}, Over S b →
    (ContextKeyExpression.cmp E a b = 0 ↔ a.equals b = true) := by
  have hne : ∀ {a b : ContextKeyExpression}, a.type ≠ b.type →
      (ContextKeyExpression.cmp E a b = 0 ↔ a.equals b = true) := by
    intro a b h
    rw [cmp_of_type_ne h, equals_of_type_ne h]
    simp [sub_eq_zero, h]
  induction ha with
  | falseExpr =>
    intro b hb
    by_cases htype : falseExpr.type = b.type
    · cases hb with
      | falseExpr => simp [ContextKeyExpression.cmp, equals]
      | atom h => exact absurd htype.symm (atom_type_ne _).1
      | _ => cases htype
    · exact hne htype
  | trueExpr =>
    intro b hb
    by_cases htype : trueExpr.type = b.type
    · cases hb with
      | trueExpr => simp [ContextKeyExpression.cmp, equals]
      | atom h => exact absurd htype.symm (atom_type_ne _).2.1
      | _ => cases htype
    · exact hne htype
  | @atom a h =>
    intro b hb
    by_cases htype : (atom a).type = b.type
    · cases hb with
      | @atom b h' =>
        rw [ContextKeyExpression.cmp, equals, atom_cmp_eq_zero htold h h',
          atom_equals_iff htold h h']
      | falseExpr => exact absurd htype (atom_type_ne a).1
      | trueExpr => exact absurd htype (atom_type_ne a).2.1
      | andExpr => exact absurd htype (atom_type_ne a).2.2.1
      | orExpr => exact absurd htype (atom_type_ne a).2.2.2
    · exact hne htype
  | @andExpr xs n hxs ih =>
    intro b hb
    by_cases htype : (andExpr xs n).type = b.type
    · cases hb with
      | @andExpr ys n' hys =>
        rw [ContextKeyExpression.cmp, equals]
        exact equalsAll_iff fun x hx y hy => ih x hx (hys y hy)
      | atom h => exact absurd htype.symm (atom_type_ne _).2.2.1
      | _ => cases htype
    · exact hne htype
  | @orExpr xs n hxs ih =>
    intro b hb
    by_cases htype : (orExpr xs n).type = b.type
    · cases hb with
      | @orExpr ys n' hys =>
        rw [ContextKeyExpression.cmp, equals]
        exact equalsAll_iff fun x hx y hy => ih x hx (hys y hy)
      | atom h => exact absurd htype.symm (atom_type_ne _).2.2.2
      | _ => cases htype
    · exact hne htype

omit htold in
theorem exprRanks_eq_of_equals
    (hx : ∀ x ∈ xs, ∀ y ∈ ys, x.equals y = true → exprRank x = exprRank y)
    (h : equalsAll xs ys = true) : exprRanks xs = exprRanks ys ∧ xs.length = ys.length := by
  induction xs generalizing ys with
  | nil =>
    cases ys with
    | nil => exact ⟨rfl, rfl⟩
    | cons y ys => cases h
  | cons x xs ih =>
    cases ys with
    | nil => cases h
    | cons y ys =>
      rw [equalsAll, Bool.and_eq_true] at h
      obtain ⟨hrest, hlen⟩ := ih (fun x hx' y hy => hx x (mem_cons_of_mem _ hx') y
        (mem_cons_of_mem _ hy)) h.2
      rw [exprRanks, exprRanks, hx x mem_cons_self y mem_cons_self h.1, hrest]
      exact ⟨rfl, congrArg (· + 1) hlen⟩

theorem exprRank_eq_of_equals (ha : Over S a) : ∀ {b}, Over S b →
    a.equals b = true → exprRank a = exprRank b := by
  induction ha with
  | falseExpr =>
    intro b hb h
    cases hb <;> first | rfl | simp [equals] at h
  | trueExpr =>
    intro b hb h
    cases hb <;> first | rfl | simp [equals] at h
  | @atom a ha =>
    intro b hb h
    cases hb with
    | @atom b hb => rw [(atom_equals_iff htold ha hb).mp (by simpa [equals] using h)]
    | _ => simp [equals] at h
  | andExpr hxs ih =>
    intro b hb h
    cases hb with
    | andExpr hys =>
      rw [equals] at h
      obtain ⟨hranks, hlen⟩ :=
        exprRanks_eq_of_equals (fun x hx y hy => ih x hx (hys y hy)) h
      rw [exprRank, exprRank, hranks, hlen]
    | _ => simp [equals] at h
  | orExpr hxs ih =>
    intro b hb h
    cases hb with
    | orExpr hys =>
      rw [equals] at h
      obtain ⟨hranks, hlen⟩ :=
        exprRanks_eq_of_equals (fun x hx y hy => ih x hx (hys y hy)) h
      rw [exprRank, exprRank, hranks, hlen]
    | _ => simp [equals] at h

theorem exprRank_eq_iff (ha : Over S a) (hb : Over S b) :
    exprRank a = exprRank b ↔ a.equals b = true := by
  refine ⟨fun heq => ?_, exprRank_eq_of_equals htold ha hb⟩
  rw [← @cmp_eq_zero_iff sampleEngine _ _ htold ha _ hb]
  have hequal := @exprRank_append_lt sampleEngine _ _ htold ha _ hb [] []
  have hlonger := @exprRank_append_lt sampleEngine _ _ htold ha _ hb [] [operatorRank 0 0]
  simp only [heq, append_nil, List.lt_irrefl, and_false, or_false, false_iff] at hequal
  have hless : exprRank b ++ [] < exprRank b ++ [operatorRank 0 0] :=
    append_left_lt (nil_lt_cons _ _)
  rw [heq] at hlonger
  rcases hlonger.mp hless with hlt | ⟨hzero, -⟩
  · exact absurd hlt hequal
  · exact hzero

theorem agrees_exprRank : Agrees (ContextKeyExpression.cmp E) (Over S) exprRank := by
  intro a b ha hb
  have hlt : ContextKeyExpression.cmp E a b < 0 ↔ exprRank a < exprRank b := by
    simpa using (@exprRank_append_lt E _ _ htold ha _ hb [] []).symm
  have hzero := (@cmp_eq_zero_iff E _ _ htold ha _ hb).trans (exprRank_eq_iff htold ha hb).symm
  refine ⟨hlt, ⟨fun h => ?_, fun h => ?_⟩⟩
  · refine lt_of_le_of_ne (not_lt.mp fun hc => ?_) fun heq => ?_
    · have := hlt.mpr hc
      omega
    · have := hzero.mpr heq.symm
      omega
  · have hnlt : ¬ ContextKeyExpression.cmp E a b < 0 := fun hc => (hlt.mp hc).asymm h
    have hne : ContextKeyExpression.cmp E a b ≠ 0 := fun hc => h.ne' (hzero.mp hc)
    omega

theorem cmp_order {c : ContextKeyExpression} (ha : Over S a) (hb : Over S b)
    (hc : Over S c) : (ContextKeyExpression.cmp E a b < 0 ↔ ContextKeyExpression.cmp E b a > 0) ∧
    (ContextKeyExpression.cmp E a b ≤ 0 →
    ContextKeyExpression.cmp E b c ≤ 0 → ContextKeyExpression.cmp E a c ≤ 0) ∧
    (ContextKeyExpression.cmp E a b = 0 ↔ a.equals b = true) := by
  have hagrees := @agrees_exprRank E S htold
  refine ⟨?_, ?_, cmp_eq_zero_iff htold ha hb⟩
  · rw [(hagrees a b ha hb).1, (hagrees b a hb ha).2]
  · rw [hagrees.le_zero ha hb, hagrees.le_zero hb hc, hagrees.le_zero ha hc]
    exact le_trans

end Order

end CodeOss.ContextKeys
