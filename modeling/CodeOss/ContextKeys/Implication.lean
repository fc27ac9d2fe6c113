import CodeOss.ContextKeys.AtomOrder

/-! `implies` and what it proves: the normal forms of `ContextKeyExpr`, inclusion of their
terms, and the conjunction of two of them. -/

namespace CodeOss.ContextKeys

open ContextKeyExpression SortedInclusion List

section Implies

variable (E : Engine)

/-- The two arrays are assumed to be sorted. -/
def allElementsIncluded (p q : List ContextKeyExpression) : Bool :=
  included (ContextKeyExpression.cmp E) p q

mutual

def implies : ContextKeyExpression → ContextKeyExpression → Bool
  | falseExpr, _ => true
  | _, trueExpr => true
  | orExpr xs _, orExpr ys _ => allElementsIncluded E xs ys
  | orExpr _ _, _ => false
  | p, orExpr ys _ => impliesSome p ys
  | andExpr xs _, andExpr ys _ => allElementsIncluded E ys xs
  | andExpr xs _, q => someImplies xs q
  | p, q => p.equals q
termination_by p q => sizeOf p + sizeOf q

def impliesSome (p : ContextKeyExpression) : List ContextKeyExpression → Bool
  | [] => false
  | element :: rest => implies p element || impliesSome p rest
termination_by ys => sizeOf p + sizeOf ys

def someImplies : List ContextKeyExpression → ContextKeyExpression → Bool
  | [], _ => false
  | element :: rest, q => implies element q || someImplies rest q
termination_by xs q => sizeOf xs + sizeOf q

end

/-- A conjunction of atoms of `S`, or one of them alone: the atoms and the expression. -/
inductive Conjunction (S : Atom → Prop) : List Atom → ContextKeyExpression → Prop
  | atom {a : Atom} (h : S a) : Conjunction S [a] (atom a)
  | andExpr {as : List Atom} {negated : Option ContextKeyExpression} (many : 2 ≤ as.length)
      (h : ∀ a ∈ as, S a) (ascending : Ascending (Atom.cmp E) as) :
      Conjunction S as (andExpr (as.map ContextKeyExpression.atom) negated)

/-- A disjunctive normal form over the atoms of `S`, or a constant. -/
inductive Normal (S : Atom → Prop) : ContextKeyExpression → Prop
  | falseExpr : Normal S falseExpr
  | trueExpr : Normal S trueExpr
  | conjunction {as : List Atom} {e : ContextKeyExpression} (h : Conjunction E S as e) :
      Normal S e
  | orExpr {xs : List ContextKeyExpression} {negated : Option ContextKeyExpression}
      (many : 2 ≤ xs.length) (operands : ∀ x ∈ xs, ∃ as, Conjunction E S as x)
      (ascending : Ascending (ContextKeyExpression.cmp E) xs) : Normal S (orExpr xs negated)

end Implies

section Laws

variable {E : Engine} {S : Atom → Prop} {as bs : List Atom} {p q : ContextKeyExpression}

theorem Conjunction.mem (h : Conjunction E S as p) : ∀ a ∈ as, S a := by
  cases h with
  | atom ha => simpa using ha
  | andExpr _ h _ => exact h

theorem Conjunction.evaluate (h : Conjunction E S as p) (context : Context) :
    ContextKeyExpression.evaluate E context p = as.all (Atom.evaluate E context) := by
  cases h with
  | atom ha => simp [ContextKeyExpression.evaluate]
  | andExpr =>
    rw [evaluate_andExpr, all_map]
    rfl

/-- The order of the atoms, for expressions that are atoms. -/
def termRank : ContextKeyExpression → ℤ ×ₗ List Nat ×ₗ (List Nat ⊕ₗ WithBot (WithTop ℚ))
  | .atom a => atomRank a
  | _ => atomRank (.definedExpr [])

def Term (S : Atom → Prop) (e : ContextKeyExpression) : Prop := ∃ a, e = .atom a ∧ S a

variable (htold : ToldApart S)
include htold

theorem agrees_termRank : Agrees (ContextKeyExpression.cmp E) (Term S) termRank := by
  rintro _ _ ⟨a, rfl, ha⟩ ⟨b, rfl, hb⟩
  rw [ContextKeyExpression.cmp]
  exact agrees_atomRank htold a b ha hb

theorem included_terms_iff (has : ∀ a ∈ as, S a) (hbs : ∀ b ∈ bs, S b)
    (hasc : Ascending (Atom.cmp E) as) (hasc' : Ascending (Atom.cmp E) bs) :
    allElementsIncluded E (as.map .atom) (bs.map .atom) = true ↔ ∀ a ∈ as, a ∈ bs := by
  have hmap : ∀ cs : List Atom, Ascending (Atom.cmp E) cs →
      Ascending (ContextKeyExpression.cmp E) (cs.map .atom) := fun cs hcs =>
    pairwise_map.mpr (hcs.imp fun hab => by rwa [ContextKeyExpression.cmp])
  have hterm : ∀ cs : List Atom, (∀ c ∈ cs, S c) →
      ∀ e ∈ cs.map ContextKeyExpression.atom, Term S e := fun cs hcs e he => by
    obtain ⟨c, hc, rfl⟩ := mem_map.mp he
    exact ⟨c, rfl, hcs c hc⟩
  constructor
  · intro hincluded a ha
    obtain ⟨y, hy, hcmp⟩ := exists_of_included hincluded _ (mem_map_of_mem ha)
    obtain ⟨b, hb, rfl⟩ := mem_map.mp hy
    rw [ContextKeyExpression.cmp, atom_cmp_eq_zero htold (has a ha) (hbs b hb)] at hcmp
    exact hcmp ▸ hb
  · intro hall
    refine included_of_exists (agrees_termRank htold) (hterm as has) (hterm bs hbs)
      (hmap as hasc) (hmap bs hasc') fun x hx => ?_
    obtain ⟨a, ha, rfl⟩ := mem_map.mp hx
    exact ⟨.atom a, mem_map_of_mem (hall a ha), rfl⟩

theorem someImplies_iff (has : ∀ a ∈ as, S a) {b : Atom} (hb : S b) :
    someImplies E (as.map .atom) (.atom b) = true ↔ b ∈ as := by
  induction as with
  | nil => simp [someImplies]
  | cons a as ih =>
    obtain ⟨ha, has⟩ := forall_mem_cons.mp has
    rw [map_cons, someImplies, Bool.or_eq_true, ih has, implies, equals,
      atom_equals_iff htold ha hb, mem_cons]
    · exact or_congr_left eq_comm
    all_goals simp

theorem implies_iff (hp : Conjunction E S as p) (hq : Conjunction E S bs q) :
    implies E p q = true ↔ ∀ b ∈ bs, b ∈ as := by
  cases hp with
  | atom ha =>
    cases hq with
    | atom hb =>
      rw [implies, equals, atom_equals_iff htold ha hb]
      · simp [eq_comm]
      all_goals simp
    | andExpr many h ascending =>
      rw [implies]
      · refine iff_of_false (by simp [equals]) fun hall => ?_
        rcases bs with _ | ⟨b, _ | ⟨b', bs⟩⟩
        · cases many
        · simp at many
        · have hcmp := (pairwise_cons.mp ascending).1 b' mem_cons_self
          have hb := mem_singleton.mp (hall b mem_cons_self)
          have hb' := mem_singleton.mp
            (hall b' (mem_cons_of_mem _ mem_cons_self))
          rw [hb, hb', (atom_cmp_eq_zero htold ha ha).mpr rfl] at hcmp
          omega
      all_goals simp
  | andExpr many h ascending =>
    cases hq with
    | atom hb =>
      rw [implies, someImplies_iff htold h hb]
      · simp
      all_goals simp
    | andExpr many' h' ascending' =>
      rw [implies, included_terms_iff htold h' h ascending' ascending]

theorem cmpFirst_terms (has : ∀ a ∈ as, S a) (hbs : ∀ b ∈ bs, S b) (hlen : as.length = bs.length) :
    cmpFirst E (as.map .atom) (bs.map .atom) = 0 ↔ as = bs := by
  induction as generalizing bs with
  | nil =>
    cases bs with
    | nil => simp [cmpFirst]
    | cons b bs => cases hlen
  | cons a as ih =>
    cases bs with
    | nil => cases hlen
    | cons b bs =>
      obtain ⟨ha, has⟩ := forall_mem_cons.mp has
      obtain ⟨hb, hbs⟩ := forall_mem_cons.mp hbs
      simp only [map_cons, cmpFirst, ContextKeyExpression.cmp]
      rw [List.cons.injEq, ← @atom_cmp_eq_zero E _ htold _ _ ha hb,
        ← ih has hbs (Nat.succ.inj hlen)]
      by_cases hzero : Atom.cmp E a b = 0
      · simp [hzero]
      · simp [hzero]

theorem conjunction_cmp_eq_zero (hp : Conjunction E S as p) (hq : Conjunction E S bs q) :
    ContextKeyExpression.cmp E p q = 0 ↔ as = bs := by
  have htype : ∀ a : Atom, a.type ≠ 6 := by
    intro a
    cases a with
    | comparisonExpr op => cases op <;> simp [Atom.type, Comparison.type]
    | _ => simp [Atom.type]
  cases hp with
  | @atom a ha =>
    cases hq with
    | @atom b hb =>
      rw [ContextKeyExpression.cmp, atom_cmp_eq_zero htold ha hb, singleton_inj]
    | andExpr many h ascending =>
      have hne := htype a
      refine iff_of_false ?_ fun heq => ?_
      · rw [ContextKeyExpression.cmp, type, type]
        · omega
        all_goals simp
      · rw [← heq] at many
        simp at many
  | andExpr many h ascending =>
    cases hq with
    | @atom b hb =>
      have hne := htype b
      refine iff_of_false ?_ fun heq => ?_
      · rw [ContextKeyExpression.cmp, type, type]
        · omega
        all_goals simp
      · rw [heq] at many
        simp at many
    | andExpr many' h' ascending' =>
      rw [ContextKeyExpression.cmp]
      simp only [length_map]
      have hlen : as = bs → as.length = bs.length := fun heq => heq ▸ rfl
      split
      · next hlt => exact iff_of_false (by omega) fun heq => (hlen heq).not_lt hlt
      · next hle =>
          split
          · next hgt => exact iff_of_false (by omega) fun heq => (hlen heq).not_gt hgt
          · next hge => exact cmpFirst_terms htold h h' (by omega)

omit htold in
theorem impliesSome_iff {ys : List ContextKeyExpression} :
    impliesSome E p ys = true ↔ ∃ y ∈ ys, implies E p y = true := by
  induction ys with
  | nil => simp [impliesSome]
  | cons y ys ih => simp [impliesSome, ih]

theorem implies_sound (hp : Normal E S p) (hq : Normal E S q) (h : implies E p q = true)
    (context : Context) (hval : ContextKeyExpression.evaluate E context p = true) :
    ContextKeyExpression.evaluate E context q = true := by
  have hconj : ∀ {as bs p q}, Conjunction E S as p → Conjunction E S bs q →
      implies E p q = true → ContextKeyExpression.evaluate E context p = true →
      ContextKeyExpression.evaluate E context q = true := by
    intro as bs p q hp hq h hval
    rw [hp.evaluate, all_eq_true] at hval
    rw [hq.evaluate, all_eq_true]
    exact fun b hb => hval b ((implies_iff htold hp hq).mp h b hb)
  have hfalse : ∀ {as p}, Conjunction E S as p → implies E p .falseExpr ≠ true := by
    intro as p hp
    cases hp with
    | atom ha => simp [implies, equals]
    | @andExpr as n many has ascending =>
      have hsome : ∀ cs : List Atom, someImplies E (cs.map .atom) .falseExpr = false := by
        intro cs
        induction cs with
        | nil => simp [someImplies]
        | cons c cs ih => simp [someImplies, implies, equals, ih]
      simp [implies, hsome]
  cases hp with
  | falseExpr => cases hval
  | trueExpr =>
    cases hq with
    | falseExpr => simp [implies, equals] at h
    | trueExpr => rfl
    | conjunction hq => cases hq <;> simp [implies, equals] at h
    | orExpr many operands ascending =>
      rw [implies] at h
      · obtain ⟨y, hy, himplies⟩ := impliesSome_iff.mp h
        obtain ⟨bs, hbs⟩ := operands y hy
        cases hbs <;> simp [implies, equals] at himplies
      all_goals simp
  | @conjunction as _ hp =>
    cases hq with
    | falseExpr => exact absurd h (hfalse hp)
    | trueExpr => rfl
    | conjunction hq => exact hconj hp hq h hval
    | @orExpr ys n many operands ascending =>
      have hsome : impliesSome E p ys = true := by
        cases hp <;> simpa [implies] using h
      obtain ⟨y, hy, himplies⟩ := impliesSome_iff.mp hsome
      obtain ⟨bs, hbs⟩ := operands y hy
      rw [evaluate_orExpr, any_eq_true]
      exact ⟨y, hy, hconj hp hbs himplies hval⟩
  | orExpr many operands ascending =>
    cases hq with
    | falseExpr => simp [implies] at h
    | trueExpr => rfl
    | conjunction hq => cases hq <;> simp [implies] at h
    | orExpr many' operands' ascending' =>
      rw [implies] at h
      rw [evaluate_orExpr, any_eq_true] at hval
      obtain ⟨x, hx, hvalx⟩ := hval
      obtain ⟨y, hy, hzero⟩ := exists_of_included h x hx
      obtain ⟨as, has⟩ := operands x hx
      obtain ⟨bs, hbs⟩ := operands' y hy
      have heq : as = bs := (conjunction_cmp_eq_zero htold has hbs).mp hzero
      rw [evaluate_orExpr, any_eq_true]
      refine ⟨y, hy, ?_⟩
      rw [hbs.evaluate, ← heq, ← has.evaluate, hvalx]

theorem implies_self (hp : Normal E S p) : implies E p p = true := by
  cases hp with
  | falseExpr => simp [implies]
  | trueExpr => simp [implies]
  | conjunction hp => exact (implies_iff htold hp hp).mpr fun _ hb => hb
  | orExpr many operands ascending =>
    rw [implies]
    refine included_self fun x hx => ?_
    obtain ⟨as, has⟩ := operands x hx
    exact (conjunction_cmp_eq_zero htold has has).mpr rfl

theorem implies_trans {cs : List Atom} {r : ContextKeyExpression} (hp : Conjunction E S as p)
    (hq : Conjunction E S bs q) (hr : Conjunction E S cs r) (hpq : implies E p q = true)
    (hqr : implies E q r = true) : implies E p r = true :=
  (implies_iff htold hp hr).mpr fun c hc =>
    (implies_iff htold hp hq).mp hpq c ((implies_iff htold hq hr).mp hqr c hc)

end Laws

section Arrays

variable {E : Engine} {β : Type} [LinearOrder β] {P : ContextKeyExpression → Prop}
  {rank : ContextKeyExpression → β}

theorem ascending_withoutDuplicates (h : Agrees (ContextKeyExpression.cmp E) P rank)
    (heq : ∀ a b, P a → P b → (a.equals b = true ↔ rank a = rank b))
    {xs : List ContextKeyExpression} (hxs : ∀ x ∈ xs, P x)
    (hsorted : xs.Pairwise fun a b => rank a ≤ rank b) : Ascending (ContextKeyExpression.cmp E)
    (withoutDuplicates xs) ∧ ∀ x ∈ xs, ∃ y ∈ withoutDuplicates xs, rank y = rank x := by
  have hgo : ∀ a rest, P a → (∀ x ∈ rest, P x) → (∀ x ∈ rest, rank a ≤ rank x) →
      rest.Pairwise (fun a b => rank a ≤ rank b) →
      Ascending (ContextKeyExpression.cmp E) (a :: withoutDuplicates.go a rest) ∧
        ∀ x ∈ rest, ∃ y ∈ a :: withoutDuplicates.go a rest, rank y = rank x := by
    intro a rest
    induction rest generalizing a with
    | nil =>
      intro _ _ _ _
      exact ⟨pairwise_singleton _ _, fun x hx => by cases hx⟩
    | cons b rest ih =>
      intro ha hrest hle hsorted
      obtain ⟨hb, hrest⟩ := forall_mem_cons.mp hrest
      obtain ⟨hab, hle⟩ := forall_mem_cons.mp hle
      obtain ⟨hfirst, hsorted⟩ := pairwise_cons.mp hsorted
      rw [withoutDuplicates.go]
      split
      · next heqs =>
          obtain ⟨hasc, hall⟩ := ih a ha hrest hle hsorted
          refine ⟨hasc, forall_mem_cons.mpr ⟨?_, hall⟩⟩
          exact ⟨a, mem_cons_self, (heq a b ha hb).mp heqs⟩
      · next hne =>
          obtain ⟨hasc, hall⟩ := ih b hb hrest hfirst hsorted
          have hlt : rank a < rank b := lt_of_le_of_ne hab fun hc =>
            hne ((heq a b ha hb).mpr hc)
          refine ⟨pairwise_cons.mpr ⟨fun y hy => ?_, hasc⟩, ?_⟩
          · rcases mem_cons.mp hy with rfl | hy'
            · exact (h a y ha hb).1.mpr hlt
            · have hmem := mem_of_mem_go hy'
              exact (h a y ha (hrest y hmem)).1.mpr (hlt.trans_le (hfirst y hmem))
          · intro x hx
            rcases mem_cons.mp hx with rfl | hx
            · exact ⟨x, mem_cons_of_mem _ mem_cons_self, rfl⟩
            · obtain ⟨y, hy, hrank⟩ := hall x hx
              exact ⟨y, mem_cons_of_mem _ hy, hrank⟩
  cases xs with
  | nil => exact ⟨List.Pairwise.nil, fun x hx => by cases hx⟩
  | cons a rest =>
    obtain ⟨ha, hrest⟩ := forall_mem_cons.mp hxs
    obtain ⟨hfirst, hsorted⟩ := pairwise_cons.mp hsorted
    obtain ⟨hasc, hall⟩ := hgo a rest ha hrest hfirst hsorted
    exact ⟨hasc, forall_mem_cons.mpr ⟨⟨a, mem_cons_self, rfl⟩, hall⟩⟩

end Arrays

section And

variable {E : Engine} {S : Atom → Prop} {as bs : List Atom} {p r e : ContextKeyExpression}

theorem operandsOfAnd_of_conjunctions (hp : Conjunction E S as p) (hr : Conjunction E S bs r) :
    operandsOfAnd [some p, some r] = some ((as ++ bs).map .atom, false) := by
  cases hp <;> cases hr <;> simp [operandsOfAnd]

theorem operandsOfAnd_of_trueExpr (hp : Conjunction E S as p) :
    operandsOfAnd [some p, some trueExpr] = some ((as ++ []).map .atom, true) := by
  cases hp <;> simp [operandsOfAnd]

theorem exists_atoms {ys : List ContextKeyExpression} (h : ∀ y ∈ ys, Term S y) :
    ∃ cs : List Atom, ys = cs.map .atom ∧ ∀ c ∈ cs, S c := by
  induction ys with
  | nil => exact ⟨[], rfl, fun c hc => by cases hc⟩
  | cons y ys ih =>
    obtain ⟨⟨c, rfl, hc⟩, hys⟩ := forall_mem_cons.mp h
    obtain ⟨cs, rfl, hcs⟩ := ih hys
    exact ⟨c :: cs, rfl, forall_mem_cons.mpr ⟨hc, hcs⟩⟩

theorem distribute_atoms (and : List (Option ContextKeyExpression) → Option ContextKeyExpression)
    (or : List (Option ContextKeyExpression) → Bool → Option ContextKeyExpression)
    (rounds : Nat) (cs : List Atom) : distribute E and or rounds (cs.map .atom) = cs.map .atom := by
  cases rounds with
  | zero => rfl
  | succ rounds =>
    rw [distribute, ← List.map_reverse]
    cases cs.reverse with
    | nil => rfl
    | cons c cs => rfl

theorem normal_atoms (htold : ToldApart S) (has : ∀ a ∈ as, S a) :
    ∃ cs : List Atom, withoutDuplicates (sortExpr E (as.map .atom)) = cs.map .atom ∧
      (∀ c ∈ cs, S c) ∧ Ascending (Atom.cmp E) cs ∧ ∀ c, c ∈ cs ↔ c ∈ as := by
  have hagrees := @agrees_termRank E S htold
  have hterm : ∀ x ∈ as.map ContextKeyExpression.atom, Term S x := fun x hx => by
    obtain ⟨a, ha, rfl⟩ := List.mem_map.mp hx
    exact ⟨a, rfl, has a ha⟩
  have hterm' : ∀ x ∈ sortExpr E (as.map .atom), Term S x := fun x hx =>
    hterm x (mem_sortExpr.mp hx)
  have hequals : ∀ x y, Term S x → Term S y → (x.equals y = true ↔ termRank x = termRank y) := by
    rintro _ _ ⟨a, rfl, ha⟩ ⟨b, rfl, hb⟩
    rw [equals, atom_equals_iff htold ha hb]
    exact ⟨fun heq => heq ▸ rfl, eq_of_atomRank htold ha hb⟩
  obtain ⟨hasc, hall⟩ := ascending_withoutDuplicates hagrees hequals hterm'
    (pairwise_insertionSort hagrees hterm)
  obtain ⟨cs, hcs, hS⟩ := exists_atoms fun y hy =>
    hterm' y (mem_of_mem_withoutDuplicates hy)
  rw [hcs] at hasc hall
  refine ⟨cs, hcs, hS, (List.pairwise_map.mp hasc).imp fun hab => ?_, fun c => ⟨fun hc => ?_,
    fun hc => ?_⟩⟩
  · rwa [ContextKeyExpression.cmp] at hab
  · have hmem : atom c ∈ withoutDuplicates (sortExpr E (as.map .atom)) :=
      hcs ▸ List.mem_map_of_mem hc
    simpa using mem_sortExpr.mp (mem_of_mem_withoutDuplicates hmem)
  · obtain ⟨y, hy, hrank⟩ := hall (.atom c) (mem_sortExpr.mpr (List.mem_map_of_mem hc))
    obtain ⟨d, hd, rfl⟩ := List.mem_map.mp hy
    rwa [← eq_of_atomRank htold (hS d hd) (has c hc) hrank]

theorem and_of_atoms (htold : ToldApart S) (constants : JsString → Option Bool) (depth : Nat)
    {hasTrue : Bool} (hne : as ≠ []) (hS : ∀ a ∈ as ++ bs, S a)
    (hoperands : operandsOfAnd [some p, some r] = some ((as ++ bs).map .atom, hasTrue))
    (he : ContextKeyExpr.and E constants depth [some p, some r] = some e) :
    e = falseExpr ∨ ∃ cs, Conjunction E S cs e ∧ ∀ a ∈ as, a ∈ cs := by
  obtain ⟨cs, hcs, hmem, hasc, hiff⟩ := @normal_atoms E S (as ++ bs) htold hS
  obtain ⟨a, ha⟩ := exists_mem_of_ne_nil as hne
  have hleft : ∀ a ∈ as, a ∈ cs := fun a ha => (hiff a).mpr (mem_append_left _ ha)
  have hsome : ¬ ((as ++ bs).map ContextKeyExpression.atom = [] ∧ hasTrue = true) := fun hc =>
    hne (append_eq_nil_iff.mp (map_eq_nil_iff.mp hc.1)).1
  rw [ContextKeyExpr.and, createAnd, normalizeAnd, hoperands] at he
  simp only [hcs] at he
  rw [if_neg hsome] at he
  rcases cs with _ | ⟨c, _ | ⟨c', cs⟩⟩
  · exact absurd (hleft a ha) not_mem_nil
  · obtain rfl := Option.some_inj.mp he
    exact .inr ⟨[c], .atom (hmem c mem_cons_self), hleft⟩
  · have hdist := fun and or n => @distribute_atoms E and or n (c :: c' :: cs)
    simp only [map_cons] at he hdist
    rw [hdist] at he
    simp only at he
    split at he
    · exact .inl (Option.some_inj.mp he).symm
    · obtain rfl := Option.some_inj.mp he
      exact .inr ⟨c :: c' :: cs, .andExpr (by simp) hmem hasc, hleft⟩

theorem and_implies (htold : ToldApart S) (constants : JsString → Option Bool) (depth : Nat)
    (hp : Conjunction E S as p) (hr : r = trueExpr ∨ ∃ bs, Conjunction E S bs r)
    (he : ContextKeyExpr.and E constants depth [some p, some r] = some e) :
    implies E e p = true := by
  have hne : as ≠ [] := by
    cases hp with
    | atom => exact cons_ne_nil _ _
    | andExpr many => exact fun hc => by simp [hc] at many
  have hcases : e = falseExpr ∨ ∃ cs, Conjunction E S cs e ∧ ∀ a ∈ as, a ∈ cs := by
    rcases hr with rfl | ⟨bs, hbs⟩
    · exact and_of_atoms htold constants depth hne (by simpa using hp.mem)
        (operandsOfAnd_of_trueExpr hp) he
    · exact and_of_atoms htold constants depth hne
        (forall_mem_append.mpr ⟨hp.mem, hbs.mem⟩) (operandsOfAnd_of_conjunctions hp hbs) he
  rcases hcases with rfl | ⟨cs, hcs, hall⟩
  · simp [implies]
  · exact (implies_iff htold hcs hp).mpr hall

end And

/-- On normal forms whose atoms are told apart, what is provable holds, each expression implies
itself, the conjunctions are ordered, and adding terms that are no disjunction makes a
conjunction stronger. -/
theorem implies_of_normal (E : Engine) (S : Atom → Prop) (htold : ToldApart S) :
    (∀ p q, Normal E S p → Normal E S q → implies E p q = true → ∀ context,
        evaluate E context p = true → evaluate E context q = true) ∧
      (∀ p, Normal E S p → implies E p p = true) ∧
      (∀ as bs cs p q r, Conjunction E S as p → Conjunction E S bs q → Conjunction E S cs r →
        implies E p q = true → implies E q r = true → implies E p r = true) ∧
      ∀ constants depth as p r e, Conjunction E S as p →
        (r = trueExpr ∨ r = falseExpr ∨ ∃ bs, Conjunction E S bs r) →
        ContextKeyExpr.and E constants depth [some p, some r] = some e →
        e ≠ trueExpr → e ≠ falseExpr → implies E e p = true := by
  refine ⟨fun p q hp hq h context => implies_sound htold hp hq h context,
    fun p hp => implies_self htold hp,
    fun as bs cs p q r hp hq hr => implies_trans htold hp hq hr,
    fun constants depth as p r e hp hr he _ hfalse => ?_⟩
  rcases hr with rfl | rfl | hr
  · exact and_implies htold constants depth hp (.inl rfl) he
  · refine absurd ?_ hfalse
    rw [ContextKeyExpr.and, createAnd, normalizeAnd] at he
    cases hp <;> simpa [operandsOfAnd, eq_comm] using he
  · exact and_implies htold constants depth hp (.inr hr) he

/-- `a && b` implies `a`, and holds nowhere else. -/
theorem implies_of_normal_and :
    let E := sampleEngine
    let e := andExpr [atom (.definedExpr [97]), atom (.definedExpr [98])] none
    implies E e (atom (.definedExpr [97])) = true ∧ ∀ context,
      evaluate E context e = true → evaluate E context (atom (.definedExpr [97])) = true := by
  intro E e
  let S : Atom → Prop := fun a => a = .definedExpr [97] ∨ a = .definedExpr [98]
  have htold : ToldApart S := by
    refine ⟨?_, fun key r r' hr => ?_⟩
    · rintro a b (rfl | rfl) (rfl | rfl) _ _ <;> exact .inl rfl
    · rcases hr with (hr | hr) | (hr | hr) <;> cases hr
  have ha : Conjunction E S [.definedExpr [97]] (atom (.definedExpr [97])) := .atom (.inl rfl)
  have hb : Conjunction E S [.definedExpr [98]] (atom (.definedExpr [98])) := .atom (.inr rfl)
  have he : Conjunction E S [.definedExpr [97], .definedExpr [98]] e := by
    refine .andExpr (le_refl 2) (by simp [S]) ?_
    exact List.pairwise_pair.mpr (by decide)
  obtain ⟨hsound, -, -, hand⟩ := implies_of_normal E S htold
  have himplies := hand (fun _ => none) 0 _ _ _ e ha (.inr (.inr ⟨_, hb⟩)) rfl (by simp [e])
    (by simp [e])
  exact ⟨himplies, hsound e _ (.conjunction he) (.conjunction ha) himplies⟩

/-- `a && (b || c)` is a disjunction, of which `implies` proves no atom. -/
theorem and_disjunction_not_implies :
    ¬ ∀ (E : Engine) (constants : JsString → Option Bool) (depth : Nat) (S : Atom → Prop)
        (as : List Atom) (p r e : ContextKeyExpression), Conjunction E S as p → Normal E S r →
        ContextKeyExpr.and E constants depth [some p, some r] = some e →
        e ≠ trueExpr → e ≠ falseExpr → implies E e p = true := by
  intro h
  have hS : ∀ key, Conjunction sampleEngine (fun _ => True) [.definedExpr key]
      (atom (.definedExpr key)) := fun key => .atom trivial
  have hr : Normal sampleEngine (fun _ => True)
      (orExpr [atom (.definedExpr [98]), atom (.definedExpr [99])] none) := by
    refine .orExpr (le_refl 2) ?_ ?_
    · simp only [List.mem_cons, List.not_mem_nil, or_false, forall_eq_or_imp, forall_eq]
      exact ⟨⟨_, hS [98]⟩, ⟨_, hS [99]⟩⟩
    · refine List.pairwise_pair.mpr ?_
      rw [ContextKeyExpression.cmp]
      decide
  have himplies := h sampleEngine (fun _ => none) 1 _ _ _ _ _ (hS [97]) hr rfl
    (by simp) (by simp)
  simp [implies] at himplies

end CodeOss.ContextKeys
