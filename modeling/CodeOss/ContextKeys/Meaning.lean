import CodeOss.ContextKeys.Normalization

/-! Normalisation and negation keep the meaning of expressions, in a context in which the
negations of the atoms are their opposites and atoms that compare as equal evaluate alike. -/

namespace CodeOss.ContextKeys

open ContextKeyExpression List

section Meaning

variable (E : Engine) (constants : JsString → Option Bool) (context : Context)

/-- An expression over the atoms `S`, of any nesting. -/
inductive Over (S : Atom → Prop) : ContextKeyExpression → Prop
  | falseExpr : Over S falseExpr
  | trueExpr : Over S trueExpr
  | atom {a : Atom} (h : S a) : Over S (atom a)
  | andExpr {xs : List ContextKeyExpression} {negated : Option ContextKeyExpression}
      (operands : ∀ x ∈ xs, Over S x) : Over S (andExpr xs negated)
  | orExpr {xs : List ContextKeyExpression} {negated : Option ContextKeyExpression}
      (operands : ∀ x ∈ xs, Over S x) : Over S (orExpr xs negated)

/-- An expression over the atoms `S` whose cached negations are its opposites. -/
inductive Ok (S : Atom → Prop) : ContextKeyExpression → Prop
  | falseExpr : Ok S falseExpr
  | trueExpr : Ok S trueExpr
  | atom {a : Atom} (h : S a) : Ok S (atom a)
  | andExpr {xs : List ContextKeyExpression} {negated : Option ContextKeyExpression}
      (nonempty : xs ≠ []) (operands : ∀ x ∈ xs, Ok S x) (cached : ∀ n ∈ negated, Ok S n)
      (opposite : ∀ n ∈ negated, evaluate E context n = !xs.all (evaluate E context)) :
      Ok S (andExpr xs negated)
  | orExpr {xs : List ContextKeyExpression} {negated : Option ContextKeyExpression}
      (nonempty : xs ≠ []) (operands : ∀ x ∈ xs, Ok S x) (cached : ∀ n ∈ negated, Ok S n)
      (opposite : ∀ n ∈ negated, evaluate E context n = !xs.any (evaluate E context)) :
      Ok S (orExpr xs negated)

/-- The atoms are closed under negation, which is their opposite, and equal atoms mean
the same. -/
structure Coherent (S : Atom → Prop) : Prop where
  negate : ∀ a, S a → Ok E context S (a.negate constants E)
  opposite : ∀ a, S a →
    evaluate E context (a.negate constants E) = !evaluate E context (atom a)
  alike : ∀ a b, S a → S b → a.equals b = true → a.evaluate E context = b.evaluate E context

variable {E constants context} {S : Atom → Prop}

variable {x : ContextKeyExpression} {xs ys : List ContextKeyExpression}
  {negate : ContextKeyExpression → ContextKeyExpression} {arr : List (Option ContextKeyExpression)}

theorem Ok.over (h : Ok E context S x) : Over S x := by
  induction h with
  | falseExpr => exact .falseExpr
  | trueExpr => exact .trueExpr
  | atom h => exact .atom h
  | andExpr _ _ _ _ ih _ => exact .andExpr ih
  | orExpr _ _ _ _ ih _ => exact .orExpr ih

theorem map_evaluate_eq (h : equalsAll xs ys = true)
    (hx : ∀ x ∈ xs, ∀ y ∈ ys, x.equals y = true → evaluate E context x = evaluate E context y) :
    xs.map (evaluate E context) = ys.map (evaluate E context) := by
  induction xs generalizing ys with
  | nil =>
    cases ys with
    | nil => rfl
    | cons y ys => cases h
  | cons x xs ih =>
    cases ys with
    | nil => cases h
    | cons y ys =>
      rw [equalsAll, Bool.and_eq_true] at h
      rw [map_cons, map_cons, hx x mem_cons_self y mem_cons_self h.1,
        ih h.2 fun a ha b hb => hx a (mem_cons_of_mem _ ha) b (mem_cons_of_mem _ hb)]

theorem evaluate_eq_of_equals
    (halike : ∀ a b, S a → S b → a.equals b = true → a.evaluate E context = b.evaluate E context)
    (hx : Over S x) :
    ∀ {y}, Over S y → x.equals y = true → evaluate E context x = evaluate E context y := by
  have hall : ∀ xs : List ContextKeyExpression,
      xs.all (evaluate E context) = (xs.map (evaluate E context)).all id := fun xs => by
    rw [all_map]
    rfl
  have hany : ∀ xs : List ContextKeyExpression,
      xs.any (evaluate E context) = (xs.map (evaluate E context)).any id := fun xs => by
    rw [any_map]
    rfl
  induction hx with
  | falseExpr =>
    intro y hy h
    cases hy <;> first | rfl | simp [equals] at h
  | trueExpr =>
    intro y hy h
    cases hy <;> first | rfl | simp [equals] at h
  | atom ha =>
    intro y hy h
    cases hy with
    | atom hb => exact halike _ _ ha hb (by simpa [equals] using h)
    | _ => simp [equals] at h
  | andExpr hxs ih =>
    intro y hy h
    cases hy with
    | andExpr hys =>
      rw [equals] at h
      have hmap := map_evaluate_eq h fun x hx y hy => ih x hx (hys y hy)
      rw [evaluate_andExpr, evaluate_andExpr, hall, hall, hmap]
    | _ => simp [equals] at h
  | orExpr hxs ih =>
    intro y hy h
    cases hy with
    | orExpr hys =>
      rw [equals] at h
      have hmap := map_evaluate_eq h fun x hx y hy => ih x hx (hys y hy)
      rw [evaluate_orExpr, evaluate_orExpr, hany, hany, hmap]
    | _ => simp [equals] at h

variable (E context) in
/-- Each element of one array has one of the same value in the other. -/
def SameValues (xs ys : List ContextKeyExpression) : Prop :=
  (∀ x ∈ xs, ∃ y ∈ ys, evaluate E context y = evaluate E context x) ∧
    ∀ y ∈ ys, ∃ x ∈ xs, evaluate E context x = evaluate E context y

section

variable (h : SameValues E context xs ys)
include h

theorem SameValues.all_eq : ys.all (evaluate E context) = xs.all (evaluate E context) := by
  rw [Bool.eq_iff_iff, all_eq_true, all_eq_true]
  constructor
  · intro hall x hx
    obtain ⟨y, hy, heq⟩ := h.1 x hx
    exact heq ▸ hall y hy
  · intro hall y hy
    obtain ⟨x, hx, heq⟩ := h.2 y hy
    exact heq ▸ hall x hx

theorem SameValues.any_eq : ys.any (evaluate E context) = xs.any (evaluate E context) := by
  rw [Bool.eq_iff_iff, any_eq_true, any_eq_true]
  constructor
  · rintro ⟨y, hy, hval⟩
    obtain ⟨x, hx, heq⟩ := h.2 y hy
    exact ⟨x, hx, heq ▸ hval⟩
  · rintro ⟨x, hx, hval⟩
    obtain ⟨y, hy, heq⟩ := h.1 x hx
    exact ⟨y, hy, heq ▸ hval⟩

theorem SameValues.trans {zs : List ContextKeyExpression}
    (h' : SameValues E context ys zs) : SameValues E context xs zs := by
  constructor
  · intro x hx
    obtain ⟨y, hy, heq⟩ := h.1 x hx
    obtain ⟨z, hz, heq'⟩ := h'.1 y hy
    exact ⟨z, hz, heq'.trans heq⟩
  · intro z hz
    obtain ⟨y, hy, heq⟩ := h'.2 z hz
    obtain ⟨x, hx, heq'⟩ := h.2 y hy
    exact ⟨x, hx, heq'.trans heq⟩

end

theorem sameValues_of_mem_iff (h : ∀ x, x ∈ ys ↔ x ∈ xs) : SameValues E context xs ys :=
  ⟨fun x hx => ⟨x, (h x).mpr hx, rfl⟩, fun y hy => ⟨y, (h y).mp hy, rfl⟩⟩

theorem mem_sortExpr : x ∈ sortExpr E xs ↔ x ∈ xs :=
  (perm_insertionSort _ xs).mem_iff

theorem mem_of_mem_go {a : ContextKeyExpression} {rest : List ContextKeyExpression}
    (h : x ∈ withoutDuplicates.go a rest) : x ∈ rest := by
  induction rest generalizing a with
  | nil => exact h
  | cons b rest ih =>
    rw [withoutDuplicates.go] at h
    split at h
    · exact mem_cons_of_mem _ (ih h)
    · rcases mem_cons.mp h with rfl | h
      · exact mem_cons_self
      · exact mem_cons_of_mem _ (ih h)

theorem mem_of_mem_withoutDuplicates (h : x ∈ withoutDuplicates xs) : x ∈ xs := by
  cases xs with
  | nil => exact h
  | cons a rest =>
    rcases mem_cons.mp h with rfl | h
    · exact mem_cons_self
    · exact mem_cons_of_mem _ (mem_of_mem_go h)

section

variable (halike : ∀ a b, S a → S b → a.equals b = true → a.evaluate E context = b.evaluate E
  context)
include halike

theorem sameValues_withoutDuplicates
    (hxs : ∀ x ∈ xs, Ok E context S x) : SameValues E context xs (withoutDuplicates xs) := by
  refine ⟨?_, fun y hy => ⟨y, mem_of_mem_withoutDuplicates hy, rfl⟩⟩
  have hgo : ∀ a rest, Ok E context S a → (∀ x ∈ rest, Ok E context S x) → ∀ x ∈ rest,
      ∃ y ∈ a :: withoutDuplicates.go a rest, evaluate E context y = evaluate E context x := by
    intro a rest
    induction rest generalizing a with
    | nil => intro _ _ x hx; cases hx
    | cons b rest ih =>
      intro ha hrest x hx
      obtain ⟨hb, hrest⟩ := forall_mem_cons.mp hrest
      rw [withoutDuplicates.go]
      split
      · next heq =>
          rcases mem_cons.mp hx with rfl | hx
          · exact ⟨a, mem_cons_self, evaluate_eq_of_equals halike ha.over hb.over heq⟩
          · exact ih a ha hrest x hx
      · rcases mem_cons.mp hx with rfl | hx
        · exact ⟨x, mem_cons_of_mem _ mem_cons_self, rfl⟩
        · obtain ⟨y, hy, hval⟩ := ih b hb hrest x hx
          exact ⟨y, mem_cons_of_mem _ hy, hval⟩
  cases xs with
  | nil => intro x hx; cases hx
  | cons a rest =>
    obtain ⟨ha, hrest⟩ := forall_mem_cons.mp hxs
    intro x hx
    rcases mem_cons.mp hx with rfl | hx
    · exact ⟨x, mem_cons_self, rfl⟩
    · exact hgo a rest ha hrest x hx

theorem sameValues_normal (hxs : ∀ x ∈ xs, Ok E context S x) :
    SameValues E context xs (withoutDuplicates (sortExpr E xs)) ∧
    ∀ x ∈ withoutDuplicates (sortExpr E xs), Ok E context S x := by
  have hsorted : ∀ x ∈ sortExpr E xs, Ok E context S x := fun x hx =>
    hxs x (mem_sortExpr.mp hx)
  exact ⟨(sameValues_of_mem_iff fun x => mem_sortExpr).trans
    (sameValues_withoutDuplicates halike hsorted),
    fun x hx => hsorted x (mem_of_mem_withoutDuplicates hx)⟩

end

variable (E context S) in
/-- A negation that keeps to the atoms and is the opposite. -/
def Negates (negate : ContextKeyExpression → ContextKeyExpression) : Prop :=
  ∀ x, Ok E context S x →
    Ok E context S (negate x) ∧ evaluate E context (negate x) = !evaluate E context x

section

variable (halike : ∀ a b, S a → S b → a.equals b = true → a.evaluate E context = b.evaluate E
  context)
include halike

variable (hneg : Negates E context S negate)
include hneg

variable (hxs : ∀ x ∈ xs, Ok E context S x)
include hxs

variable (h : hasComplement negate xs = true)
include h

theorem opposite_of_hasComplement :
    ∃ x ∈ xs, ∃ y ∈ xs, evaluate E context y = !evaluate E context x := by
  induction xs with
  | nil => cases h
  | cons a rest ih =>
    obtain ⟨ha, hrest⟩ := forall_mem_cons.mp hxs
    rw [hasComplement, Bool.or_eq_true, any_eq_true] at h
    rcases h with ⟨b, hb, heq⟩ | h
    · obtain ⟨hok, hval⟩ := hneg a ha
      refine ⟨a, mem_cons_self, b, mem_cons_of_mem _ hb, ?_⟩
      rw [← hval, evaluate_eq_of_equals halike hok.over (hrest b hb).over heq]
    · obtain ⟨x, hx, y, hy, hval⟩ := ih hrest h
      exact ⟨x, mem_cons_of_mem _ hx, y, mem_cons_of_mem _ hy, hval⟩

theorem all_eq_false_of_hasComplement : xs.all (evaluate E context) = false := by
  obtain ⟨x, hx, y, hy, hval⟩ := opposite_of_hasComplement halike hneg hxs h
  rw [all_eq_false]
  cases hv : evaluate E context x with
  | false => exact ⟨x, hx, by simp [hv]⟩
  | true => exact ⟨y, hy, by simp [hval, hv]⟩

theorem any_eq_true_of_hasComplement : xs.any (evaluate E context) = true := by
  obtain ⟨x, hx, y, hy, hval⟩ := opposite_of_hasComplement halike hneg hxs h
  rw [any_eq_true]
  cases hv : evaluate E context x with
  | true => exact ⟨x, hx, hv⟩
  | false => exact ⟨y, hy, by simp [hval, hv]⟩

end

/-- What the first loop of `_normalizeArr` makes of the operands, by their meaning. -/
structure Gathers (S : Atom → Prop) (E : Engine) (context : Context)
    (meaning : List ContextKeyExpression → Bool) (arr : List (Option ContextKeyExpression))
    (r : List ContextKeyExpression × Bool) : Prop where
  ok : ∀ e ∈ r.1, Ok E context S e
  same : meaning r.1 = meaning arr.reduceOption
  empty : r.1 = [] → r.2 = false → arr.reduceOption = []

theorem operandsOfAnd_spec (harr : ∀ e ∈ arr.reduceOption, Ok E context S e) :
    (operandsOfAnd arr = none ∧ arr.reduceOption ≠ [] ∧
    arr.reduceOption.all (evaluate E context) = false) ∨ ∃ r, operandsOfAnd arr = some r ∧
    Gathers S E context (fun xs => xs.all (evaluate E context)) arr r := by
  induction arr with
  | nil => exact .inr ⟨([], false), rfl, by simp, rfl, fun _ _ => rfl⟩
  | cons o arr ih =>
    cases o with
    | none =>
      rcases ih harr with ⟨hnone, hne, hall⟩ | ⟨r, hr, hok, hsame, hempty⟩
      · exact .inl ⟨hnone, hne, hall⟩
      · exact .inr ⟨r, hr, hok, hsame, hempty⟩
    | some e =>
      rw [reduceOption_cons_of_some] at harr ⊢
      obtain ⟨he, harr⟩ := forall_mem_cons.mp harr
      rcases ih harr with ⟨hnone, hne, hall⟩ | ⟨r, hr, hok, hsame, hempty⟩
      · refine .inl ⟨?_, cons_ne_nil _ _, by rw [all_cons, hall, Bool.and_false]⟩
        cases e <;> simp [operandsOfAnd, hnone]
      · cases e with
        | falseExpr => exact .inl ⟨rfl, cons_ne_nil _ _, rfl⟩
        | trueExpr =>
          refine .inr ⟨(r.1, true), by simp [operandsOfAnd, hr], hok, ?_,
            fun _ h => by cases h⟩
          rw [reduceOption_cons_of_some, all_cons, ← hsame]
          rfl
        | atom a =>
          refine .inr ⟨(atom a :: r.1, r.2), by simp [operandsOfAnd, hr],
            forall_mem_cons.mpr ⟨he, hok⟩, ?_, fun h => by cases h⟩
          rw [reduceOption_cons_of_some, all_cons, all_cons, ← hsame]
        | orExpr xs n =>
          refine .inr ⟨(orExpr xs n :: r.1, r.2), by simp [operandsOfAnd, hr],
            forall_mem_cons.mpr ⟨he, hok⟩, ?_, fun h => by cases h⟩
          rw [reduceOption_cons_of_some, all_cons, all_cons, ← hsame]
        | andExpr xs n =>
          cases he with
          | andExpr hne hxs _ _ =>
            refine .inr ⟨(xs ++ r.1, r.2), by simp [operandsOfAnd, hr],
              forall_mem_append.mpr ⟨hxs, hok⟩, ?_,
              fun h => absurd (append_eq_nil_iff.mp h).1 hne⟩
            rw [reduceOption_cons_of_some, all_cons, all_append, evaluate_andExpr, ← hsame]

theorem operandsOfOr_spec (harr : ∀ e ∈ arr.reduceOption, Ok E context S e) :
    (operandsOfOr arr = none ∧ arr.reduceOption ≠ [] ∧
    arr.reduceOption.any (evaluate E context) = true) ∨ ∃ r, operandsOfOr arr = some r ∧
    Gathers S E context (fun xs => xs.any (evaluate E context)) arr r := by
  induction arr with
  | nil => exact .inr ⟨([], false), rfl, by simp, rfl, fun _ _ => rfl⟩
  | cons o arr ih =>
    cases o with
    | none =>
      rcases ih harr with ⟨hnone, hne, hany⟩ | ⟨r, hr, hok, hsame, hempty⟩
      · exact .inl ⟨hnone, hne, hany⟩
      · exact .inr ⟨r, hr, hok, hsame, hempty⟩
    | some e =>
      rw [reduceOption_cons_of_some] at harr ⊢
      obtain ⟨he, harr⟩ := forall_mem_cons.mp harr
      rcases ih harr with ⟨hnone, hne, hany⟩ | ⟨r, hr, hok, hsame, hempty⟩
      · refine .inl ⟨?_, cons_ne_nil _ _, by rw [any_cons, hany, Bool.or_true]⟩
        cases e <;> simp [operandsOfOr, hnone]
      · cases e with
        | trueExpr => exact .inl ⟨rfl, cons_ne_nil _ _, rfl⟩
        | falseExpr =>
          refine .inr ⟨(r.1, true), by simp [operandsOfOr, hr], hok, ?_,
            fun _ h => by cases h⟩
          rw [reduceOption_cons_of_some, any_cons, ← hsame]
          rfl
        | atom a =>
          refine .inr ⟨(atom a :: r.1, r.2), by simp [operandsOfOr, hr],
            forall_mem_cons.mpr ⟨he, hok⟩, ?_, fun h => by cases h⟩
          rw [reduceOption_cons_of_some, any_cons, any_cons, ← hsame]
        | andExpr xs n =>
          refine .inr ⟨(andExpr xs n :: r.1, r.2), by simp [operandsOfOr, hr],
            forall_mem_cons.mpr ⟨he, hok⟩, ?_, fun h => by cases h⟩
          rw [reduceOption_cons_of_some, any_cons, any_cons, ← hsame]
        | orExpr xs n =>
          cases he with
          | orExpr hne hxs _ _ =>
            refine .inr ⟨(xs ++ r.1, r.2), by simp [operandsOfOr, hr],
              forall_mem_append.mpr ⟨hxs, hok⟩, ?_,
              fun h => absurd (append_eq_nil_iff.mp h).1 hne⟩
            rw [reduceOption_cons_of_some, any_cons, any_append, evaluate_orExpr, ← hsame]

/-- A `create` of conjunctions or of disjunctions keeps the meaning of the operands, and
returns nothing only if there are none. -/
def Creates (E : Engine) (context : Context) (S : Atom → Prop)
    (meaning : List ContextKeyExpression → Bool)
    (create : List (Option ContextKeyExpression) → Option ContextKeyExpression → Bool →
      Option ContextKeyExpression) : Prop :=
  ∀ arr negated extraRedundantCheck, (∀ e ∈ arr.reduceOption, Ok E context S e) →
    (∀ n ∈ negated, Ok E context S n ∧
      evaluate E context n = !meaning arr.reduceOption) →
    (create arr negated extraRedundantCheck = none ∧ arr.reduceOption = []) ∨
      ∃ r, create arr negated extraRedundantCheck = some r ∧ Ok E context S r ∧
        evaluate E context r = meaning arr.reduceOption

theorem normalizeOr_spec
    (halike : ∀ a b, S a → S b → a.equals b = true → a.evaluate E context = b.evaluate E context)
    (hneg : Negates E context S negate) :
    Creates E context S (fun xs => xs.any (evaluate E context)) (normalizeOr E negate) := by
  intro arr negated extraRedundantCheck harr hnegated
  rw [normalizeOr]
  rcases operandsOfOr_spec harr with ⟨hnone, hne, hany⟩ | ⟨⟨expr, hasFalse⟩, hr, hok, hsame, hempty⟩
  · rw [hnone]
    exact .inr ⟨trueExpr, rfl, .trueExpr, hany.symm⟩
  · rw [hr]
    simp only at hok hsame hempty ⊢
    split
    · next hfalse =>
        refine .inr ⟨falseExpr, rfl, .falseExpr, ?_⟩
        rw [← hsame, hfalse.1]
        rfl
    · next hfalse =>
        obtain ⟨hvalues, hnormal⟩ := sameValues_normal halike hok
        rw [← hvalues.any_eq] at hsame
        split
        · next hnil =>
            have hexpr : expr = [] := by
              cases expr with
              | nil => rfl
              | cons x xs =>
                obtain ⟨y, hy, -⟩ := hvalues.1 x mem_cons_self
                rw [hnil] at hy
                cases hy
            refine .inl ⟨rfl, hempty hexpr ?_⟩
            simpa [hexpr] using hfalse
        · next e hone =>
            rw [hone] at hsame hnormal
            refine .inr ⟨e, rfl, hnormal e mem_cons_self, ?_⟩
            simpa using hsame
        · next e e' rest hmany =>
            rw [hmany] at hsame hnormal
            split
            · next hcomplement =>
                refine .inr ⟨trueExpr, rfl, .trueExpr, ?_⟩
                rw [Bool.and_eq_true] at hcomplement
                rw [← hsame, any_eq_true_of_hasComplement halike hneg hnormal hcomplement.2]
                rfl
            · refine .inr ⟨_, rfl, .orExpr (cons_ne_nil _ _) hnormal
                (fun n hn => (hnegated n hn).1) (fun n hn => ?_), ?_⟩
              · rw [(hnegated n hn).2, hsame]
              · rw [evaluate_orExpr, hsame]

theorem reduceOption_map_spec
    {f : ContextKeyExpression → Option ContextKeyExpression} {v : Bool} (h : ∀ x ∈ xs,
    ∃ r, f x = some r ∧ Ok E context S r ∧ evaluate E context r = (evaluate E context x && v)) :
    (∀ e ∈ (xs.map f).reduceOption, Ok E context S e) ∧ (xs.map f).reduceOption.length = xs.length ∧
    (xs.map f).reduceOption.any (evaluate E context) = (xs.any (evaluate E context) && v) := by
  induction xs with
  | nil => simp [List.reduceOption]
  | cons x xs ih =>
    obtain ⟨⟨r, hr, hok, hval⟩, hxs⟩ := forall_mem_cons.mp h
    obtain ⟨hoks, hlen, hany⟩ := ih hxs
    rw [map_cons, hr, reduceOption_cons_of_some]
    refine ⟨forall_mem_cons.mpr ⟨hok, hoks⟩, by simp [hlen], ?_⟩
    rw [any_cons, any_cons, hval, hany, Bool.and_or_distrib_right]

variable {or : List (Option ContextKeyExpression) → Bool → Option ContextKeyExpression}
  {and : List (Option ContextKeyExpression) → Option ContextKeyExpression}

theorem distribute_spec
    (hand : ∀ a b, Ok E context S a → Ok E context S b → ∃ r, and [some a, some b] = some r ∧
    Ok E context S r ∧ evaluate E context r = (evaluate E context a && evaluate E context b))
    (hor : ∀ arr isFinished, (∀ e ∈ arr.reduceOption, Ok E context S e) → arr.reduceOption ≠ [] →
    ∃ r, or arr isFinished = some r ∧ Ok E context S r ∧ evaluate E context r =
    arr.reduceOption.any (evaluate E context)) (rounds : Nat) {expr : List ContextKeyExpression}
    (hok : ∀ e ∈ expr, Ok E context S e) : (∀ e ∈ distribute E and or rounds expr,
    Ok E context S e) ∧ (expr ≠ [] → distribute E and or rounds expr ≠ []) ∧
    (distribute E and or rounds expr).all (evaluate E context) = expr.all (evaluate E context) := by
  induction rounds generalizing expr with
  | zero => exact ⟨hok, id, rfl⟩
  | succ rounds ih =>
    rw [distribute]
    split
    · next xs n second rest hrev =>
        obtain rfl : expr = (orExpr xs n :: second :: rest).reverse := by
          rw [← hrev, reverse_reverse]
        have hok' : ∀ e ∈ orExpr xs n :: second :: rest, Ok E context S e := fun e he =>
          hok e (mem_reverse.mpr he)
        obtain ⟨hlast, hok'⟩ := forall_mem_cons.mp hok'
        obtain ⟨hsecond, hrest⟩ := forall_mem_cons.mp hok'
        cases hlast with
        | orExpr hne hxs _ _ =>
          obtain ⟨hoks, hlen, hany⟩ := reduceOption_map_spec
            fun el hel => hand el second (hxs el hel) hsecond
          have hne' : (xs.map fun el => and [some el, some second]).reduceOption ≠ [] := by
            rw [← length_pos_iff, hlen, length_pos_iff]
            exact hne
          obtain ⟨result, hresult, hokr, hval⟩ := hor _ rest.isEmpty hoks hne'
          simp only [hresult]
          have hnext : ∀ e ∈ sortExpr E (rest.reverse ++ [result]), Ok E context S e := by
            intro e he
            rcases List.mem_append.mp (mem_sortExpr.mp he) with he | he
            · exact hrest e (mem_reverse.mp he)
            · rwa [mem_singleton.mp he]
          obtain ⟨hok₂, hne₂, hall⟩ := ih hnext
          have hsorted : SameValues E context (rest.reverse ++ [result])
            (sortExpr E (rest.reverse ++ [result])) := sameValues_of_mem_iff fun _ => mem_sortExpr
          refine ⟨hok₂, fun _ => hne₂ ?_, ?_⟩
          · exact ne_nil_of_mem (mem_sortExpr.mpr (mem_append_right _ mem_cons_self))
          rw [hall, hsorted.all_eq]
          simp only [reverse_cons, all_append, all_cons, all_nil,
            Bool.and_true, hval, hany, evaluate_orExpr, Bool.and_assoc]
          rw [Bool.and_comm (evaluate E context second)]
    · exact ⟨hok, id, rfl⟩

theorem normalizeAnd_spec
    (halike : ∀ a b, S a → S b → a.equals b = true → a.evaluate E context = b.evaluate E context)
    (hand : ∀ a b, Ok E context S a → Ok E context S b → ∃ r, and [some a, some b] = some r ∧
    Ok E context S r ∧ evaluate E context r = (evaluate E context a && evaluate E context b))
    (hor : ∀ arr isFinished, (∀ e ∈ arr.reduceOption, Ok E context S e) → arr.reduceOption ≠ [] →
    ∃ r, or arr isFinished = some r ∧ Ok E context S r ∧ evaluate E context r =
    arr.reduceOption.any (evaluate E context)) (hneg : Negates E context S negate)
    {negated : Option ContextKeyExpression} (extraRedundantCheck : Bool)
    (harr : ∀ e ∈ arr.reduceOption, Ok E context S e) (hnegated : ∀ n ∈ negated,
    Ok E context S n ∧ evaluate E context n = !arr.reduceOption.all (evaluate E context)) :
    (normalizeAnd E and or negate arr negated extraRedundantCheck = none ∧ arr.reduceOption = []) ∨
    ∃ r, normalizeAnd E and or negate arr negated extraRedundantCheck = some r ∧
    Ok E context S r ∧ evaluate E context r = arr.reduceOption.all (evaluate E context) := by
  rw [normalizeAnd]
  rcases operandsOfAnd_spec harr with ⟨hnone, hne, hall⟩ | ⟨⟨expr, hasTrue⟩, hr, hok, hsame, hempty⟩
  · rw [hnone]
    exact .inr ⟨falseExpr, rfl, .falseExpr, hall.symm⟩
  · rw [hr]
    simp only at hok hsame hempty ⊢
    split
    · next htrue =>
        refine .inr ⟨trueExpr, rfl, .trueExpr, ?_⟩
        rw [← hsame, htrue.1]
        rfl
    · next htrue =>
        obtain ⟨hvalues, hnormal⟩ := sameValues_normal halike hok
        rw [← hvalues.all_eq] at hsame
        split
        · next hnil =>
            have hexpr : expr = [] := by
              cases expr with
              | nil => rfl
              | cons x xs =>
                obtain ⟨y, hy, -⟩ := hvalues.1 x mem_cons_self
                rw [hnil] at hy
                cases hy
            refine .inl ⟨rfl, hempty hexpr ?_⟩
            simpa [hexpr] using htrue
        · next e hone =>
            rw [hone] at hsame hnormal
            refine .inr ⟨e, rfl, hnormal e mem_cons_self, ?_⟩
            simpa using hsame
        · next e e' rest hmany =>
            rw [hmany] at hsame hnormal
            obtain ⟨hokd, hned, halld⟩ := distribute_spec hand hor (rest.length + 2) hnormal
            rw [← halld] at hsame
            split
            · next f hf =>
                rw [hf] at hsame hokd
                refine .inr ⟨f, rfl, hokd f mem_cons_self, ?_⟩
                simpa using hsame
            · next ds hds =>
                split
                · next hcomplement =>
                    refine .inr ⟨falseExpr, rfl, .falseExpr, ?_⟩
                    rw [Bool.and_eq_true] at hcomplement
                    rw [← hsame, all_eq_false_of_hasComplement halike hneg hokd hcomplement.2]
                    rfl
                · refine .inr ⟨_, rfl, .andExpr (hned (cons_ne_nil _ _)) hokd
                    (fun n hn => (hnegated n hn).1) (fun n hn => ?_), ?_⟩
                  · rw [(hnegated n hn).2, hsame]
                  · rw [evaluate_andExpr, hsame]

theorem negateAll_eq (constants : JsString → Option Bool)
    (and : List (Option ContextKeyExpression) → Option ContextKeyExpression)
    (or : List (Option ContextKeyExpression) → Option ContextKeyExpression →
    Bool → Option ContextKeyExpression) (xs : List ContextKeyExpression) :
    negateAll E constants and or xs = xs.map (negateWith E constants and or) := by
  induction xs with
  | nil => rfl
  | cons x xs ih => rw [negateAll, ih, map_cons]

theorem reduceOption_map_some (xs : List ContextKeyExpression) :
    (xs.map some).reduceOption = xs := by
  induction xs with
  | nil => rfl
  | cons x xs ih => rw [map_cons, reduceOption_cons_of_some, ih]

theorem map_opposite {f : ContextKeyExpression → ContextKeyExpression}
    (h : ∀ x ∈ xs, evaluate E context (f x) = !evaluate E context x) :
    (xs.map f).any (evaluate E context) = (!xs.all (evaluate E context)) ∧
    (xs.map f).all (evaluate E context) = !xs.any (evaluate E context) := by
  induction xs with
  | nil => exact ⟨rfl, rfl⟩
  | cons x xs ih =>
    obtain ⟨hx, hxs⟩ := forall_mem_cons.mp h
    obtain ⟨hany, hall⟩ := ih hxs
    simp only [map_cons, any_cons, all_cons, hx, hany, hall, Bool.not_and, Bool.not_or, and_self]

theorem getTerminals_spec {e : ContextKeyExpression} (he : Ok E context S e) :
    getTerminals e ≠ [] ∧ (∀ t ∈ getTerminals e, Ok E context S t) ∧
      (getTerminals e).any (evaluate E context) = evaluate E context e := by
  cases he with
  | orExpr hne hxs _ _ => exact ⟨hne, hxs, (evaluate_orExpr _ _).symm⟩
  | falseExpr => exact ⟨cons_ne_nil _ _, by simpa [getTerminals] using .falseExpr, by
      simp [getTerminals]⟩
  | trueExpr => exact ⟨cons_ne_nil _ _, by simpa [getTerminals] using .trueExpr, by
      simp [getTerminals]⟩
  | atom h => exact ⟨cons_ne_nil _ _, by simpa [getTerminals] using .atom h, by
      simp [getTerminals]⟩
  | andExpr hne hxs hc ho => exact ⟨cons_ne_nil _ _, by
      simpa [getTerminals] using .andExpr hne hxs hc ho, by simp [getTerminals]⟩

section Negation

variable {and : List (Option ContextKeyExpression) → Option ContextKeyExpression}
  {or : List (Option ContextKeyExpression) → Option ContextKeyExpression → Bool →
    Option ContextKeyExpression}
  (hand : Creates E context S (fun xs => xs.all (evaluate E context)) fun arr _ _ => and arr)
  (hor : Creates E context S (fun xs => xs.any (evaluate E context)) or)
include hand hor

theorem distributeTerminals_spec {left right : ContextKeyExpression} (hl : Ok E context S left)
    (hr : Ok E context S right) : Ok E context S (distributeTerminals and or left right) ∧
    evaluate E context (distributeTerminals and or left right) =
    (evaluate E context left && evaluate E context right) := by
  obtain ⟨hlne, hlok, hlany⟩ := getTerminals_spec hl
  obtain ⟨hrne, hrok, hrany⟩ := getTerminals_spec hr
  have hpair : ∀ l ∈ getTerminals left, ∀ r ∈ getTerminals right,
      ∃ e, and [some l, some r] = some e ∧ Ok E context S e ∧
        evaluate E context e = (evaluate E context l && evaluate E context r) := by
    intro l hl r hr
    rcases hand [some l, some r] none false
      (by simpa [List.reduceOption] using ⟨hlok l hl, hrok r hr⟩) (by simp) with
      ⟨-, hnil⟩ | ⟨e, he, hok, hval⟩
    · cases hnil
    · exact ⟨e, he, hok, by simpa [List.reduceOption] using hval⟩
  rw [distributeTerminals]
  generalize harr : ((getTerminals left).flatMap fun l =>
    (getTerminals right).map fun r => and [some l, some r]) = arr
  have hmem : ∀ e, e ∈ arr.reduceOption ↔ ∃ l ∈ getTerminals left,
      ∃ r ∈ getTerminals right, and [some l, some r] = some e := by
    intro e
    rw [reduceOption_mem_iff, ← harr]
    simp only [mem_flatMap, mem_map]
  have hok : ∀ e ∈ arr.reduceOption, Ok E context S e := by
    intro e he
    obtain ⟨l, hl, r, hr, heq⟩ := (hmem e).mp he
    obtain ⟨e', he', hok, -⟩ := hpair l hl r hr
    rw [he'] at heq
    exact Option.some_inj.mp heq ▸ hok
  have hany : arr.reduceOption.any (evaluate E context) =
      (evaluate E context left && evaluate E context right) := by
    rw [← hlany, ← hrany, Bool.eq_iff_iff, Bool.and_eq_true, any_eq_true, any_eq_true, any_eq_true]
    constructor
    · rintro ⟨e, he, hval⟩
      obtain ⟨l, hl, r, hr, heq⟩ := (hmem e).mp he
      obtain ⟨e', he', -, hval'⟩ := hpair l hl r hr
      rw [he'] at heq
      rw [← Option.some_inj.mp heq, hval', Bool.and_eq_true] at hval
      exact ⟨⟨l, hl, hval.1⟩, ⟨r, hr, hval.2⟩⟩
    · rintro ⟨⟨l, hl, hvl⟩, ⟨r, hr, hvr⟩⟩
      obtain ⟨e, he, -, hval⟩ := hpair l hl r hr
      exact ⟨e, (hmem e).mpr ⟨l, hl, r, hr, he⟩, by rw [hval, hvl, hvr]; rfl⟩
  have hne : arr.reduceOption ≠ [] := by
    obtain ⟨l, hl⟩ := exists_mem_of_ne_nil _ hlne
    obtain ⟨r, hr⟩ := exists_mem_of_ne_nil _ hrne
    obtain ⟨e, he, -⟩ := hpair l hl r hr
    exact ne_nil_of_mem ((hmem e).mpr ⟨l, hl, r, hr, he⟩)
  rcases hor arr none false hok (by simp) with ⟨-, hnil⟩ | ⟨e, he, hoke, hval⟩
  · exact absurd hnil hne
  · rw [he]
    exact ⟨hoke, hval.trans hany⟩

theorem foldl_distributeTerminals_spec {xs : List ContextKeyExpression}
    (hxs : ∀ x ∈ xs, Ok E context S x) {e : ContextKeyExpression} (he : Ok E context S e) :
    Ok E context S (xs.foldl (distributeTerminals and or) e) ∧ evaluate E context (xs.foldl
    (distributeTerminals and or) e) = (evaluate E context e && xs.all (evaluate E context)) := by
  induction xs generalizing e with
  | nil => exact ⟨he, by simp⟩
  | cons x xs ih =>
    obtain ⟨hx, hxs⟩ := forall_mem_cons.mp hxs
    obtain ⟨hok, hval⟩ := distributeTerminals_spec hand hor he hx
    obtain ⟨hok', hval'⟩ := ih hxs hok
    refine ⟨hok', ?_⟩
    rw [foldl_cons, hval', hval, all_cons, Bool.and_assoc]

theorem negateWith_spec (hcoherent : Coherent E constants context S) :
    Negates E context S (negateWith E constants and or) := by
  intro x hx
  induction hx with
  | falseExpr => exact ⟨.trueExpr, rfl⟩
  | trueExpr => exact ⟨.falseExpr, rfl⟩
  | atom ha => exact ⟨hcoherent.negate _ ha, hcoherent.opposite _ ha⟩
  | @andExpr xs negated hne hxs hc ho ih _ =>
    cases negated with
    | some n => exact ⟨hc n rfl, by rw [negateWith, ho n rfl, evaluate_andExpr]⟩
    | none =>
      have hself : Ok E context S (andExpr xs none) := .andExpr hne hxs hc ho
      have hnegs : ∀ e ∈ xs.map (negateWith E constants and or), Ok E context S e := by
        intro e he
        obtain ⟨x, hx, rfl⟩ := mem_map.mp he
        exact (ih x hx).1
      have hany : (xs.map (negateWith E constants and or)).any (evaluate E context) =
          !xs.all (evaluate E context) := by
        exact (map_opposite fun x hx => (ih x hx).2).1
      rw [negateWith, negateAll_eq]
      rcases hor ((xs.map (negateWith E constants and or)).map some) (some (andExpr xs none))
          true (by rwa [reduceOption_map_some]) (by
            rintro n hn
            obtain rfl := Option.some_inj.mp hn
            refine ⟨hself, ?_⟩
            beta_reduce
            rw [reduceOption_map_some, hany, Bool.not_not, evaluate_andExpr]) with
        ⟨-, hnil⟩ | ⟨r, hr, hok, hval⟩
      · rw [reduceOption_map_some, map_eq_nil_iff] at hnil
        exact absurd hnil hne
      · rw [hr]
        refine ⟨hok, ?_⟩
        beta_reduce at hval
        rw [Option.getD_some, hval, reduceOption_map_some, hany, evaluate_andExpr]
  | @orExpr xs negated hne hxs hc ho ih _ =>
    cases negated with
    | some n => exact ⟨hc n rfl, by rw [negateWith, ho n rfl, evaluate_orExpr]⟩
    | none =>
      have hself : Ok E context S (orExpr xs none) := .orExpr hne hxs hc ho
      have hnegs : ∀ e ∈ xs.map (negateWith E constants and or), Ok E context S e := by
        intro e he
        obtain ⟨x, hx, rfl⟩ := mem_map.mp he
        exact (ih x hx).1
      have hall : (xs.map (negateWith E constants and or)).all (evaluate E context) =
          !xs.any (evaluate E context) := by
        exact (map_opposite fun x hx => (ih x hx).2).2
      rw [negateWith, negateAll_eq]
      cases hmap : xs.map (negateWith E constants and or) with
      | nil => exact absurd (map_eq_nil_iff.mp hmap) hne
      | cons e rest =>
        rw [hmap] at hnegs hall
        obtain ⟨he, hrest⟩ := forall_mem_cons.mp hnegs
        obtain ⟨hok, hval⟩ := foldl_distributeTerminals_spec hand hor hrest he
        rw [all_cons] at hall
        simp only
        rcases hor [some (rest.foldl (distributeTerminals and or) e)]
            (some (orExpr xs none)) true (by simpa [List.reduceOption] using hok) (by
              rintro n hn
              obtain rfl := Option.some_inj.mp hn
              refine ⟨hself, ?_⟩
              simp only [List.reduceOption, filterMap_cons, id, filterMap_nil,
                any_cons, any_nil, Bool.or_false]
              rw [hval, hall, Bool.not_not, evaluate_orExpr]) with
          ⟨-, hnil⟩ | ⟨r, hr, hok', hval'⟩
        · cases hnil
        · rw [hr]
          refine ⟨hok', ?_⟩
          rw [Option.getD_some, hval', evaluate_orExpr, ← hall, ← hval]
          simp [List.reduceOption]

end Negation

theorem create_spec (hcoherent : Coherent E constants context S) (depth : Nat) :
    Creates E context S (fun xs => xs.all (evaluate E context)) (createAnd E constants depth) ∧
    Creates E context S (fun xs => xs.any (evaluate E context)) (createOr E constants depth) := by
  induction depth with
  | zero =>
    constructor
    · intro arr negated extraRedundantCheck harr hnegated
      rw [createAnd]
      split
      · next hnil => exact .inl ⟨rfl, hnil⟩
      · next hne => exact .inr ⟨_, rfl, .andExpr hne harr (fun n hn => (hnegated n hn).1)
          (fun n hn => (hnegated n hn).2), evaluate_andExpr _ _⟩
    · intro arr negated extraRedundantCheck harr hnegated
      rw [createOr]
      split
      · next hnil => exact .inl ⟨rfl, hnil⟩
      · next hne => exact .inr ⟨_, rfl, .orExpr hne harr (fun n hn => (hnegated n hn).1)
          (fun n hn => (hnegated n hn).2), evaluate_orExpr _ _⟩
  | succ depth ih =>
    obtain ⟨hand, hor⟩ := ih
    have hneg := negateWith_spec (fun arr _ _ harr _ => hand arr none false harr (by simp)) hor
      hcoherent
    constructor
    · intro arr negated extraRedundantCheck harr hnegated
      rw [createAnd]
      refine normalizeAnd_spec hcoherent.alike ?_ ?_ hneg extraRedundantCheck harr hnegated
      · intro a b ha hb
        rcases hand [some a, some b] none extraRedundantCheck
          (by simpa [List.reduceOption] using ⟨ha, hb⟩) (by simp) with
          ⟨-, hnil⟩ | ⟨r, hr, hok, hval⟩
        · cases hnil
        · exact ⟨r, hr, hok, by simpa [List.reduceOption] using hval⟩
      · intro arr isFinished harr hne
        exact (hor arr none isFinished harr (by simp)).resolve_left fun h => hne h.2
    · intro arr negated extraRedundantCheck harr hnegated
      rw [createOr]
      exact normalizeOr_spec hcoherent.alike hneg arr negated extraRedundantCheck harr hnegated

end Meaning

end CodeOss.ContextKeys
