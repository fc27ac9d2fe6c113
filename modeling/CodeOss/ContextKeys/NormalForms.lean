import CodeOss.ContextKeys.ExpressionOrder
import CodeOss.ContextKeys.Implication

/-! Normalisation makes normal forms: of disjunctions always, and of conjunctions as long as the
distribution takes up every disjunction. Negations of normal forms are normal forms. -/

namespace CodeOss.ContextKeys

open ContextKeyExpression SortedInclusion List

section Distribution

variable (E : Engine) (constants : JsString → Option Bool)

def isOr : ContextKeyExpression → Bool
  | orExpr _ _ => true
  | _ => false

/-- The rounds of `distribute` go through: no disjunction is left in front of another element,
and a round that leaves other elements makes a disjunction. -/
def distributesAll (goes : List (Option ContextKeyExpression) → Bool)
    (and : List (Option ContextKeyExpression) → Option ContextKeyExpression)
    (or : List (Option ContextKeyExpression) → Bool → Option ContextKeyExpression) :
    Nat → List ContextKeyExpression → Bool
  | 0, _ => false
  | rounds + 1, expr =>
    match expr.reverse with
    | orExpr xs _ :: secondToLastElement :: rest =>
      (xs.all fun el => goes [some el, some secondToLastElement]) &&
        match or (xs.map fun el => and [some el, some secondToLastElement]) rest.isEmpty with
        | some (orExpr ys n) =>
          distributesAll goes and or rounds (sortExpr E (rest.reverse ++ [orExpr ys n]))
        | some _ => rest.isEmpty
        | none => false
    | [_] => true
    | _ => expr.all fun e => !isOr e

/-- The distribution goes through in `createAnd`, and in the conjunctions made on the way. -/
def goesWell : Nat → List (Option ContextKeyExpression) → Bool → Bool
  | 0, _, _ => false
  | depth + 1, arr, extraRedundantCheck =>
    match operandsOfAnd arr with
    | none => true
    | some (expr, _) =>
      match withoutDuplicates (sortExpr E expr) with
      | e :: e' :: rest =>
        distributesAll E (fun arr => goesWell depth arr extraRedundantCheck)
          (fun arr => createAnd E constants depth arr none extraRedundantCheck)
          (fun arr isFinished => createOr E constants depth arr none isFinished)
          (rest.length + 2) (e :: e' :: rest)
      | _ => true

/-- A normal form all of whose cached negations are normal forms. -/
inductive Tidy (S : Atom → Prop) : ContextKeyExpression → Prop
  | falseExpr : Tidy S falseExpr
  | trueExpr : Tidy S trueExpr
  | atom {a : Atom} (h : S a) : Tidy S (atom a)
  | andExpr {as : List Atom} {negated : Option ContextKeyExpression}
      (h : Conjunction E S as (andExpr (as.map ContextKeyExpression.atom) negated))
      (cached : ∀ n ∈ negated, Tidy S n) :
      Tidy S (andExpr (as.map ContextKeyExpression.atom) negated)
  | orExpr {xs : List ContextKeyExpression} {negated : Option ContextKeyExpression}
      (h : Normal E S (orExpr xs negated)) (operands : ∀ x ∈ xs, Tidy S x)
      (cached : ∀ n ∈ negated, Tidy S n) : Tidy S (orExpr xs negated)

end Distribution

section Shape

variable {E : Engine} {constants : JsString → Option Bool} {S : Atom → Prop}
  {e x : ContextKeyExpression} {arr : List (Option ContextKeyExpression)}
  {negated : Option ContextKeyExpression}

theorem Tidy.normal (h : Tidy E S e) : Normal E S e := by
  cases h with
  | falseExpr => exact .falseExpr
  | trueExpr => exact .trueExpr
  | atom h => exact .conjunction (.atom h)
  | andExpr h _ => exact .conjunction h
  | orExpr h _ _ => exact h

theorem Tidy.over (h : Tidy E S e) : Over S e := by
  induction h with
  | falseExpr => exact .falseExpr
  | trueExpr => exact .trueExpr
  | atom h => exact .atom h
  | @andExpr as _ h _ _ =>
    refine .andExpr fun x hx => ?_
    obtain ⟨a, ha, rfl⟩ := mem_map.mp hx
    exact .atom (h.mem a ha)
  | orExpr _ _ _ ih _ => exact .orExpr ih

theorem Tidy.operands_orExpr {xs : List ContextKeyExpression}
    (h : Tidy E S (ContextKeyExpression.orExpr xs negated)) :
    2 ≤ xs.length ∧ ∀ x ∈ xs, Tidy E S x ∧ ∃ as, Conjunction E S as x := by
  cases h with
  | orExpr h operands _ =>
    cases h with
    | conjunction h => cases h
    | orExpr many hconj _ => exact ⟨many, fun x hx => ⟨operands x hx, hconj x hx⟩⟩

variable {r : List ContextKeyExpression × Bool}

theorem tidy_operandsOfAnd
    (harr : ∀ e ∈ arr.reduceOption, Tidy E S e) (hr : operandsOfAnd arr = some r) :
    ∀ x ∈ r.1, Tidy E S x ∧ (Term S x ∨ isOr x = true ∧ x ∈ arr.reduceOption) := by
  induction arr generalizing r with
  | nil =>
    cases hr
    exact fun x hx => by cases hx
  | cons o arr ih =>
    cases o with
    | none => exact ih harr hr
    | some e =>
      rw [reduceOption_cons_of_some] at harr ⊢
      obtain ⟨he, hrest⟩ := forall_mem_cons.mp harr
      have hbehind : ∀ r, operandsOfAnd arr = some r → ∀ x ∈ r.1, Tidy E S x ∧
          (Term S x ∨ isOr x = true ∧ x ∈ e :: arr.reduceOption) := fun r hr x hx =>
        (ih hrest hr x hx).imp_right fun h => h.imp_right fun h =>
          ⟨h.1, mem_cons_of_mem _ h.2⟩
      cases he with
      | falseExpr => cases hr
      | trueExpr =>
        obtain ⟨r', hr', rfl⟩ := Option.map_eq_some_iff.mp hr
        exact fun x hx => hbehind r' hr' x hx
      | atom ha =>
        obtain ⟨r', hr', rfl⟩ := Option.map_eq_some_iff.mp hr
        exact forall_mem_cons.mpr ⟨⟨.atom ha, .inl ⟨_, rfl, ha⟩⟩, hbehind r' hr'⟩
      | andExpr h cached =>
        obtain ⟨r', hr', rfl⟩ := Option.map_eq_some_iff.mp hr
        refine forall_mem_append.mpr ⟨fun x hx => ?_, hbehind r' hr'⟩
        obtain ⟨a, ha, rfl⟩ := mem_map.mp hx
        exact ⟨.atom (h.mem a ha), .inl ⟨a, rfl, h.mem a ha⟩⟩
      | orExpr h operands cached =>
        obtain ⟨r', hr', rfl⟩ := Option.map_eq_some_iff.mp hr
        exact forall_mem_cons.mpr
          ⟨⟨.orExpr h operands cached, .inr ⟨rfl, mem_cons_self⟩⟩, hbehind r' hr'⟩

theorem tidy_operandsOfOr
    (harr : ∀ e ∈ arr.reduceOption, Tidy E S e) (hr : operandsOfOr arr = some r) :
    ∀ x ∈ r.1, Tidy E S x ∧ ∃ as, Conjunction E S as x := by
  induction arr generalizing r with
  | nil =>
    cases hr
    exact fun x hx => by cases hx
  | cons o arr ih =>
    cases o with
    | none => exact ih harr hr
    | some e =>
      rw [reduceOption_cons_of_some] at harr
      obtain ⟨he, hrest⟩ := forall_mem_cons.mp harr
      cases he with
      | trueExpr => cases hr
      | falseExpr =>
        obtain ⟨r', hr', rfl⟩ := Option.map_eq_some_iff.mp hr
        exact fun x hx => ih hrest hr' x hx
      | atom ha =>
        obtain ⟨r', hr', rfl⟩ := Option.map_eq_some_iff.mp hr
        exact forall_mem_cons.mpr ⟨⟨.atom ha, _, .atom ha⟩, ih hrest hr'⟩
      | andExpr h cached =>
        obtain ⟨r', hr', rfl⟩ := Option.map_eq_some_iff.mp hr
        exact forall_mem_cons.mpr ⟨⟨.andExpr h cached, _, h⟩, ih hrest hr'⟩
      | orExpr h operands cached =>
        obtain ⟨r', hr', rfl⟩ := Option.map_eq_some_iff.mp hr
        exact forall_mem_append.mpr
          ⟨(Tidy.orExpr h operands cached).operands_orExpr.2, ih hrest hr'⟩

section ToldApart

variable (htold : ToldApart S)
include htold

theorem ascending_normal {xs : List ContextKeyExpression} (hxs : ∀ x ∈ xs, Over S x) :
    Ascending (ContextKeyExpression.cmp E) (withoutDuplicates (sortExpr E xs)) :=
  (ascending_withoutDuplicates (agrees_exprRank htold)
    (fun _ _ ha hb => (exprRank_eq_iff htold ha hb).symm)
    (fun x hx => hxs x (mem_sortExpr.mp hx))
    (pairwise_insertionSort (agrees_exprRank htold) hxs)).1

theorem tidy_normalizeOr (negate : ContextKeyExpression → ContextKeyExpression)
    (extraRedundantCheck : Bool) (harr : ∀ e ∈ arr.reduceOption, Tidy E S e)
    (hnegated : ∀ n ∈ negated, Tidy E S n)
    (hr : normalizeOr E negate arr negated extraRedundantCheck = some e) : Tidy E S e := by
  rw [normalizeOr] at hr
  split at hr
  · cases hr
    exact .trueExpr
  · next expr hasFalse hoperands =>
      have hconj := tidy_operandsOfOr harr hoperands
      have hmem : ∀ x ∈ withoutDuplicates (sortExpr E expr), x ∈ expr := fun x hx =>
        mem_sortExpr.mp (mem_of_mem_withoutDuplicates hx)
      have hasc := @ascending_normal E S htold expr fun x hx => (hconj x hx).1.over
      split at hr
      · cases hr
        exact .falseExpr
      · split at hr
        · cases hr
        · next e' hone =>
            cases hr
            exact (hconj e (hmem e (hone ▸ mem_cons_self))).1
        · next a b rest hmany =>
            rw [hmany] at hmem hasc
            split at hr
            · cases hr
              exact .trueExpr
            · cases hr
              exact .orExpr (.orExpr (by simp) (fun x hx => (hconj x (hmem x hx)).2) hasc)
                (fun x hx => (hconj x (hmem x hx)).1) hnegated

end ToldApart

/-- The distribution ends with one expression, or there was no disjunction to distribute. By
induction on the rounds: after a round that leaves other elements there is one. -/
theorem tidy_distribute {goes : List (Option ContextKeyExpression) → Bool}
    {and : List (Option ContextKeyExpression) → Option ContextKeyExpression}
    {or : List (Option ContextKeyExpression) → Bool → Option ContextKeyExpression} (hand :
    ∀ arr e, goes arr = true → (∀ x ∈ arr.reduceOption, Tidy E S x) → and arr = some e → Tidy E S e)
    (hor : ∀ arr isFinished e, (∃ o, goes o = true) → (∀ x ∈ arr.reduceOption, Tidy E S x) →
    or arr isFinished = some e → Tidy E S e) {rounds : Nat} {expr : List ContextKeyExpression}
    (hexpr : ∀ x ∈ expr, Tidy E S x) (h : distributesAll E goes and or rounds expr = true) :
    (∃ f, distribute E and or rounds expr = [f] ∧ Tidy E S f) ∨
    distribute E and or rounds expr = expr ∧ ∀ x ∈ expr, isOr x = false := by
  have hone : ∀ rounds f, distribute E and or rounds [f] = [f] := by
    intro rounds f
    cases rounds <;> simp [distribute]
  induction rounds generalizing expr with
  | zero => cases h
  | succ rounds ih =>
    rw [distributesAll] at h
    rw [distribute]
    split at h
    · next xs n second rest hrev =>
        obtain rfl : expr = (orExpr xs n :: second :: rest).reverse := by
          rw [← hrev, reverse_reverse]
        obtain ⟨hlast, htidy⟩ := forall_mem_cons.mp fun x hx =>
          hexpr x (mem_reverse.mpr hx)
        obtain ⟨hsecond, hrest⟩ := forall_mem_cons.mp htidy
        obtain ⟨many, hxs⟩ := hlast.operands_orExpr
        rw [Bool.and_eq_true, all_eq_true] at h
        obtain ⟨hgoes, hresult⟩ := h
        have hmade : ∀ x ∈ (xs.map fun el => and [some el, some second]).reduceOption,
            Tidy E S x := by
          intro x hx
          obtain ⟨el, hel, hx⟩ := mem_map.mp (reduceOption_mem_iff.mp hx)
          refine hand _ x (hgoes el hel) ?_ hx
          simpa [List.reduceOption] using ⟨(hxs el hel).1, hsecond⟩
        have hgo : ∃ o, goes o = true := by
          obtain ⟨el, hel⟩ := exists_mem_of_length_pos (by omega : 0 < xs.length)
          exact ⟨_, hgoes el hel⟩
        rw [reverse_reverse]
        simp only
        cases hor' : or (xs.map fun el => and [some el, some second]) rest.isEmpty with
        | none =>
          rw [hor'] at hresult
          cases hresult
        | some result =>
          have hresultTidy := hor _ _ result hgo hmade hor'
          rw [hor'] at hresult
          have hnext : ∀ x ∈ sortExpr E (rest.reverse ++ [result]), Tidy E S x := by
            intro x hx
            rcases List.mem_append.mp (mem_sortExpr.mp hx) with hx | hx
            · exact hrest x (mem_reverse.mp hx)
            · rwa [mem_singleton.mp hx]
          cases hisOr : isOr result with
          | true =>
            have hdist : distributesAll E goes and or rounds
                (sortExpr E (rest.reverse ++ [result])) = true := by
              cases result <;> first | exact hresult | cases hisOr
            refine .inl ((ih hnext hdist).resolve_right fun hc => ?_)
            have hmem : result ∈ sortExpr E (rest.reverse ++ [result]) :=
              mem_sortExpr.mpr (mem_append_right _ mem_cons_self)
            rw [hc.2 result hmem] at hisOr
            cases hisOr
          | false =>
            have hempty : rest = [] := by
              cases result <;> first
                | exact List.isEmpty_iff.mp hresult
                | cases hisOr
            subst hempty
            exact .inl ⟨result, hone rounds result, hresultTidy⟩
    · next f hrev =>
        obtain rfl : expr = [f] := by
          rw [← reverse_reverse expr, hrev]
          rfl
        simp only [reverse_singleton]
        exact .inl ⟨f, rfl, hexpr f mem_cons_self⟩
    · refine .inr ⟨?_, fun x hx => by simpa using all_eq_true.mp h x hx⟩
      split
      · next xs n second rest hrev =>
          have hlast : orExpr xs n ∈ expr := by
            rw [← mem_reverse, hrev]
            exact mem_cons_self
          have := all_eq_true.mp h _ hlast
          cases this
      · rfl

section Conjunctions

variable (htold : ToldApart S)
include htold

theorem tidy_normalizeAnd {goes : List (Option ContextKeyExpression) → Bool}
    {and : List (Option ContextKeyExpression) → Option ContextKeyExpression}
    {or : List (Option ContextKeyExpression) → Bool → Option ContextKeyExpression} (hand :
    ∀ arr e, goes arr = true → (∀ x ∈ arr.reduceOption, Tidy E S x) → and arr = some e → Tidy E S e)
    (hor : ∀ arr isFinished e, (∃ o, goes o = true) → (∀ x ∈ arr.reduceOption, Tidy E S x) →
    or arr isFinished = some e → Tidy E S e) (negate : ContextKeyExpression → ContextKeyExpression)
    (extraRedundantCheck : Bool) (harr : ∀ e ∈ arr.reduceOption, Tidy E S e)
    (hnegated : ∀ n ∈ negated, Tidy E S n) (hgoes : ∀ expr hasTrue e e' rest,
    operandsOfAnd arr = some (expr, hasTrue) → withoutDuplicates (sortExpr E expr) =
    e :: e' :: rest → distributesAll E goes and or (rest.length + 2) (e :: e' :: rest) = true)
    (hr : normalizeAnd E and or negate arr negated extraRedundantCheck = some e) : Tidy E S e := by
  rw [normalizeAnd] at hr
  split at hr
  · cases hr
    exact .falseExpr
  · next expr hasTrue hoperands =>
      have htidy := tidy_operandsOfAnd harr hoperands
      have hmem : ∀ x ∈ withoutDuplicates (sortExpr E expr), x ∈ expr := fun x hx =>
        mem_sortExpr.mp (mem_of_mem_withoutDuplicates hx)
      have hasc := @ascending_normal E S htold expr fun x hx => (htidy x hx).1.over
      split at hr
      · cases hr
        exact .trueExpr
      · split at hr
        · cases hr
        · next e' hone =>
            cases hr
            exact (htidy e (hmem e (hone ▸ mem_cons_self))).1
        · next a b rest hmany =>
            have hgo := hgoes expr hasTrue a b rest hoperands hmany
            rw [hmany] at hmem hasc
            rcases tidy_distribute hand hor (fun x hx => (htidy x (hmem x hx)).1) hgo with
              ⟨f, hf, hok⟩ | ⟨hsame, hatoms⟩
            · rw [hf] at hr
              cases hr
              exact hok
            · rw [hsame] at hr
              simp only at hr
              split at hr
              · cases hr
                exact .falseExpr
              · cases hr
                obtain ⟨cs, hcs, hS⟩ := exists_atoms fun x hx =>
                  (htidy x (hmem x hx)).2.resolve_right fun hc => by
                    rw [hatoms x hx] at hc
                    cases hc.1
                have hlen := congrArg List.length hcs
                simp only [length_cons, length_map] at hlen
                rw [hcs] at hasc ⊢
                refine .andExpr (.andExpr (by omega) hS ?_) hnegated
                exact (pairwise_map.mp hasc).imp fun hab => by
                  rwa [ContextKeyExpression.cmp] at hab

theorem tidy_createOr {depth : Nat} (extraRedundantCheck : Bool)
    (harr : ∀ e ∈ arr.reduceOption, Tidy E S e) (hnegated : ∀ n ∈ negated, Tidy E S n)
    (hr : createOr E constants (depth + 1) arr negated extraRedundantCheck = some e) :
    Tidy E S e := by
  rw [createOr] at hr
  exact tidy_normalizeOr htold _ extraRedundantCheck harr hnegated hr

theorem tidy_createAnd {depth : Nat} {extraRedundantCheck : Bool}
    (harr : ∀ e ∈ arr.reduceOption, Tidy E S e) (hnegated : ∀ n ∈ negated, Tidy E S n)
    (hgoes : goesWell E constants depth arr extraRedundantCheck = true)
    (hr : createAnd E constants depth arr negated extraRedundantCheck = some e) : Tidy E S e := by
  induction depth generalizing arr negated e with
  | zero => cases hgoes
  | succ depth ih =>
    rw [createAnd] at hr
    refine tidy_normalizeAnd htold
      (fun arr e (hgo : goesWell E constants depth arr extraRedundantCheck = true) htidy he =>
        ih htidy (by simp) hgo he)
      (fun arr isFinished e hgo htidy he => ?_) _ extraRedundantCheck harr hnegated
      (fun expr hasTrue a b rest hoperands hmany => ?_) hr
    · obtain ⟨o, ho⟩ := hgo
      cases depth with
      | zero => cases ho
      | succ depth => exact tidy_createOr htold isFinished htidy (by simp) he
    · rw [goesWell, hoperands] at hgoes
      simp only [hmany] at hgoes
      exact hgoes

end Conjunctions

theorem goesWell_of_conjunctions (depth : Nat) (extraRedundantCheck : Bool)
    (harr : ∀ x ∈ arr.reduceOption, Tidy E S x ∧ isOr x = false) :
    goesWell E constants (depth + 1) arr extraRedundantCheck = true := by
  rw [goesWell]
  split
  · rfl
  · next expr hasTrue hoperands =>
      have hterms := tidy_operandsOfAnd (fun x hx => (harr x hx).1) hoperands
      split
      · next a b rest hmany =>
          have hatoms : ∀ x ∈ a :: b :: rest, isOr x = false := by
            intro x hx
            rw [← hmany] at hx
            rcases (hterms x (mem_sortExpr.mp (mem_of_mem_withoutDuplicates hx))).2 with
              ⟨c, rfl, -⟩ | ⟨-, hmem⟩
            · rfl
            · exact (harr x hmem).2
          rw [distributesAll]
          split
          · next xs n second rest' hrev =>
              have hlast : orExpr xs n ∈ a :: b :: rest := by
                rw [← mem_reverse, hrev]
                exact mem_cons_self
              have := hatoms _ hlast
              cases this
          · rfl
          · rw [all_eq_true]
            exact fun x hx => by rw [hatoms x hx]; rfl
      · rfl

theorem tidy_getTerminals (h : Tidy E S e) : ∀ t ∈ getTerminals e, Tidy E S t ∧ isOr t = false := by
  intro t ht
  cases he : isOr e with
  | true =>
    cases e with
    | orExpr xs n =>
      obtain ⟨hok, as, has⟩ := h.operands_orExpr.2 t ht
      exact ⟨hok, by cases has <;> rfl⟩
    | _ => cases he
  | false =>
    have hself : getTerminals e = [e] := by
      cases e <;> first | rfl | cases he
    rw [hself, mem_singleton] at ht
    exact ht ▸ ⟨h, he⟩

section Negation

variable {and : List (Option ContextKeyExpression) → Option ContextKeyExpression}
  {or : List (Option ContextKeyExpression) → Option ContextKeyExpression → Bool →
    Option ContextKeyExpression}
  (hand : ∀ l r e, Tidy E S l ∧ isOr l = false → Tidy E S r ∧ isOr r = false →
    and [some l, some r] = some e → Tidy E S e)
  (hor : ∀ arr negated extraRedundantCheck e, (∀ x ∈ arr.reduceOption, Tidy E S x) →
    (∀ n ∈ negated, Tidy E S n) → or arr negated extraRedundantCheck = some e → Tidy E S e)
include hand hor

theorem tidy_distributeTerminals {left right : ContextKeyExpression} (hl : Tidy E S left)
    (hr : Tidy E S right) : Tidy E S (distributeTerminals and or left right) := by
  rw [distributeTerminals]
  cases h : or ((getTerminals left).flatMap fun l =>
      (getTerminals right).map fun r => and [some l, some r]) none false with
  | none => exact .trueExpr
  | some e =>
    refine hor _ none false e (fun x hx => ?_) (by simp) h
    obtain ⟨l, hl', hx⟩ := mem_flatMap.mp (reduceOption_mem_iff.mp hx)
    obtain ⟨r, hr', hx⟩ := mem_map.mp hx
    exact hand l r x (tidy_getTerminals hl l hl') (tidy_getTerminals hr r hr') hx

theorem tidy_negateWith (hneg : ∀ a, S a → Tidy E S (a.negate constants E))
    (h : Tidy E S e) : Tidy E S (negateWith E constants and or e) := by
  induction h with
  | falseExpr => exact .trueExpr
  | trueExpr => exact .falseExpr
  | atom ha => exact hneg _ ha
  | @andExpr as negated h cached ih =>
    cases negated with
    | some n => exact cached n rfl
    | none =>
      rw [negateWith, negateAll_eq]
      cases hor' : or (((as.map atom).map (negateWith E constants and or)).map some)
          (some (andExpr (as.map atom) none)) true with
      | none => exact .falseExpr
      | some r =>
        refine hor _ _ true r ?_ ?_ hor'
        · rw [reduceOption_map_some]
          intro x hx
          obtain ⟨y, hy, rfl⟩ := mem_map.mp hx
          obtain ⟨a, ha, rfl⟩ := mem_map.mp hy
          exact hneg a (h.mem a ha)
        · rintro n hn
          obtain rfl := Option.some_inj.mp hn
          exact .andExpr h cached
  | @orExpr xs negated h operands cached ih _ =>
    cases negated with
    | some n => exact cached n rfl
    | none =>
      have hfold : ∀ (es : List ContextKeyExpression) (e : ContextKeyExpression),
          Tidy E S e → (∀ x ∈ es, Tidy E S x) →
          Tidy E S (es.foldl (distributeTerminals and or) e) := by
        intro es
        induction es with
        | nil => exact fun e he _ => he
        | cons x es ihes =>
          intro e he hes
          obtain ⟨hx, hes⟩ := forall_mem_cons.mp hes
          exact ihes _ (tidy_distributeTerminals hand hor he hx) hes
      have hnegs : ∀ x ∈ xs.map (negateWith E constants and or), Tidy E S x := by
        intro x hx
        obtain ⟨y, hy, rfl⟩ := mem_map.mp hx
        exact ih y hy
      rw [negateWith, negateAll_eq]
      split
      · exact .trueExpr
      · next e' rest hmap =>
          rw [hmap] at hnegs
          obtain ⟨he, hrest⟩ := forall_mem_cons.mp hnegs
          cases hor' : or [some (rest.foldl (distributeTerminals and or) e')]
              (some (orExpr xs none)) true with
          | none => exact .trueExpr
          | some r =>
            refine hor _ _ true r ?_ ?_ hor'
            · simpa [List.reduceOption] using hfold rest e' he hrest
            · rintro n hn
              obtain rfl := Option.some_inj.mp hn
              exact .orExpr h operands cached

end Negation

theorem tidy_negate (htold : ToldApart S) (depth : Nat)
    (hneg : ∀ a, S a → Tidy E S (a.negate constants E)) (h : Tidy E S e) :
    Tidy E S (e.negate E constants depth) := by
  refine tidy_negateWith (fun l r e hl hr he => ?_)
    (fun arr negated extra e harr hnegated he => tidy_createOr htold extra harr hnegated he)
    hneg h
  have harr : ∀ x ∈ [some l, some r].reduceOption, Tidy E S x ∧ isOr x = false := by
    simpa [List.reduceOption] using ⟨hl, hr⟩
  exact tidy_createAnd htold (fun x hx => (harr x hx).1) (by simp)
    (goesWell_of_conjunctions depth false harr) he

variable (E constants S) in
/-- The expressions built through `ContextKeyExpr` of atoms in `S` such that the distribution
goes through in every conjunction. -/
inductive WellBuilt (depth : Nat) : ContextKeyExpression → Prop
  | leaf {e : ContextKeyExpression} (h : Leaf E constants e) (hS : ∀ a, e = atom a → S a) :
      WellBuilt depth e
  | and {es : List (Option ContextKeyExpression)} {e : ContextKeyExpression}
      (operands : ∀ x ∈ es.reduceOption, WellBuilt depth x)
      (goes : goesWell E constants (depth + 1) es true = true)
      (h : ContextKeyExpr.and E constants depth es = some e) : WellBuilt depth e
  | or {es : List (Option ContextKeyExpression)} {e : ContextKeyExpression}
      (operands : ∀ x ∈ es.reduceOption, WellBuilt depth x)
      (h : ContextKeyExpr.or E constants depth es = some e) : WellBuilt depth e
  | negate {e : ContextKeyExpression} (h : WellBuilt depth e) :
      WellBuilt depth (e.negate E constants depth)

theorem WellBuilt.tidy {depth : Nat} (htold : ToldApart (WithOpposites E constants S))
    (h : WellBuilt E constants S depth e) : Tidy E (WithOpposites E constants S) e := by
  induction h with
  | @leaf e hleaf hS =>
    cases hleaf.simple with
    | falseExpr => exact .falseExpr
    | trueExpr => exact .trueExpr
    | atom a => exact .atom ⟨hleaf.plain, .inl (hS a rfl)⟩
  | and _ goes h ih => exact tidy_createAnd htold ih (by simp) goes h
  | or _ h ih => exact tidy_createOr htold true ih (by simp) h
  | negate _ ih =>
    refine tidy_negate htold depth (fun a ha => ?_) ih
    rw [ha.1.1]
    refine .atom ⟨plain_opposite ha.1, ?_⟩
    rw [Atom.opposite_opposite]
    exact ha.2.symm

end Shape

end CodeOss.ContextKeys
