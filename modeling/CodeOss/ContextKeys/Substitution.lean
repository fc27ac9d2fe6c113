import CodeOss.ContextKeys.NegationLaws

/-! `substituteConstants`: the constants that were registered after an expression was made are
put into it, which keeps its meaning wherever it does for the atoms. -/

namespace CodeOss.ContextKeys

open ContextKeyExpression

section Substitute

variable (constants : JsString → Option Bool)
  (and or : List (Option ContextKeyExpression) → Option ContextKeyExpression →
    Option ContextKeyExpression)

mutual

/-- What `substituteConstants` returns, for given functions on what it makes on the way, or
`none` where it returns the expression itself. -/
def substituteWith : ContextKeyExpression → Option (Option ContextKeyExpression)
  | falseExpr => none
  | trueExpr => none
  | atom a =>
    match a.substituteConstants constants with
    | atom _ => none
    | e => some (some e)
  | andExpr xs negated => (eliminateConstantsInArray xs).map fun exprArr => and exprArr negated
  | orExpr xs negated => (eliminateConstantsInArray xs).map fun exprArr => or exprArr negated

/-- The array with the constants put in, or `none` where it is the array itself. -/
def eliminateConstantsInArray :
    List ContextKeyExpression → Option (List (Option ContextKeyExpression))
  | [] => none
  | x :: xs =>
    match substituteWith x, eliminateConstantsInArray xs with
    | none, none => none
    | newExpr, newArr => some (newExpr.getD (some x) :: newArr.getD (xs.map some))

end

end Substitute

def ContextKeyExpression.substituteConstants (E : Engine) (constants : JsString → Option Bool)
    (depth : Nat) (e : ContextKeyExpression) : Option ContextKeyExpression :=
  (substituteWith constants
    (fun exprArr negated => createAnd E constants (depth + 1) exprArr negated false)
    (fun exprArr negated => createOr E constants (depth + 1) exprArr negated false) e).getD
    (some e)

section Laws

variable {E : Engine} {constants : JsString → Option Bool} {context : Context}
  {S : Atom → Prop}

/-- The atoms of `S` keep their values when constants are put in. -/
def Substitutes (E : Engine) (constants : JsString → Option Bool) (context : Context)
    (S : Atom → Prop) : Prop :=
  ∀ a, S a → evaluate E context (a.substituteConstants constants) = a.evaluate E context

theorem substituteConstants_simple (a : Atom) : a.substituteConstants constants =
    atom a ∨ ∃ b, a.substituteConstants constants = constantExpr b := by
  cases a with
  | definedExpr key | notExpr key | equalsExpr key | notEqualsExpr key =>
    simp only [Atom.substituteConstants]
    cases constants key with
    | none => exact .inl rfl
    | some b => exact .inr ⟨_, rfl⟩
  | _ => exact .inl rfl

/-- An expression in place of another: it keeps to the atoms, and has the same value. -/
def Replaces (E : Engine) (context : Context) (S : Atom → Prop) (x : ContextKeyExpression)
    (o : Option ContextKeyExpression) : Prop :=
  ∃ r, o = some r ∧ Ok E context S r ∧ evaluate E context r = evaluate E context x

variable
  {and or : List (Option ContextKeyExpression) → Option ContextKeyExpression →
    Option ContextKeyExpression}

theorem eliminateConstantsInArray_spec {xs : List ContextKeyExpression}
    {arr : List (Option ContextKeyExpression)} (hxs : ∀ x ∈ xs, Ok E context S x)
    (ih : ∀ x ∈ xs, ∀ o, substituteWith constants and or x = some o → Replaces E context S x o)
    (h : eliminateConstantsInArray constants and or xs = some arr) : (∀ e ∈ arr.reduceOption, Ok
    E context S e) ∧ arr.reduceOption.map (evaluate E context) = xs.map (evaluate E context) := by
  induction xs generalizing arr with
  | nil => cases h
  | cons x xs ihxs =>
    obtain ⟨hx, hxs⟩ := List.forall_mem_cons.mp hxs
    obtain ⟨ihx, ih⟩ := List.forall_mem_cons.mp ih
    have hhead : Replaces E context S x
        ((substituteWith constants and or x).getD (some x)) := by
      cases hsub : substituteWith constants and or x with
      | none => exact ⟨x, rfl, hx, rfl⟩
      | some o => exact ihx o hsub
    have htail : ∀ newArr, newArr = (eliminateConstantsInArray constants and or xs).getD
        (xs.map some) → (∀ e ∈ newArr.reduceOption, Ok E context S e) ∧
          newArr.reduceOption.map (evaluate E context) = xs.map (evaluate E context) := by
      intro newArr hnew
      cases harr : eliminateConstantsInArray constants and or xs with
      | none =>
        rw [hnew, harr, Option.getD_none, reduceOption_map_some]
        exact ⟨hxs, rfl⟩
      | some arr =>
        rw [hnew, harr, Option.getD_some]
        exact ihxs hxs ih harr
    obtain ⟨r, hr, hok, hval⟩ := hhead
    obtain ⟨hoks, hvals⟩ := htail _ rfl
    have harr : arr = (substituteWith constants and or x).getD (some x) ::
        (eliminateConstantsInArray constants and or xs).getD (xs.map some) := by
      rw [eliminateConstantsInArray] at h
      split at h
      · cases h
      · exact (Option.some_inj.mp h).symm
    rw [harr, hr, List.reduceOption_cons_of_some]
    exact ⟨List.forall_mem_cons.mpr ⟨hok, hoks⟩, by rw [List.map_cons, hval, hvals, List.map_cons]⟩

theorem substituteWith_spec (hsub : Substitutes E constants context S)
    (hand : Creates E context S (fun xs => xs.all (evaluate E context)) fun arr
    negated _ => and arr negated) (hor : Creates E context S (fun xs => xs.any (evaluate E context))
    fun arr negated _ => or arr negated) {x : ContextKeyExpression} (hx : Ok E context S x) :
    ∀ o, substituteWith constants and or x = some o → Replaces E context S x o := by
  have hall : ∀ xs : List ContextKeyExpression,
      xs.all (evaluate E context) = (xs.map (evaluate E context)).all id := fun xs => by
    rw [List.all_map]
    rfl
  have hany : ∀ xs : List ContextKeyExpression,
      xs.any (evaluate E context) = (xs.map (evaluate E context)).any id := fun xs => by
    rw [List.any_map]
    rfl
  induction hx with
  | falseExpr => intro o h; cases h
  | trueExpr => intro o h; cases h
  | @atom a ha =>
    intro o h
    rw [substituteWith] at h
    rcases @substituteConstants_simple constants a with heq | ⟨b, heq⟩
    · rw [heq] at h
      cases h
    · have hval := hsub a ha
      rw [heq] at h hval
      cases b <;> cases h
      · exact ⟨_, rfl, .falseExpr, hval⟩
      · exact ⟨_, rfl, .trueExpr, hval⟩
  | @andExpr xs negated hne hxs hc ho ih _ =>
    intro o h
    rw [substituteWith, Option.map_eq_some_iff] at h
    obtain ⟨arr, harr, rfl⟩ := h
    obtain ⟨hok, hvals⟩ := eliminateConstantsInArray_spec hxs ih harr
    have hmeaning : arr.reduceOption.all (evaluate E context) =
        xs.all (evaluate E context) := by rw [hall, hall, hvals]
    rcases hand arr negated false hok (fun n hn => ⟨hc n hn, by
      beta_reduce
      rw [ho n hn, hmeaning]⟩) with ⟨-, hnil⟩ | ⟨r, hr, hokr, hval⟩
    · rw [hnil] at hvals
      exact absurd (List.map_eq_nil_iff.mp hvals.symm) hne
    · refine ⟨r, hr, hokr, ?_⟩
      rw [hval, evaluate_andExpr, ← hmeaning]
  | @orExpr xs negated hne hxs hc ho ih _ =>
    intro o h
    rw [substituteWith, Option.map_eq_some_iff] at h
    obtain ⟨arr, harr, rfl⟩ := h
    obtain ⟨hok, hvals⟩ := eliminateConstantsInArray_spec hxs ih harr
    have hmeaning : arr.reduceOption.any (evaluate E context) =
        xs.any (evaluate E context) := by rw [hany, hany, hvals]
    rcases hor arr negated false hok (fun n hn => ⟨hc n hn, by
      beta_reduce
      rw [ho n hn, hmeaning]⟩) with ⟨-, hnil⟩ | ⟨r, hr, hokr, hval⟩
    · rw [hnil] at hvals
      exact absurd (List.map_eq_nil_iff.mp hvals.symm) hne
    · refine ⟨r, hr, hokr, ?_⟩
      rw [hval, evaluate_orExpr, ← hmeaning]

theorem substituteConstants_spec (hcoherent : Coherent E constants context S)
    (hsub : Substitutes E constants context S) (depth : Nat) {x : ContextKeyExpression}
    (hx : Ok E context S x) : Replaces E context S x (x.substituteConstants E constants depth) := by
  obtain ⟨hand, hor⟩ := create_spec hcoherent (depth + 1)
  rw [ContextKeyExpression.substituteConstants]
  cases h : substituteWith constants
      (fun exprArr negated => createAnd E constants (depth + 1) exprArr negated false)
      (fun exprArr negated => createOr E constants (depth + 1) exprArr negated false) x with
  | none => exact ⟨x, rfl, hx, rfl⟩
  | some o =>
    exact substituteWith_spec hsub (fun arr negated _ harr hn => hand arr negated false harr hn)
      (fun arr negated _ harr hn => hor arr negated false harr hn) hx o h

end Laws

end CodeOss.ContextKeys
