import CodeOss.ContextKeys.NormalForms
import CodeOss.ContextKeys.Substitution

/-! What normalisation keeps and what it makes, where atoms are told apart, comparisons are of
numbers, and the distribution goes through. -/

namespace CodeOss.ContextKeys

open ContextKeyExpression SortedInclusion ContextKeyExpr List

section Laws

variable {E : Engine} {constants constants' : JsString → Option Bool} {context : Context}
  {S : Atom → Prop}

/-- The context holds the constants, and a comparison of a constant with a value comes out the
same for `==` and for the text of the constant. -/
structure Registered (E : Engine) (constants : JsString → Option Bool) (context : Context)
    (S : Atom → Prop) : Prop where
  agrees : ∀ key b, constants key = some b → context key = .boolean b
  texts : ∀ key value b, S (.equalsExpr key value) ∨ S (.notEqualsExpr key value) →
    constants key = some b →
    (Value.boolean b).looseEquals E value = value.strictEquals (.string (booleanText b))

theorem evaluate_constantExpr (b : Bool) : evaluate E context (constantExpr b) = b := by
  cases b <;> rfl

section Registered

variable (hreg : Registered E constants' context S)
include hreg

theorem Registered.truthy {key : JsString} {b : Bool} (h : constants' key = some b) :
    (context key).truthy = b := by
  rw [hreg.agrees key b h]
  rfl

theorem substitutes_of_registered :
    Substitutes E constants' context (WithOpposites E constants S) := by
  rintro a ⟨-, ha⟩
  cases a with
  | definedExpr key =>
    rw [Atom.substituteConstants]
    cases hc : constants' key with
    | none => rfl
    | some b => rw [evaluate_constantExpr, Atom.evaluate, hreg.truthy hc]
  | notExpr key =>
    rw [Atom.substituteConstants]
    cases hc : constants' key with
    | none => rfl
    | some b => rw [evaluate_constantExpr, Atom.evaluate, hreg.truthy hc]
  | equalsExpr key value =>
    rw [Atom.substituteConstants]
    cases hc : constants' key with
    | none => rfl
    | some b =>
      rw [evaluate_constantExpr, Atom.evaluate, hreg.agrees key b hc, hreg.texts key value b ha hc]
  | notEqualsExpr key value =>
    rw [Atom.substituteConstants]
    cases hc : constants' key with
    | none => rfl
    | some b =>
      rw [evaluate_constantExpr, Atom.evaluate, hreg.agrees key b hc,
        hreg.texts key value b ha.symm hc]
  | _ => rfl

theorem negate_of_registered {a : Atom} (ha : WithOpposites E constants S a) : a.negate constants'
    E = atom a.opposite ∨ a.negate constants' E = constantExpr (!a.evaluate E context) := by
  have hnone : ∀ b key, constantExpr b ≠ atom key := constantExpr_ne_atom
  have hsimple : ∀ key value, ContextKeyNotEqualsExpr.create constants key value =
      atom (.notEqualsExpr key value) ∨ ContextKeyEqualsExpr.create constants key value =
        atom (.equalsExpr key value) →
      (value = .primitive (.boolean true) → False) ∧
        (value = .primitive (.boolean false) → False) := by
    intro key value h
    constructor
    all_goals
      rintro rfl
      simp only [ContextKeyNotEqualsExpr.create, ContextKeyEqualsExpr.create,
        ContextKeyNotExpr.create, ContextKeyDefinedExpr.create] at h
      cases hc : constants key <;> simp [hc, hnone] at h
  obtain ⟨⟨hplain, -⟩, hS⟩ := ha
  cases a with
  | definedExpr key =>
    rw [Atom.negate, ContextKeyNotExpr.create]
    cases hc : constants' key with
    | none => exact .inl rfl
    | some b => exact .inr (by rw [Atom.evaluate, hreg.truthy hc])
  | notExpr key =>
    rw [Atom.negate, ContextKeyDefinedExpr.create]
    cases hc : constants' key with
    | none => exact .inl rfl
    | some b => exact .inr (by rw [Atom.evaluate, hreg.truthy hc, Bool.not_not])
  | equalsExpr key value =>
    obtain ⟨htrue, hfalse⟩ := hsimple key value (.inl hplain)
    cases hc : constants' key with
    | none => exact .inl (createEquals_eq htrue hfalse hc).2
    | some b =>
      refine .inr ?_
      rw [Atom.negate, ContextKeyNotEqualsExpr.create, hc, Atom.evaluate,
        hreg.agrees key b hc, hreg.texts key value b hS hc]
      · exact htrue
      · exact hfalse
  | notEqualsExpr key value =>
    obtain ⟨htrue, hfalse⟩ := hsimple key value (.inr hplain)
    cases hc : constants' key with
    | none => exact .inl (createEquals_eq htrue hfalse hc).1
    | some b =>
      refine .inr ?_
      rw [Atom.negate, ContextKeyEqualsExpr.create, hc, Atom.evaluate,
        hreg.agrees key b hc, hreg.texts key value b hS.symm hc, Bool.not_not]
      · exact htrue
      · exact hfalse
  | comparisonExpr => exact .inl hplain
  | _ => exact .inl rfl

theorem coherent_of_registered (hregular : Regular E context S) :
    Coherent E constants' context (WithOpposites E constants S) where
  negate a ha := by
    rcases negate_of_registered hreg ha with heq | heq
    · rw [heq]
      refine .atom ⟨plain_opposite ha.1, ?_⟩
      rw [Atom.opposite_opposite]
      exact ha.2.symm
    · rw [heq]
      cases a.evaluate E context
      · exact .trueExpr
      · exact .falseExpr
  opposite a ha := by
    rcases negate_of_registered hreg ha with heq | heq
    · rw [heq]
      exact evaluate_opposite fun op key value => hregular.numeric' ha.2 op key value
    · rw [heq, evaluate_constantExpr]
      rfl
  alike := (coherent_of_regular hregular).alike

end Registered

theorem Normal.operands_andExpr {xs : List ContextKeyExpression}
    {negated : Option ContextKeyExpression} (h : Normal E S (.andExpr xs negated)) :
    ∀ x ∈ xs, ∃ a, x = .atom a := by
  intro x hx
  generalize he : ContextKeyExpression.andExpr xs negated = e at h
  cases h with
  | conjunction h =>
    cases h with
    | atom => cases he
    | andExpr =>
      cases he
      obtain ⟨a, -, rfl⟩ := mem_map.mp hx
      exact ⟨a, rfl⟩
  | _ => cases he

/-- There is no expression only where there are no operands, and else it has the value. -/
def Means (E : Engine) (context : Context) (o : Option ContextKeyExpression)
    (operands : List ContextKeyExpression) (value : Bool) : Prop :=
  o = none ∧ operands = [] ∨ ∃ e, o = some e ∧ evaluate E context e = value

theorem create_means
    {depth : Nat} (hregular : Regular E context S) {es : List (Option ContextKeyExpression)}
    (hes : ∀ x ∈ es.reduceOption, Built E constants depth S x) : Means E context (and E
    constants depth es) es.reduceOption (es.reduceOption.all (evaluate E context)) ∧ Means E context
    (or E constants depth es) es.reduceOption (es.reduceOption.any (evaluate E context)) := by
  obtain ⟨hand, hor⟩ := create_spec (coherent_of_regular hregular) (depth + 1)
  have hok := fun x hx => (hes x hx).ok hregular
  constructor
  · rcases hand es none true hok (by simp) with h | ⟨e, he, -, hval⟩
    · exact .inl h
    · exact .inr ⟨e, he, hval⟩
  · rcases hor es none true hok (by simp) with h | ⟨e, he, -, hval⟩
    · exact .inl h
    · exact .inr ⟨e, he, hval⟩

end Laws

end CodeOss.ContextKeys
