import CodeOss.ContextKeys.Meaning

/-! `negate` is logical negation for the expressions that `ContextKeyExpr` builds, as long as
comparisons meet numbers and regular expressions differ in more than their flags. -/

namespace CodeOss.ContextKeys

open ContextKeyExpression

def Atom.opposite : Atom → Atom
  | definedExpr key => notExpr key
  | notExpr key => definedExpr key
  | equalsExpr key value => notEqualsExpr key value
  | notEqualsExpr key value => equalsExpr key value
  | regexExpr key regexp => notRegexExpr key regexp
  | notRegexExpr key regexp => regexExpr key regexp
  | inExpr key valueKey => notInExpr key valueKey
  | notInExpr key valueKey => inExpr key valueKey
  | comparisonExpr op key value => comparisonExpr op.negate key value

theorem Atom.opposite_opposite (a : Atom) : a.opposite.opposite = a := by
  cases a with
  | comparisonExpr op key value => cases op <;> rfl
  | _ => rfl

section Built

variable (E : Engine) (constants : JsString → Option Bool) (depth : Nat)

/-- What the functions of `ContextKeyExpr` without operands return. -/
inductive Leaf : ContextKeyExpression → Prop
  | falseExpr : Leaf falseExpr
  | trueExpr : Leaf trueExpr
  | has (key : JsString) : Leaf (ContextKeyDefinedExpr.create constants key)
  | not (key : JsString) : Leaf (ContextKeyNotExpr.create constants key)
  | equals (key : JsString) (value : Value) :
      Leaf (ContextKeyEqualsExpr.create constants key value)
  | notEquals (key : JsString) (value : Value) :
      Leaf (ContextKeyNotEqualsExpr.create constants key value)
  | regex (key : JsString) (value : RegExp) :
      Leaf (ContextKeyRegexExpr.create key (some value))
  | isIn (key value : JsString) : Leaf (ContextKeyInExpr.create key value)
  | notIn (key value : JsString) : Leaf (ContextKeyNotInExpr.create key value)
  | greater (key : JsString) (value : Value) : Leaf (ContextKeyGreaterExpr.create E key value)
  | greaterEquals (key : JsString) (value : Value) :
      Leaf (ContextKeyGreaterEqualsExpr.create E key value)
  | smaller (key : JsString) (value : Value) : Leaf (ContextKeySmallerExpr.create E key value)
  | smallerEquals (key : JsString) (value : Value) :
      Leaf (ContextKeySmallerEqualsExpr.create E key value)

/-- The expressions built through `ContextKeyExpr` of atoms in `S`. -/
inductive Built (S : Atom → Prop) : ContextKeyExpression → Prop
  | leaf {e : ContextKeyExpression} (h : Leaf E constants e) (hS : ∀ a, e = atom a → S a) :
      Built S e
  | and {es : List (Option ContextKeyExpression)} {e : ContextKeyExpression}
      (operands : ∀ x ∈ es.reduceOption, Built S x)
      (h : ContextKeyExpr.and E constants depth es = some e) : Built S e
  | or {es : List (Option ContextKeyExpression)} {e : ContextKeyExpression}
      (operands : ∀ x ∈ es.reduceOption, Built S x)
      (h : ContextKeyExpr.or E constants depth es = some e) : Built S e
  | negate {e : ContextKeyExpression} (h : Built S e) : Built S (e.negate E constants depth)

end Built

/-- In the context comparisons are of numbers, and regular expressions for a key with the same
source have the same flags. -/
structure Regular (E : Engine) (context : Context) (S : Atom → Prop) : Prop where
  numeric : ∀ op key value, S (.comparisonExpr op key value) →
    (∃ n, value = .float (some n)) ∧ E.parseFloat (context key) ≠ none
  flags : ∀ key r r', S (.regexExpr key (some r)) ∨ S (.notRegexExpr key (some r)) →
    S (.regexExpr key (some r')) ∨ S (.notRegexExpr key (some r')) →
    r.source = r'.source → r.flags = r'.flags

section Laws

variable {E : Engine} {constants : JsString → Option Bool} {depth : Nat} {context : Context}
  {S : Atom → Prop}

/-- The atom is one that `create` makes, and so is its negation. -/
def Plain (E : Engine) (constants : JsString → Option Bool) (a : Atom) : Prop :=
  a.negate constants E = atom a.opposite ∧ a.opposite.negate constants E = atom a

variable {a : Atom} {key : JsString} {value : Value}

theorem plain_opposite (h : Plain E constants a) : Plain E constants a.opposite := by
  refine ⟨?_, ?_⟩
  · rw [h.2, Atom.opposite_opposite]
  · rw [Atom.opposite_opposite, h.1]

theorem constantExpr_ne_atom (b : Bool) (a : Atom) : constantExpr b ≠ atom a := by
  cases b <;> simp [constantExpr]

theorem plain_of_defined (h : ContextKeyDefinedExpr.create constants key = atom a) :
    Plain E constants a := by
  unfold ContextKeyDefinedExpr.create at h
  cases hc : constants key with
  | some b => rw [hc] at h; exact absurd h (constantExpr_ne_atom b a)
  | none =>
    rw [hc] at h
    cases h
    simp [Plain, Atom.negate, Atom.opposite, ContextKeyNotExpr.create,
      ContextKeyDefinedExpr.create, hc]

theorem plain_of_not (h : ContextKeyNotExpr.create constants key = atom a) :
    Plain E constants a := by
  unfold ContextKeyNotExpr.create at h
  cases hc : constants key with
  | some b => rw [hc] at h; exact absurd h (constantExpr_ne_atom (!b) a)
  | none =>
    rw [hc] at h
    cases h
    simp [Plain, Atom.negate, Atom.opposite, ContextKeyNotExpr.create,
      ContextKeyDefinedExpr.create, hc]

theorem createEquals_eq (htrue : value = .primitive (.boolean true) → False)
    (hfalse : value = .primitive (.boolean false) → False) (hc : constants key = none) :
    ContextKeyEqualsExpr.create constants key value = atom (.equalsExpr key value) ∧
      ContextKeyNotEqualsExpr.create constants key value = atom (.notEqualsExpr key value) := by
  constructor
  · rw [ContextKeyEqualsExpr.create, hc]
    · exact htrue
    · exact hfalse
  · rw [ContextKeyNotEqualsExpr.create, hc]
    · exact htrue
    · exact hfalse

theorem plain_of_equals (h : ContextKeyEqualsExpr.create constants key value = atom a) :
    Plain E constants a := by
  unfold ContextKeyEqualsExpr.create at h
  split at h
  · exact plain_of_defined h
  · exact plain_of_not h
  · next htrue hfalse =>
      cases hc : constants key with
      | some b => rw [hc] at h; exact absurd h (constantExpr_ne_atom _ a)
      | none =>
        rw [hc] at h
        cases h
        obtain ⟨heq, hne⟩ := createEquals_eq htrue hfalse hc
        exact ⟨hne, heq⟩

theorem plain_of_notEquals (h : ContextKeyNotEqualsExpr.create constants key value = atom a) :
    Plain E constants a := by
  unfold ContextKeyNotEqualsExpr.create at h
  split at h
  · exact plain_of_not h
  · exact plain_of_defined h
  · next htrue hfalse =>
      cases hc : constants key with
      | some b => rw [hc] at h; exact absurd h (constantExpr_ne_atom _ a)
      | none =>
        rw [hc] at h
        cases h
        obtain ⟨heq, hne⟩ := createEquals_eq htrue hfalse hc
        exact ⟨heq, hne⟩

theorem createComparison_toValue {value : FloatOrStr}
    (h : ∀ s, value = .str s → E.parseFloat (.string s) = none) (op : Comparison) :
    createComparison E op key value.toValue = atom (.comparisonExpr op key value) := by
  cases value with
  | float n => rfl
  | str s =>
    rw [createComparison, FloatOrStr.toValue, Value.string, withFloatOrStr]
    have hs := h s rfl
    rw [Value.string] at hs
    rw [hs]

theorem plain_of_comparison {op : Comparison} (h : createComparison E op key value = atom a) :
    Plain E constants a := by
  rw [createComparison] at h
  have hmade : ∃ v, a = .comparisonExpr op key v ∧
      ∀ s, v = .str s → E.parseFloat (.string s) = none := by
    unfold withFloatOrStr at h
    split at h
    · next s =>
        split at h
        · cases h
          exact ⟨_, rfl, fun _ hv => by cases hv⟩
        · next hnone =>
            cases h
            refine ⟨_, rfl, fun s' hv => ?_⟩
            cases hv
            exact hnone
    · cases h
      exact ⟨_, rfl, fun _ hv => by cases hv⟩
    · cases h
  obtain ⟨v, rfl, hv⟩ := hmade
  refine ⟨createComparison_toValue hv op.negate, ?_⟩
  rw [Atom.opposite, Atom.negate, createComparison_toValue hv op.negate.negate]
  cases op <;> rfl

theorem Leaf.plain (h : Leaf E constants (atom a)) : Plain E constants a := by
  generalize he : atom a = e at h
  cases h with
  | falseExpr | trueExpr => cases he
  | has => exact plain_of_defined he.symm
  | not => exact plain_of_not he.symm
  | equals => exact plain_of_equals he.symm
  | notEquals => exact plain_of_notEquals he.symm
  | regex | isIn | notIn => cases he; exact ⟨rfl, rfl⟩
  | greater | greaterEquals | smaller | smallerEquals => exact plain_of_comparison he.symm

inductive Simple : ContextKeyExpression → Prop
  | falseExpr : Simple falseExpr
  | trueExpr : Simple trueExpr
  | atom (a : Atom) : Simple (atom a)

theorem simple_constantExpr (b : Bool) : Simple (constantExpr b) := by
  cases b
  · exact .falseExpr
  · exact .trueExpr

theorem Leaf.simple {e : ContextKeyExpression} (h : Leaf E constants e) : Simple e := by
  have hdefined : ∀ key, Simple (ContextKeyDefinedExpr.create constants key) := fun key => by
    rw [ContextKeyDefinedExpr.create]
    split
    · exact simple_constantExpr _
    · exact .atom _
  have hnot : ∀ key, Simple (ContextKeyNotExpr.create constants key) := fun key => by
    rw [ContextKeyNotExpr.create]
    split
    · exact simple_constantExpr _
    · exact .atom _
  have hcomparison : ∀ op key value, Simple (createComparison E op key value) := by
    intro op key value
    rw [createComparison]
    unfold withFloatOrStr
    split
    · split <;> exact .atom _
    · exact .atom _
    · exact .falseExpr
  cases h with
  | falseExpr => exact .falseExpr
  | trueExpr => exact .trueExpr
  | has key => exact hdefined key
  | not key => exact hnot key
  | equals key value =>
    unfold ContextKeyEqualsExpr.create
    split
    · exact hdefined key
    · exact hnot key
    · split
      · exact simple_constantExpr _
      · exact .atom _
  | notEquals key value =>
    unfold ContextKeyNotEqualsExpr.create
    split
    · exact hnot key
    · exact hdefined key
    · split
      · exact simple_constantExpr _
      · exact .atom _
  | regex | isIn | notIn => exact .atom _
  | greater | greaterEquals | smaller | smallerEquals => exact hcomparison _ _ _

theorem primitive_strictEquals_eq {p q : Primitive} (h : p.strictEquals q = true) : p = q := by
  unfold Primitive.strictEquals at h
  split at h
  · next m n => cases m <;> cases n <;> simp_all [JsNumber.eq]
  · exact of_decide_eq_true h

theorem strictEquals_eq {v w : Value} (h : v.strictEquals w = true) : v = w := by
  unfold Value.strictEquals at h
  split at h
  · rw [primitive_strictEquals_eq h]
  · exact of_decide_eq_true h

theorem toValue_injective {v w : FloatOrStr} (h : v.toValue = w.toValue) : v = w := by
  cases v <;> cases w <;> simp_all [FloatOrStr.toValue, Value.number, Value.string]

theorem evaluate_opposite
    (hnumeric : ∀ op key value, a = .comparisonExpr op key value → (∃ n, value = .float (some n)) ∧
    E.parseFloat (context key) ≠ none) :
    a.opposite.evaluate E context = !a.evaluate E context := by
  cases a with
  | comparisonExpr op key value =>
    obtain ⟨⟨n, rfl⟩, hnumber⟩ := hnumeric op key value rfl
    obtain ⟨x, hx⟩ := Option.ne_none_iff_exists'.mp hnumber
    cases op <;> simp only [Atom.opposite, Comparison.negate, Atom.evaluate,
      Atom.evaluateComparison, hx, JsNumber.lt, JsNumber.le, ← decide_not, not_lt, not_le]
  | _ => simp [Atom.opposite, Atom.evaluate]

theorem regexp_eq {r r' : Option RegExp} (h : sourceOf r = sourceOf r')
    (hflags : ∀ q q', r = some q → r' = some q' → q.source = q'.source → q.flags = q'.flags) :
    r = r' := by
  cases r with
  | none =>
    cases r' with
    | none => rfl
    | some q' => exact absurd h.symm q'.source_ne
  | some q =>
    cases r' with
    | none => exact absurd h q.source_ne
    | some q' =>
      have hsource : q.source = q'.source := h
      have hfl := hflags q q' rfl rfl hsource
      cases q
      cases q'
      simp only at hsource hfl
      simp only [hsource, hfl]

/-- Atoms that compare as equal are the same, unless they differ in the flags of a regular
expression. -/
theorem eq_of_atom_equals {b : Atom}
    (hflags : ∀ key r r', (a = .regexExpr key (some r) ∧ b = .regexExpr key (some r') ∨ a =
    .notRegexExpr key (some r) ∧ b = .notRegexExpr key (some r')) → r.source = r'.source →
    r.flags = r'.flags)
    (h : a.equals b = true) : a = b := by
  unfold Atom.equals at h
  split at h
  · rw [of_decide_eq_true h]
  · rw [of_decide_eq_true h]
  · obtain ⟨hkey, hvalue⟩ := Bool.and_eq_true_iff.mp h
    rw [of_decide_eq_true hkey, strictEquals_eq hvalue]
  · obtain ⟨hkey, hvalue⟩ := Bool.and_eq_true_iff.mp h
    rw [of_decide_eq_true hkey, strictEquals_eq hvalue]
  · obtain ⟨hkey, hsource⟩ := Bool.and_eq_true_iff.mp h
    obtain rfl := of_decide_eq_true hkey
    rw [regexp_eq (of_decide_eq_true hsource) fun q q' hq hq' =>
      hflags _ q q' (.inl ⟨by rw [hq], by rw [hq']⟩)]
  · obtain ⟨hkey, hsource⟩ := Bool.and_eq_true_iff.mp h
    obtain rfl := of_decide_eq_true hkey
    rw [regexp_eq (of_decide_eq_true hsource) fun q q' hq hq' =>
      hflags _ q q' (.inr ⟨by rw [hq], by rw [hq']⟩)]
  · obtain ⟨hkey, hvalueKey⟩ := Bool.and_eq_true_iff.mp h
    rw [of_decide_eq_true hkey, of_decide_eq_true hvalueKey]
  · obtain ⟨hkey, hvalueKey⟩ := Bool.and_eq_true_iff.mp h
    rw [of_decide_eq_true hkey, of_decide_eq_true hvalueKey]
  · obtain ⟨hfront, hvalue⟩ := Bool.and_eq_true_iff.mp h
    obtain ⟨hop, hkey⟩ := Bool.and_eq_true_iff.mp hfront
    rw [of_decide_eq_true hop, of_decide_eq_true hkey, toValue_injective (strictEquals_eq hvalue)]
  · cases h

variable (E constants S) in
/-- The atoms of `S` with their opposites. -/
def WithOpposites (a : Atom) : Prop := Plain E constants a ∧ (S a ∨ S a.opposite)

theorem Regular.numeric' (hreg : Regular E context S) (ha : S a ∨ S a.opposite) (op : Comparison)
    (key : JsString) (value : FloatOrStr) (heq : a = .comparisonExpr op key value) :
    (∃ n, value = .float (some n)) ∧ E.parseFloat (context key) ≠ none := by
  subst heq
  rcases ha with ha | ha
  · exact hreg.numeric op key value ha
  · exact hreg.numeric op.negate key value ha

theorem regex_mem (ha : S a ∨ S a.opposite) {r : Option RegExp}
    (h : a = .regexExpr key r ∨ a = .notRegexExpr key r) :
    S (.regexExpr key r) ∨ S (.notRegexExpr key r) := by
  rcases h with rfl | rfl
  · exact ha
  · exact ha.symm

theorem coherent_of_regular (hreg : Regular E context S) :
    Coherent E constants context (WithOpposites E constants S) where
  negate a ha := by
    rw [ha.1.1]
    refine .atom ⟨plain_opposite ha.1, ?_⟩
    rw [Atom.opposite_opposite]
    exact ha.2.symm
  opposite a ha := by
    rw [ha.1.1]
    exact evaluate_opposite fun op key value => hreg.numeric' ha.2 op key value
  alike a b ha hb heq := by
    have hsame : a = b := by
      refine eq_of_atom_equals (fun key r r' hr hsource => ?_) heq
      refine hreg.flags key r r' ?_ ?_ hsource
      · exact regex_mem ha.2 (hr.imp (·.1) (·.1))
      · exact regex_mem hb.2 (hr.imp (·.2) (·.2))
    rw [hsame]

theorem Built.ok (hreg : Regular E context S) {e : ContextKeyExpression}
    (h : Built E constants depth S e) : Ok E context (WithOpposites E constants S) e := by
  have hcoherent : Coherent E constants context (WithOpposites E constants S) :=
    coherent_of_regular hreg
  obtain ⟨hand, hor⟩ := create_spec hcoherent (depth + 1)
  induction h with
  | @leaf e hleaf hS =>
    cases hleaf.simple with
    | falseExpr => exact .falseExpr
    | trueExpr => exact .trueExpr
    | atom a => exact .atom ⟨hleaf.plain, .inl (hS a rfl)⟩
  | @and es e _ he ih =>
    rcases hand es none true ih (by simp) with ⟨hnone, -⟩ | ⟨r, hr, hok, -⟩
    · rw [ContextKeyExpr.and, hnone] at he
      cases he
    · rw [ContextKeyExpr.and, hr] at he
      exact Option.some_inj.mp he ▸ hok
  | @or es e _ he ih =>
    rcases hor es none true ih (by simp) with ⟨hnone, -⟩ | ⟨r, hr, hok, -⟩
    · rw [ContextKeyExpr.or, hnone] at he
      cases he
    · rw [ContextKeyExpr.or, hr] at he
      exact Option.some_inj.mp he ▸ hok
  | negate _ ih =>
    exact (negateWith_spec (fun arr _ _ harr _ => hand arr none false harr (by simp)) hor
      hcoherent _ ih).1

end Laws

def leadingDigits (s : JsString) : JsNumber :=
  match s.takeWhile fun c => 48 ≤ c && c ≤ 57 with
  | [] => none
  | digits => some ((digits.foldl (fun n c => 10 * n + (c.toNat - 48)) 0 : Nat) : ℚ)

/-- An engine that reads numbers of digits only, and looks for the source of a regular
expression as it stands. -/
def sampleEngine : Engine where
  isWindows := false
  toNumber := leadingDigits
  parseFloat
    | .primitive (.string s) => leadingDigits s
    | .primitive (.number n) => n
    | _ => none
  toPrimitive _ := .string []
  test r
    | .primitive (.string s) => s.tails.any fun t => r.source.isPrefixOf t
    | _ => false
  toLowerCase s := s

end CodeOss.ContextKeys
