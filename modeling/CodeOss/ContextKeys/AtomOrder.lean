import CodeOss.Library.SortedInclusion
import CodeOss.ContextKeys.NegationLaws

/-! The order of the atoms: by class, then by key, then by value. `cmp` is that order on atoms
whose values can be compared, and there equal atoms are the same. -/

namespace CodeOss.ContextKeys

open ContextKeyExpression SortedInclusion

namespace Atom

def key : Atom → JsString
  | definedExpr key => key
  | notExpr key => key
  | equalsExpr key _ => key
  | notEqualsExpr key _ => key
  | regexExpr key _ => key
  | notRegexExpr key _ => key
  | inExpr key _ => key
  | notInExpr key _ => key
  | comparisonExpr _ key _ => key

def rest : Atom → Value
  | definedExpr _ => .string []
  | notExpr _ => .string []
  | equalsExpr _ value => value
  | notEqualsExpr _ value => value
  | regexExpr _ regexp => .string (sourceOf regexp)
  | notRegexExpr _ regexp => .string (sourceOf regexp)
  | inExpr _ valueKey => .string valueKey
  | notInExpr _ valueKey => .string valueKey
  | comparisonExpr _ _ value => value.toValue

end Atom

section Order

variable {E : Engine}

theorem lessThan_string (s t : JsString) :
    (Value.string s).lessThan E (.string t) = decide (s.codes < t.codes) := rfl

theorem lessThan_self (v : Value) : v.lessThan E v = false := by
  have hnumber : ∀ n : JsNumber, n.lt n = false := by
    intro n
    cases n <;> simp [JsNumber.lt]
  rw [Value.lessThan]
  cases v.asPrimitive E with
  | string s => simp [Primitive.lessThan]
  | undefined => exact hnumber none
  | null => exact hnumber (some 0)
  | boolean b => exact hnumber (if b then some 1 else some 0)
  | number n => exact hnumber n

theorem cmp1_eq (key key' : JsString) :
    cmp1 key key' = cmp2 E key (.string []) key' (.string []) := by
  simp [cmp1, cmp2, lessThan_self]

theorem cmpRegex_eq (key key' : JsString) (r r' : Option RegExp) :
    cmpRegex key r key' r' = cmp2 E key (.string (sourceOf r)) key' (.string (sourceOf r')) := by
  simp [cmpRegex, cmp1, cmp2, lessThan_string]

theorem atom_cmp_eq (a b : Atom) : a.cmp E b = if a.type = b.type then cmp2 E a.key a.rest b.key
    b.rest else a.type - b.type := by
  have htype : ∀ op op' : Comparison, op.type = op'.type ↔ op = op' := by
    intro op op'
    cases op <;> cases op' <;> simp [Comparison.type]
  cases a with
  | definedExpr key =>
    cases b with
    | definedExpr => exact cmp1_eq _ _
    | comparisonExpr op => cases op <;> rfl
    | _ => rfl
  | notExpr key =>
    cases b with
    | notExpr => exact cmp1_eq _ _
    | comparisonExpr op => cases op <;> rfl
    | _ => rfl
  | equalsExpr key value =>
    cases b with
    | equalsExpr => exact rfl
    | comparisonExpr op => cases op <;> rfl
    | _ => rfl
  | notEqualsExpr key value =>
    cases b with
    | notEqualsExpr => exact rfl
    | comparisonExpr op => cases op <;> rfl
    | _ => rfl
  | regexExpr key regexp =>
    cases b with
    | regexExpr => exact cmpRegex_eq _ _ _ _
    | comparisonExpr op => cases op <;> rfl
    | _ => rfl
  | notRegexExpr key regexp =>
    cases b with
    | notRegexExpr => exact cmpRegex_eq _ _ _ _
    | comparisonExpr op => cases op <;> rfl
    | _ => rfl
  | inExpr key valueKey =>
    cases b with
    | inExpr => exact rfl
    | comparisonExpr op => cases op <;> rfl
    | _ => rfl
  | notInExpr key valueKey =>
    cases b with
    | notInExpr => exact rfl
    | comparisonExpr op => cases op <;> rfl
    | _ => rfl
  | comparisonExpr op key value =>
    cases b with
    | comparisonExpr op' => simp only [Atom.cmp, Atom.type, Atom.key, Atom.rest, htype]
    | _ => cases op <;> rfl

/-- Values that `<` puts in order. -/
def Similar (v w : Value) : Prop :=
  v.strictEquals w = true ∨ (∃ s t, v = .string s ∧ w = .string t) ∨
    ∃ m n, v = .number (some m) ∧ w = .number (some n)

/-- Values for a key in one class of atoms can be compared, and regular expressions for a key
with the same source have the same flags. -/
structure ToldApart (S : Atom → Prop) : Prop where
  values : ∀ a b, S a → S b → a.type = b.type → a.key = b.key → Similar a.rest b.rest
  flags : ∀ key r r', S (.regexExpr key (some r)) ∨ S (.notRegexExpr key (some r)) →
    S (.regexExpr key (some r')) ∨ S (.notRegexExpr key (some r')) →
    r.source = r'.source → r.flags = r'.flags

def valueRank : Value → List Nat ⊕ₗ WithBot (WithTop ℚ)
  | .primitive (.string s) => toLex (.inl s.codes)
  | .primitive (.number (some n)) => toLex (.inr n)
  | _ => toLex (.inl [])

def atomRank (a : Atom) : ℤ ×ₗ List Nat ×ₗ (List Nat ⊕ₗ WithBot (WithTop ℚ)) :=
  toLex (a.type, toLex (a.key.codes, valueRank a.rest))

theorem lessThan_iff {v w : Value} (h : Similar v w) : (v.lessThan E w =
    true ↔ valueRank v < valueRank w) ∧ (w.lessThan E v = true ↔ valueRank w < valueRank v) := by
  rcases h with h | ⟨s, t, rfl, rfl⟩ | ⟨m, n, rfl, rfl⟩
  · rw [strictEquals_eq h, lessThan_self]
    simp
  · rw [lessThan_string, lessThan_string]
    simp [valueRank, Value.string]
  · simp [Value.lessThan, Value.asPrimitive, Primitive.lessThan, Primitive.toNumeric,
      JsNumber.lt, valueRank, Value.number]

theorem agrees_atomRank {S : Atom → Prop} (h : ToldApart S) : Agrees (Atom.cmp E) S atomRank := by
  intro a b ha hb
  rw [atom_cmp_eq, atomRank, atomRank, Prod.Lex.toLex_lt_toLex, Prod.Lex.toLex_lt_toLex,
    Prod.Lex.toLex_lt_toLex, Prod.Lex.toLex_lt_toLex]
  simp only
  by_cases htype : a.type = b.type
  · rw [if_pos htype, cmp2]
    by_cases h₁ : a.key.codes < b.key.codes
    · simp [htype, h₁, h₁.le.not_gt, h₁.ne']
    · rw [if_neg h₁]
      by_cases h₂ : b.key.codes < a.key.codes
      · simp [htype, h₂, h₁, h₂.ne']
      · rw [if_neg h₂]
        have hkey : a.key.codes = b.key.codes := le_antisymm (not_lt.mp h₂) (not_lt.mp h₁)
        obtain ⟨hlt, hgt⟩ := @lessThan_iff E _ _
          (h.values a b ha hb htype (JsString.codes_injective hkey))
        rw [← hlt, ← hgt]
        simp only [htype, hkey, lt_irrefl, false_or, true_and]
        cases hv : a.rest.lessThan E b.rest with
        | true =>
          have hnot : b.rest.lessThan E a.rest = false := by
            rw [Bool.eq_false_iff]
            exact fun hc => (hlt.mp hv).asymm (hgt.mp hc)
          simp [hnot]
        | false => cases b.rest.lessThan E a.rest <;> simp
  · rw [if_neg htype]
    simp only [htype, Ne.symm htype, false_and, or_false]
    omega

theorem Similar.strictEquals_self {v : Value} (h : Similar v v) : v.strictEquals v = true := by
  rcases h with h | ⟨s, -, rfl, -⟩ | ⟨m, -, rfl, -⟩
  · exact h
  · simp [Value.string, Value.strictEquals, Primitive.strictEquals]
  · simp [Value.number, Value.strictEquals, Primitive.strictEquals, JsNumber.eq]

theorem Similar.eq_of_valueRank {v w : Value} (h : Similar v w)
    (hrank : valueRank v = valueRank w) : v = w := by
  rcases h with h | ⟨s, t, rfl, rfl⟩ | ⟨m, n, rfl, rfl⟩
  · exact strictEquals_eq h
  · rw [JsString.codes_injective (Sum.inl_injective (toLex_inj.mp hrank))]
  · rw [Sum.inr_injective (toLex_inj.mp hrank)]

section ToldApart

variable {S : Atom → Prop} (h : ToldApart S) {a b : Atom} (ha : S a) (hb : S b)
include h ha hb

theorem eq_of_atomRank (hrank : atomRank a = atomRank b) : a = b := by
  have hpair := Prod.ext_iff.mp (toLex_inj.mp hrank)
  have hpair' := Prod.ext_iff.mp (toLex_inj.mp hpair.2)
  have htype : a.type = b.type := hpair.1
  have hkey : a.key = b.key := JsString.codes_injective hpair'.1
  have hrest : a.rest = b.rest := (h.values a b ha hb htype hkey).eq_of_valueRank hpair'.2
  have hop : ∀ op op' : Comparison, op.type = op'.type → op = op' := by
    intro op op' heq
    cases op <;> cases op' <;> first | rfl | cases heq
  have hregex : ∀ key r r', S (.regexExpr key r) ∨ S (.notRegexExpr key r) →
      S (.regexExpr key r') ∨ S (.notRegexExpr key r') → sourceOf r = sourceOf r' → r = r' :=
    fun key r r' hr hr' hsource => regexp_eq hsource fun q q' hq hq' =>
      h.flags key q q' (hq ▸ hr) (hq' ▸ hr')
  have hstring : ∀ s t, Value.string s = .string t → s = t := fun s t heq => by
    cases heq
    rfl
  cases a with
  | definedExpr key =>
    cases b with
    | definedExpr key' =>
      rw [show key = key' from hkey]
    | comparisonExpr op => cases op <;> cases htype
    | _ => cases htype
  | notExpr key =>
    cases b with
    | notExpr key' =>
      rw [show key = key' from hkey]
    | comparisonExpr op => cases op <;> cases htype
    | _ => cases htype
  | equalsExpr key value =>
    cases b with
    | equalsExpr key' value' =>
      rw [show key = key' from hkey, show value = value' from hrest]
    | comparisonExpr op => cases op <;> cases htype
    | _ => cases htype
  | notEqualsExpr key value =>
    cases b with
    | notEqualsExpr key' value' =>
      rw [show key = key' from hkey, show value = value' from hrest]
    | comparisonExpr op => cases op <;> cases htype
    | _ => cases htype
  | regexExpr key r =>
    cases b with
    | regexExpr key' r' =>
      obtain rfl : key = key' := hkey
      rw [hregex key r r' (.inl ha) (.inl hb) (hstring _ _ hrest)]
    | comparisonExpr op => cases op <;> cases htype
    | _ => cases htype
  | notRegexExpr key r =>
    cases b with
    | notRegexExpr key' r' =>
      obtain rfl : key = key' := hkey
      rw [hregex key r r' (.inr ha) (.inr hb) (hstring _ _ hrest)]
    | comparisonExpr op => cases op <;> cases htype
    | _ => cases htype
  | inExpr key valueKey =>
    cases b with
    | inExpr key' valueKey' =>
      rw [show key = key' from hkey, hstring valueKey valueKey' hrest]
    | comparisonExpr op => cases op <;> cases htype
    | _ => cases htype
  | notInExpr key valueKey =>
    cases b with
    | notInExpr key' valueKey' =>
      rw [show key = key' from hkey, hstring valueKey valueKey' hrest]
    | comparisonExpr op => cases op <;> cases htype
    | _ => cases htype
  | comparisonExpr op key value =>
    cases b with
    | comparisonExpr op' key' value' =>
      rw [hop op op' htype, show key = key' from hkey, toValue_injective hrest]
    | _ => cases op <;> cases htype

theorem atom_equals_iff : a.equals b = true ↔ a = b := by
  constructor
  · intro heq
    refine eq_of_atom_equals (fun key r r' hr hsource => ?_) heq
    rcases hr with ⟨rfl, rfl⟩ | ⟨rfl, rfl⟩
    · exact h.flags key r r' (.inl ha) (.inl hb) hsource
    · exact h.flags key r r' (.inr ha) (.inr hb) hsource
  · rintro rfl
    have hself := (h.values a a ha ha rfl rfl).strictEquals_self
    cases a <;> simp_all [Atom.equals, Atom.rest]

theorem atom_cmp_eq_zero : a.cmp E b = 0 ↔ a = b := by
  rw [(agrees_atomRank h).eq_zero ha hb]
  exact ⟨eq_of_atomRank h ha hb, fun heq => heq ▸ rfl⟩

end ToldApart

end Order

end CodeOss.ContextKeys
