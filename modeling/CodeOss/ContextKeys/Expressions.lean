import CodeOss.ContextKeys.Context

/-! Context key expressions: their classes with `cmp`, `equals` and `evaluate`. The classes
without operands that are expressions are the atoms. -/

namespace CodeOss.ContextKeys

inductive Comparison where
  | greater
  | greaterEquals
  | smaller
  | smallerEquals
deriving DecidableEq

inductive FloatOrStr where
  | float (n : JsNumber)
  | str (s : JsString)
deriving DecidableEq

def FloatOrStr.toValue : FloatOrStr → Value
  | float n => .number n
  | str s => .string s

inductive Atom where
  | definedExpr (key : JsString)
  | notExpr (key : JsString)
  | equalsExpr (key : JsString) (value : Value)
  | notEqualsExpr (key : JsString) (value : Value)
  | regexExpr (key : JsString) (regexp : Option RegExp)
  | notRegexExpr (key : JsString) (regexp : Option RegExp)
  | inExpr (key valueKey : JsString)
  | notInExpr (key valueKey : JsString)
  | comparisonExpr (op : Comparison) (key : JsString) (value : FloatOrStr)
deriving DecidableEq

/-- `negated` is the cached negation of an expression, if there is one. That of an atom is what
`negate` makes anew. -/
inductive ContextKeyExpression where
  | falseExpr
  | trueExpr
  | atom (a : Atom)
  | andExpr (expr : List ContextKeyExpression) (negated : Option ContextKeyExpression)
  | orExpr (expr : List ContextKeyExpression) (negated : Option ContextKeyExpression)

def cmp1 (key1 key2 : JsString) : Int :=
  if key1.codes < key2.codes then -1 else if key2.codes < key1.codes then 1 else 0

section Cmp

variable (E : Engine)

def cmp2 (key1 : JsString) (value1 : Value) (key2 : JsString) (value2 : Value) : Int :=
  if key1.codes < key2.codes then -1
  else if key2.codes < key1.codes then 1
  else if value1.lessThan E value2 then -1
  else if value2.lessThan E value1 then 1
  else 0

end Cmp

/-- The source of a regular expression, or nothing. -/
def sourceOf (regexp : Option RegExp) : JsString := (regexp.map RegExp.source).getD []

def cmpRegex (key1 : JsString) (regexp1 : Option RegExp) (key2 : JsString)
    (regexp2 : Option RegExp) : Int :=
  if key1.codes < key2.codes then -1
  else if key2.codes < key1.codes then 1
  else cmp1 (sourceOf regexp1) (sourceOf regexp2)

def Comparison.type : Comparison → Int
  | greater => 12
  | greaterEquals => 13
  | smaller => 14
  | smallerEquals => 15

namespace Atom

def type : Atom → Int
  | definedExpr _ => 2
  | notExpr _ => 3
  | equalsExpr _ _ => 4
  | notEqualsExpr _ _ => 5
  | regexExpr _ _ => 7
  | notRegexExpr _ _ => 8
  | inExpr _ _ => 10
  | notInExpr _ _ => 11
  | comparisonExpr op _ _ => op.type

section Engine

variable (E : Engine)

def cmp : Atom → Atom → Int
  | definedExpr key, definedExpr key' => cmp1 key key'
  | notExpr key, notExpr key' => cmp1 key key'
  | equalsExpr key value, equalsExpr key' value' => cmp2 E key value key' value'
  | notEqualsExpr key value, notEqualsExpr key' value' => cmp2 E key value key' value'
  | regexExpr key regexp, regexExpr key' regexp' => cmpRegex key regexp key' regexp'
  | notRegexExpr key regexp, notRegexExpr key' regexp' => cmpRegex key regexp key' regexp'
  | inExpr key valueKey, inExpr key' valueKey' =>
    cmp2 E key (.string valueKey) key' (.string valueKey')
  | notInExpr key valueKey, notInExpr key' valueKey' =>
    cmp2 E key (.string valueKey) key' (.string valueKey')
  | comparisonExpr op key value, comparisonExpr op' key' value' =>
    if op = op' then cmp2 E key value.toValue key' value'.toValue else op.type - op'.type
  | a, b => a.type - b.type

def equals : Atom → Atom → Bool
  | definedExpr key, definedExpr key' => key = key'
  | notExpr key, notExpr key' => key = key'
  | equalsExpr key value, equalsExpr key' value' => key = key' && value.strictEquals value'
  | notEqualsExpr key value, notEqualsExpr key' value' =>
    key = key' && value.strictEquals value'
  | regexExpr key regexp, regexExpr key' regexp' =>
    key = key' && sourceOf regexp = sourceOf regexp'
  | notRegexExpr key regexp, notRegexExpr key' regexp' =>
    key = key' && sourceOf regexp = sourceOf regexp'
  | inExpr key valueKey, inExpr key' valueKey' => key = key' && valueKey = valueKey'
  | notInExpr key valueKey, notInExpr key' valueKey' => key = key' && valueKey = valueKey'
  | comparisonExpr op key value, comparisonExpr op' key' value' =>
    op = op' && key = key' && value.toValue.strictEquals value'.toValue
  | _, _ => false

def fileScheme : JsString := [102, 105, 108, 101, 58, 47, 47, 47]

def evaluateIn (source item : Value) : Bool :=
  match source, item with
  | .array _ items, .primitive (.string s) =>
    items.contains (.string s) ||
      (E.isWindows && fileScheme.isPrefixOf s && items.any fun
        | .string t => E.toLowerCase t = E.toLowerCase s
        | _ => false)
  | .array _ items, .primitive p => items.contains p
  | .record _ fields, .primitive (.string s) =>
    fields.any (fun field => field.1 = s) ||
      (E.isWindows && fileScheme.isPrefixOf s && fields.any fun field =>
        E.toLowerCase field.1 = E.toLowerCase s)
  | _, _ => false

/-- A comparison with a text is false, and so is one of `NaN`. -/
def evaluateComparison (op : Comparison) (item : Value) : FloatOrStr → Bool
  | .str _ => false
  | .float n =>
    match op with
    | .greater => n.lt (E.parseFloat item)
    | .greaterEquals => n.le (E.parseFloat item)
    | .smaller => (E.parseFloat item).lt n
    | .smallerEquals => (E.parseFloat item).le n

def evaluateRegex (regexp : Option RegExp) (item : Value) : Bool :=
  match regexp with
  | some r => E.test r item
  | none => false

def evaluate (context : Context) : Atom → Bool
  | definedExpr key => (context key).truthy
  | notExpr key => !(context key).truthy
  | equalsExpr key value => (context key).looseEquals E value
  | notEqualsExpr key value => !(context key).looseEquals E value
  | regexExpr key regexp => evaluateRegex E regexp (context key)
  | notRegexExpr key regexp => !evaluateRegex E regexp (context key)
  | inExpr key valueKey => evaluateIn E (context valueKey) (context key)
  | notInExpr key valueKey => !evaluateIn E (context valueKey) (context key)
  | comparisonExpr op key value => evaluateComparison E op (context key) value

end Engine

end Atom

namespace ContextKeyExpression

def type : ContextKeyExpression → Int
  | falseExpr => 0
  | trueExpr => 1
  | atom a => a.type
  | andExpr _ _ => 6
  | orExpr _ _ => 9

variable (E : Engine)

mutual

def cmp : ContextKeyExpression → ContextKeyExpression → Int
  | atom a, atom b => a.cmp E b
  | andExpr xs _, andExpr ys _ =>
    if xs.length < ys.length then -1
    else if xs.length > ys.length then 1
    else cmpFirst xs ys
  | orExpr xs _, orExpr ys _ =>
    if xs.length < ys.length then -1
    else if xs.length > ys.length then 1
    else cmpFirst xs ys
  | a, b => a.type - b.type

/-- The first comparison of the operands in order that is not 0. -/
def cmpFirst : List ContextKeyExpression → List ContextKeyExpression → Int
  | x :: xs, y :: ys =>
    let r := cmp x y
    if r ≠ 0 then r else cmpFirst xs ys
  | _, _ => 0

end

mutual

def equals : ContextKeyExpression → ContextKeyExpression → Bool
  | falseExpr, falseExpr => true
  | trueExpr, trueExpr => true
  | atom a, atom b => a.equals b
  | andExpr xs _, andExpr ys _ => equalsAll xs ys
  | orExpr xs _, orExpr ys _ => equalsAll xs ys
  | _, _ => false

def equalsAll : List ContextKeyExpression → List ContextKeyExpression → Bool
  | [], [] => true
  | x :: xs, y :: ys => equals x y && equalsAll xs ys
  | _, _ => false

end

mutual

def evaluate (context : Context) : ContextKeyExpression → Bool
  | falseExpr => false
  | trueExpr => true
  | atom a => a.evaluate E context
  | andExpr xs _ => evaluateAll context xs
  | orExpr xs _ => evaluateSome context xs

def evaluateAll (context : Context) : List ContextKeyExpression → Bool
  | [] => true
  | x :: xs => evaluate context x && evaluateAll context xs

def evaluateSome (context : Context) : List ContextKeyExpression → Bool
  | [] => false
  | x :: xs => evaluate context x || evaluateSome context xs

end

variable {E} {context : Context}

theorem evaluateAll_eq (xs : List ContextKeyExpression) :
    evaluateAll E context xs = xs.all (evaluate E context) := by
  induction xs with
  | nil => rfl
  | cons x xs ih => rw [evaluateAll, ih, List.all_cons]

theorem evaluateSome_eq (xs : List ContextKeyExpression) :
    evaluateSome E context xs = xs.any (evaluate E context) := by
  induction xs with
  | nil => rfl
  | cons x xs ih => rw [evaluateSome, ih, List.any_cons]

@[simp] theorem evaluate_andExpr (xs : List ContextKeyExpression)
    (negated : Option ContextKeyExpression) :
    evaluate E context (andExpr xs negated) = xs.all (evaluate E context) := by
  rw [evaluate, evaluateAll_eq]

@[simp] theorem evaluate_orExpr (xs : List ContextKeyExpression)
    (negated : Option ContextKeyExpression) :
    evaluate E context (orExpr xs negated) = xs.any (evaluate E context) := by
  rw [evaluate, evaluateSome_eq]

end ContextKeyExpression

end CodeOss.ContextKeys
