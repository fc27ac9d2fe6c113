import CodeOss.ContextKeys.Expressions

/-! How expressions are made: the `create` functions, `negate` and `substituteConstants`. A
conjunction is normalised with disjunctions and negations of its parts, and the other way
round; `depth` bounds how often that goes on, and below it the operands stay as they are. -/

namespace CodeOss.ContextKeys

open ContextKeyExpression

section Atoms

variable (constants : JsString → Option Bool)

def constantExpr (b : Bool) : ContextKeyExpression := if b then trueExpr else falseExpr

def booleanText (b : Bool) : JsString :=
  if b then [116, 114, 117, 101] else [102, 97, 108, 115, 101]

variable (key : JsString)

def ContextKeyDefinedExpr.create : ContextKeyExpression :=
  match constants key with
  | some constantValue => constantExpr constantValue
  | none => atom (.definedExpr key)

def ContextKeyNotExpr.create : ContextKeyExpression :=
  match constants key with
  | some constantValue => constantExpr (!constantValue)
  | none => atom (.notExpr key)

def ContextKeyEqualsExpr.create (value : Value) : ContextKeyExpression :=
  match value with
  | .primitive (.boolean true) => ContextKeyDefinedExpr.create constants key
  | .primitive (.boolean false) => ContextKeyNotExpr.create constants key
  | _ =>
    match constants key with
    | some constantValue =>
      constantExpr (value.strictEquals (.string (booleanText constantValue)))
    | none => atom (.equalsExpr key value)

def ContextKeyNotEqualsExpr.create (value : Value) : ContextKeyExpression :=
  match value with
  | .primitive (.boolean true) => ContextKeyNotExpr.create constants key
  | .primitive (.boolean false) => ContextKeyDefinedExpr.create constants key
  | _ =>
    match constants key with
    | some constantValue =>
      constantExpr (!value.strictEquals (.string (booleanText constantValue)))
    | none => atom (.notEqualsExpr key value)

def ContextKeyInExpr.create (key valueKey : JsString) : ContextKeyExpression :=
  atom (.inExpr key valueKey)

def ContextKeyNotInExpr.create (key valueKey : JsString) : ContextKeyExpression :=
  atom (.notInExpr key valueKey)

def ContextKeyRegexExpr.create (regexp : Option RegExp) : ContextKeyExpression :=
  atom (.regexExpr key regexp)

variable (E : Engine)

def withFloatOrStr (value : Value)
    (callback : FloatOrStr → ContextKeyExpression) : ContextKeyExpression :=
  match value with
  | .primitive (.string s) =>
    match E.parseFloat value with
    | some n => callback (.float (some n))
    | none => callback (.str s)
  | .primitive (.number n) => callback (.float n)
  | _ => falseExpr

/-- `create` of the four comparisons. -/
def createComparison (op : Comparison) (key : JsString) (value : Value) : ContextKeyExpression :=
  withFloatOrStr E value fun value => atom (.comparisonExpr op key value)

def ContextKeyGreaterExpr.create := createComparison E .greater

def ContextKeyGreaterEqualsExpr.create := createComparison E .greaterEquals

def ContextKeySmallerExpr.create := createComparison E .smaller

def ContextKeySmallerEqualsExpr.create := createComparison E .smallerEquals

def Comparison.negate : Comparison → Comparison
  | greater => smallerEquals
  | greaterEquals => smaller
  | smaller => greaterEquals
  | smallerEquals => greater

def Atom.negate : Atom → ContextKeyExpression
  | definedExpr key => ContextKeyNotExpr.create constants key
  | notExpr key => ContextKeyDefinedExpr.create constants key
  | equalsExpr key value => ContextKeyNotEqualsExpr.create constants key value
  | notEqualsExpr key value => ContextKeyEqualsExpr.create constants key value
  | regexExpr key regexp => atom (.notRegexExpr key regexp)
  | notRegexExpr key regexp => atom (.regexExpr key regexp)
  | inExpr key valueKey => ContextKeyNotInExpr.create key valueKey
  | notInExpr key valueKey => ContextKeyInExpr.create key valueKey
  | comparisonExpr op key value => createComparison E op.negate key value.toValue

def Atom.substituteConstants : Atom → ContextKeyExpression
  | definedExpr key =>
    match constants key with
    | some constantValue => constantExpr constantValue
    | none => atom (.definedExpr key)
  | notExpr key =>
    match constants key with
    | some constantValue => constantExpr (!constantValue)
    | none => atom (.notExpr key)
  | equalsExpr key value =>
    match constants key with
    | some constantValue =>
      constantExpr (value.strictEquals (.string (booleanText constantValue)))
    | none => atom (.equalsExpr key value)
  | notEqualsExpr key value =>
    match constants key with
    | some constantValue =>
      constantExpr (!value.strictEquals (.string (booleanText constantValue)))
    | none => atom (.notEqualsExpr key value)
  | a => atom a

end Atoms

section Arrays

/-- The operands of a conjunction and whether there was a `true`, or `none` for a `false`. -/
def operandsOfAnd : List (Option ContextKeyExpression) → Option (List ContextKeyExpression × Bool)
  | [] => some ([], false)
  | none :: es => operandsOfAnd es
  | some trueExpr :: es => (operandsOfAnd es).map fun r => (r.1, true)
  | some falseExpr :: _ => none
  | some (andExpr xs _) :: es => (operandsOfAnd es).map fun r => (xs ++ r.1, r.2)
  | some e :: es => (operandsOfAnd es).map fun r => (e :: r.1, r.2)

/-- The operands of a disjunction and whether there was a `false`, or `none` for a `true`. -/
def operandsOfOr : List (Option ContextKeyExpression) → Option (List ContextKeyExpression × Bool)
  | [] => some ([], false)
  | none :: es => operandsOfOr es
  | some falseExpr :: es => (operandsOfOr es).map fun r => (r.1, true)
  | some trueExpr :: _ => none
  | some (orExpr xs _) :: es => (operandsOfOr es).map fun r => (xs ++ r.1, r.2)
  | some e :: es => (operandsOfOr es).map fun r => (e :: r.1, r.2)

/-- `sort(cmp)`, which is stable. -/
def sortExpr (E : Engine) (expr : List ContextKeyExpression) : List ContextKeyExpression :=
  expr.insertionSort fun a b => ContextKeyExpression.cmp E a b ≤ 0

/-- The loop over an array that removes an element which equals the one before. -/
def withoutDuplicates : List ContextKeyExpression → List ContextKeyExpression
  | [] => []
  | a :: rest => a :: go a rest
where
  go : ContextKeyExpression → List ContextKeyExpression → List ContextKeyExpression
    | _, [] => []
    | a, b :: rest => if a.equals b then go a rest else b :: go b rest

/-- An element equals the negation of an earlier one. -/
def hasComplement (negate : ContextKeyExpression → ContextKeyExpression) :
    List ContextKeyExpression → Bool
  | [] => false
  | a :: rest => rest.any (fun b => (negate a).equals b) || hasComplement negate rest

end Arrays

section Normalise

variable (E : Engine)

/-- `ContextKeyOrExpr._normalizeArr`, for a given `negate`. -/
def normalizeOr (negate : ContextKeyExpression → ContextKeyExpression)
    (arr : List (Option ContextKeyExpression)) (negated : Option ContextKeyExpression)
    (extraRedundantCheck : Bool) : Option ContextKeyExpression :=
  match operandsOfOr arr with
  | none => some trueExpr
  | some (expr, hasFalse) =>
    if expr = [] ∧ hasFalse then some falseExpr
    else
      match withoutDuplicates (sortExpr E expr) with
      | [] => none
      | [e] => some e
      | e :: e' :: rest =>
        if extraRedundantCheck && hasComplement negate (e :: e' :: rest) then some trueExpr
        else some (orExpr (e :: e' :: rest) negated)

/-- The loop of `ContextKeyAndExpr._normalizeArr` that distributes the last element over the
one before it while it is a disjunction. Each round takes two elements and adds one. -/
def distribute (and : List (Option ContextKeyExpression) → Option ContextKeyExpression)
    (or : List (Option ContextKeyExpression) → Bool → Option ContextKeyExpression) :
    Nat → List ContextKeyExpression → List ContextKeyExpression
  | 0, expr => expr
  | rounds + 1, expr =>
    match expr.reverse with
    | orExpr xs _ :: secondToLastElement :: rest =>
      let resultElement :=
        or (xs.map fun el => and [some el, some secondToLastElement]) rest.isEmpty
      match resultElement with
      | some result => distribute and or rounds (sortExpr E (rest.reverse ++ [result]))
      | none => distribute and or rounds rest.reverse
    | _ => expr

/-- `ContextKeyAndExpr._normalizeArr`, for given functions on what it makes on the way. -/
def normalizeAnd (and : List (Option ContextKeyExpression) → Option ContextKeyExpression)
    (or : List (Option ContextKeyExpression) → Bool → Option ContextKeyExpression)
    (negate : ContextKeyExpression → ContextKeyExpression)
    (arr : List (Option ContextKeyExpression)) (negated : Option ContextKeyExpression)
    (extraRedundantCheck : Bool) : Option ContextKeyExpression :=
  match operandsOfAnd arr with
  | none => some falseExpr
  | some (expr, hasTrue) =>
    if expr = [] ∧ hasTrue then some trueExpr
    else
      match withoutDuplicates (sortExpr E expr) with
      | [] => none
      | [e] => some e
      | e :: e' :: rest =>
        match distribute E and or (rest.length + 2) (e :: e' :: rest) with
        | [f] => some f
        | expr =>
          if extraRedundantCheck && hasComplement negate expr then some falseExpr
          else some (andExpr expr negated)

end Normalise

section Negate

def getTerminals (node : ContextKeyExpression) : List ContextKeyExpression :=
  match node with
  | orExpr xs _ => xs
  | e => [e]

variable (E : Engine) (constants : JsString → Option Bool)
  (and : List (Option ContextKeyExpression) → Option ContextKeyExpression)
  (or : List (Option ContextKeyExpression) → Option ContextKeyExpression → Bool →
    Option ContextKeyExpression)

/-- The disjunction of two negations, in the loop of `ContextKeyOrExpr.negate`. -/
def distributeTerminals (left right : ContextKeyExpression) : ContextKeyExpression :=
  (or ((getTerminals left).flatMap fun l =>
    (getTerminals right).map fun r => and [some l, some r]) none false).getD trueExpr

mutual

/-- `negate`, for given functions on what it makes on the way. -/
def negateWith : ContextKeyExpression → ContextKeyExpression
  | falseExpr => trueExpr
  | trueExpr => falseExpr
  | atom a => a.negate constants E
  | andExpr _ (some negated) => negated
  | andExpr xs none =>
    (or ((negateAll xs).map some) (some (andExpr xs none)) true).getD falseExpr
  | orExpr _ (some negated) => negated
  | orExpr xs none =>
    match negateAll xs with
    | [] => trueExpr
    | e :: rest =>
      (or [some (rest.foldl (distributeTerminals and or) e)]
        (some (orExpr xs none)) true).getD trueExpr

def negateAll : List ContextKeyExpression → List ContextKeyExpression
  | [] => []
  | x :: xs => negateWith x :: negateAll xs

end

end Negate

section Create

variable (E : Engine) (constants : JsString → Option Bool)

mutual

def createAnd : Nat → List (Option ContextKeyExpression) → Option ContextKeyExpression → Bool →
    Option ContextKeyExpression
  | 0, arr, negated, _ =>
    if arr.reduceOption = [] then none else some (andExpr (arr.reduceOption) negated)
  | depth + 1, arr, negated, extraRedundantCheck =>
    normalizeAnd E (fun arr => createAnd depth arr none extraRedundantCheck)
      (fun arr isFinished => createOr depth arr none isFinished)
      (negateWith E constants (fun arr => createAnd depth arr none false) (createOr depth))
      arr negated extraRedundantCheck

def createOr : Nat → List (Option ContextKeyExpression) → Option ContextKeyExpression → Bool →
    Option ContextKeyExpression
  | 0, arr, negated, _ =>
    if arr.reduceOption = [] then none else some (orExpr (arr.reduceOption) negated)
  | depth + 1, arr, negated, extraRedundantCheck =>
    normalizeOr E
      (negateWith E constants (fun arr => createAnd depth arr none false) (createOr depth))
      arr negated extraRedundantCheck

end

variable (depth : Nat)

def ContextKeyExpression.negate : ContextKeyExpression → ContextKeyExpression :=
  negateWith E constants (fun arr => createAnd E constants (depth + 1) arr none false)
    (createOr E constants (depth + 1))

def ContextKeyExpr.and (expr : List (Option ContextKeyExpression)) : Option ContextKeyExpression :=
  createAnd E constants (depth + 1) expr none true

def ContextKeyExpr.or (expr : List (Option ContextKeyExpression)) : Option ContextKeyExpression :=
  createOr E constants (depth + 1) expr none true

end Create

end CodeOss.ContextKeys
