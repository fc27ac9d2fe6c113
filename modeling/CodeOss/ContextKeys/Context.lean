import CodeOss.Base.JsString

/-! Contexts: the values that context keys hold, and what the language makes of them. The
conversions of the language between texts, numbers and objects are the fields of `Engine`. -/

namespace CodeOss.ContextKeys

/-- A number, or `none` for `NaN`. -/
abbrev JsNumber := Option (WithBot (WithTop ℚ))

namespace JsNumber

def lt : JsNumber → JsNumber → Bool
  | some a, some b => a < b
  | _, _ => false

def le : JsNumber → JsNumber → Bool
  | some a, some b => a ≤ b
  | _, _ => false

def eq : JsNumber → JsNumber → Bool
  | some a, some b => a = b
  | _, _ => false

end JsNumber

inductive Primitive where
  | undefined
  | null
  | boolean (b : Bool)
  | number (n : JsNumber)
  | string (s : JsString)
deriving DecidableEq

/-- A `ContextKeyValue`. Arrays and records have an identity. -/
inductive Value where
  | primitive (p : Primitive)
  | array (id : Nat) (items : List Primitive)
  | record (id : Nat) (fields : List (JsString × Primitive))
deriving DecidableEq

/-- A regular expression without the flags `g` and `y`, so that `test` keeps no state. Its
source is not empty, as that of `new RegExp('')` is `(?:)`. -/
structure RegExp where
  source : JsString
  flags : JsString
  source_ne : source ≠ []
  stateless : ∀ flag ∈ flags, flag ≠ 103 ∧ flag ≠ 121
deriving DecidableEq

structure Engine where
  isWindows : Bool
  /-- The number a text stands for as a whole, `NaN` if it stands for none. -/
  toNumber : JsString → JsNumber
  /-- `parseFloat` of a value, made a text. -/
  parseFloat : Value → JsNumber
  /-- The primitive that stands for an array or a record in a comparison. -/
  toPrimitive : Value → Primitive
  test : RegExp → Value → Bool
  toLowerCase : JsString → JsString

namespace Primitive

def truthy : Primitive → Bool
  | undefined => false
  | null => false
  | boolean b => b
  | number n => n ≠ none ∧ n ≠ some 0
  | string s => s ≠ []

def strictEquals : Primitive → Primitive → Bool
  | number a, number b => a.eq b
  | a, b => a = b

section Conversions

variable (E : Engine)

def toNumeric : Primitive → JsNumber
  | undefined => none
  | null => some 0
  | boolean b => if b then some 1 else some 0
  | number n => n
  | string s => E.toNumber s

def looseEquals : Primitive → Primitive → Bool
  | undefined, undefined => true
  | undefined, null => true
  | null, undefined => true
  | null, null => true
  | undefined, _ => false
  | null, _ => false
  | _, undefined => false
  | _, null => false
  | string a, string b => a = b
  | a, b => (a.toNumeric E).eq (b.toNumeric E)

def lessThan : Primitive → Primitive → Bool
  | string a, string b => a.codes < b.codes
  | a, b => (a.toNumeric E).lt (b.toNumeric E)

end Conversions

end Primitive

namespace Value

def undefined : Value := primitive .undefined

def string (s : JsString) : Value := primitive (.string s)

def number (n : JsNumber) : Value := primitive (.number n)

def boolean (b : Bool) : Value := primitive (.boolean b)

def truthy : Value → Bool
  | primitive p => p.truthy
  | _ => true

def strictEquals : Value → Value → Bool
  | primitive p, primitive q => p.strictEquals q
  | a, b => a = b

variable (E : Engine)

def asPrimitive : Value → Primitive
  | primitive p => p
  | v => E.toPrimitive v

/-- `==`: two objects are equal if they are the same, and an object is compared with a
primitive that is not `undefined` or `null` as the primitive it stands for. -/
def looseEquals : Value → Value → Bool
  | primitive p, primitive q => p.looseEquals E q
  | primitive .undefined, _ => false
  | primitive .null, _ => false
  | _, primitive .undefined => false
  | _, primitive .null => false
  | primitive p, v => p.looseEquals E (E.toPrimitive v)
  | v, primitive p => (E.toPrimitive v).looseEquals E p
  | a, b => a = b

def lessThan (a b : Value) : Bool := (a.asPrimitive E).lessThan E (b.asPrimitive E)

end Value

abbrev Context := JsString → Value

end CodeOss.ContextKeys
