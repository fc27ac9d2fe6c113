import CodeOss.ContextKeys.Context

/-! The trees of settings: a key is split at its dots, and each segment is a property of an
object. The names that every object inherits, and the length of an array, are no settings. -/

namespace CodeOss.Settings

open ContextKeys (Primitive)

mutual

/-- Arrays are objects with the indices as keys. -/
inductive Value where
  | primitive (p : Primitive)
  | object (isArray : Bool) (fields : Fields)

inductive Fields where
  | nil
  | cons (key : JsString) (value : Value) (rest : Fields)

end

deriving instance DecidableEq for Value, Fields

namespace Value

def undefined : Value := primitive .undefined

def truthy : Value → Bool
  | primitive p => p.truthy
  | object _ _ => true

end Value

namespace Fields

def keys : Fields → List JsString
  | nil => []
  | cons key _ rest => key :: rest.keys

def find : Fields → JsString → Option Value
  | nil, _ => none
  | cons key value rest, k => if key = k then some value else rest.find k

/-- The property, `undefined` if there is none. -/
def get (fields : Fields) (key : JsString) : Value := (fields.find key).getD .undefined

def set : Fields → JsString → Value → Fields
  | nil, k, v => cons k v nil
  | cons key value rest, k, v =>
    if key = k then cons key v rest else cons key value (rest.set k v)

def erase : Fields → JsString → Fields
  | nil, _ => nil
  | cons key value rest, k => if key = k then rest else cons key value (rest.erase k)

def ofList : List (JsString × Value) → Fields
  | [] => nil
  | (key, value) :: rest => cons key value (ofList rest)

end Fields

def segmentsOf (key : JsString) : List JsString := key.splitOn 46

def accessSetting : Value → List JsString → Value
  | current, [] => current
  | .primitive _, _ :: _ => .undefined
  | .object _ fields, component :: path => accessSetting (fields.get component) path

def getConfigurationValue (config : Fields) (settingPath : JsString) : Value :=
  accessSetting (.object false config) (segmentsOf settingPath)

def indexText (i : Nat) : JsString := (Nat.toDigits 10 i).map fun c => UInt16.ofNat c.toNat

/-- What `for ... in` goes over: the properties of an object, the characters of a text. -/
def enumerable : Value → Fields
  | .object _ fields => fields
  | .primitive (.string s) =>
    .ofList (s.zipIdx.map fun c => (indexText c.2, .primitive (.string [c.1])))
  | _ => .nil

/-- The loop of `addToValueTree` from an object on, which some objects on the way may refuse
because they are frozen; `none` if it throws. A conflict leaves everything as it is. -/
def addToFields (frozen : List JsString → Bool) :
    List JsString → Fields → Value → Option Fields
  | [], fields, _ => some fields
  | [last], fields, value => if frozen [] then some fields else some (fields.set last value)
  | s :: rest, fields, value =>
    match fields.get s with
    | .primitive .undefined =>
      if frozen [] then none
      else (addToFields (fun _ => false) rest .nil value).map fun obj =>
        fields.set s (.object false obj)
    | .primitive _ => some fields
    | .object isArray obj =>
      (addToFields (fun path => frozen (s :: path)) rest obj value).map fun obj =>
        fields.set s (.object isArray obj)

def addToValueTree (frozen : List JsString → Bool) (settingsTreeRoot : Fields) (key : JsString)
    (value : Value) : Option Fields :=
  addToFields frozen (segmentsOf key) settingsTreeRoot value

/-- A new tree, in which nothing is frozen. -/
def toValuesTree : Fields → Fields
  | properties => go .nil properties
where
  go : Fields → Fields → Fields
    | root, .nil => root
    | root, .cons key value rest =>
      go ((addToValueTree (fun _ => false) root key value).getD root) rest

def doRemoveFromValueTree (frozen : List JsString → Bool) :
    List JsString → Fields → Option Fields
  | [], valueTree => some valueTree
  | [first], valueTree =>
    if frozen [] && (valueTree.find first).isSome then none else some (valueTree.erase first)
  | first :: segments, valueTree =>
    match valueTree.find first with
    | some (.object false value) =>
      (doRemoveFromValueTree (fun path => frozen (first :: path)) segments value).bind
        fun value =>
          if value.keys = [] then
            if frozen [] then none else some (valueTree.erase first)
          else some (valueTree.set first (.object false value))
    | _ => some valueTree

def removeFromValueTree (frozen : List JsString → Bool) (valueTree : Fields) (key : JsString) :
    Option Fields :=
  doRemoveFromValueTree frozen (segmentsOf key) valueTree

mutual

/-- `ConfigurationModel.mergeContents` on the properties of an object. -/
def mergeContents (source : Fields) : Fields → Fields
  | .nil => source
  | .cons key value rest =>
    mergeContents (source.set key (mergeValue (source.find key) value)) rest

/-- The merged property: objects are merged, everything else is replaced. -/
def mergeValue (source : Option Value) : Value → Value
  | .object false target =>
    match source with
    | some (.object false fields) => .object false (mergeContents fields target)
    | _ => .object false target
  | value => value

end

end CodeOss.Settings
