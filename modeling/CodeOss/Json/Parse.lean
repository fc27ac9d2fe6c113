import CodeOss.Json.Visit
import CodeOss.Base.JsMap

/-! The two readers of a text: `parse` builds the value, `parseTree` the nodes.
An open object or array is a frame of a stack and joins its parent when it is
closed; in the source it is there from its begin on, but nothing is written to
the parent before. -/

namespace CodeOss.Json

open CharacterCodes

variable {ν : Type}

inductive JsValue (ν : Type)
  | undefined
  | null
  | boolean (b : Bool)
  | number (n : ν)
  | string (s : JsString)
  | array (els : List (JsValue ν))
  | object (members : List (JsString × JsValue ν))

def Literal.value (literal : Literal ν) : JsValue ν :=
  match literal with
  | .null => .null
  | .boolean b => .boolean b
  | .number n => .number n
  | .string s => .string s

/-- `__proto__`, which is no own property of an object that has a prototype. -/
def protoKey : JsString := [0x5F, 0x5F, 0x70, 0x72, 0x6F, 0x74, 0x6F, 0x5F, 0x5F]

structure ParseError where
  error : ParseErrorCode
  offset : Nat
  length : Nat
deriving DecidableEq, Repr

/-- What `onError` collects, the same for both readers. -/
def parseErrors (events : List (Event ν)) : List ParseError :=
  events.filterMap fun event =>
    match event with
    | .onError error offset length => some ⟨error, offset, length⟩
    | _ => none

namespace Parse

inductive Parent (ν : Type)
  | array (els : List (JsValue ν))
  | object (members : List (JsString × JsValue ν))

def Parent.value (parent : Parent ν) : JsValue ν :=
  match parent with
  | .array els => .array els
  | .object members => .object members

/-- `currentParent[name] = value` on an object made by `{}`. -/
def assign (members : List (JsString × JsValue ν)) (name : JsString) (value : JsValue ν) :
    List (JsString × JsValue ν) :=
  if name = protoKey then members else JsMap.upsert name value members

def Parent.onValue (parent : Parent ν) (currentProperty : Option JsString) (value : JsValue ν) :
    Parent ν :=
  match parent, currentProperty with
  | .array els, _ => .array (els ++ [value])
  | .object members, some name => .object (assign members name value)
  | .object members, none => .object members

/-- A previous parent waits for its child together with the property it goes to. -/
structure State (ν : Type) where
  currentProperty : Option JsString
  currentParent : Parent ν
  previousParents : List (Parent ν × Option JsString)

def State.initial : State ν := ⟨none, .array [], []⟩

def State.begin (s : State ν) (child : Parent ν) : State ν :=
  ⟨none, child, (s.currentParent, s.currentProperty) :: s.previousParents⟩

/-- `none` where no parent is left. -/
def State.finish (s : State ν) : Option (State ν) :=
  match s.previousParents with
  | [] => none
  | (parent, name) :: previous =>
    some ⟨s.currentProperty, parent.onValue name s.currentParent.value, previous⟩

def State.visit (s : State ν) (event : Event ν) : Option (State ν) :=
  match event with
  | .onObjectBegin _ _ => some (s.begin (.object []))
  | .onObjectProperty name _ _ => some { s with currentProperty := some name }
  | .onObjectEnd _ _ => s.finish
  | .onArrayBegin _ _ => some (s.begin (.array []))
  | .onArrayEnd _ _ => s.finish
  | .onLiteralValue value _ _ =>
    some { s with currentParent := s.currentParent.onValue s.currentProperty value.value }
  | .onSeparator _ _ _ => some s
  | .onComment _ _ => some s
  | .onError _ _ _ => some s

def State.result (s : State ν) : JsValue ν :=
  match s.currentParent with
  | .array els => els.headD .undefined
  | .object members => (members.lookup [0x30]).getD .undefined

def build (events : List (Event ν)) : Option (JsValue ν) :=
  (events.foldlM State.visit State.initial).map State.result

end Parse

inductive NodeType
  | object
  | array
  | property
  | string
  | number
  | boolean
  | null
deriving DecidableEq, Repr

inductive Node (ν : Type)
  | literal (value : Literal ν) (offset length : Int)
  | container (type : NodeType) (offset length : Int) (colonOffset : Option Int)
      (children : List (Node ν))

namespace Node

variable (node : Node ν)

def offset : Int :=
  match node with
  | .literal _ offset _ => offset
  | .container _ offset _ _ _ => offset

def length : Int :=
  match node with
  | .literal _ _ length => length
  | .container _ _ length _ _ => length

def stop : Int := node.offset + node.length

def value : JsValue ν :=
  match node with
  | .literal value _ _ => value.value
  | .container _ _ _ _ _ => .undefined

end Node

namespace ParseTree

/-- A node that is still open: its length is `-1`, and its last child may be open too. -/
structure Frame (ν : Type) where
  type : NodeType
  offset : Int
  colonOffset : Option Int
  children : List (Node ν)

structure State (ν : Type) where
  currentParent : Frame ν
  parents : List (Frame ν)

/-- The artificial root. -/
def State.initial : State ν := ⟨⟨.array, -1, none, []⟩, []⟩

def Frame.onValue (frame : Frame ν) (node : Node ν) : Frame ν :=
  { frame with children := frame.children ++ [node] }

variable (s : State ν)

def State.onValue (node : Node ν) : State ν :=
  { s with currentParent := s.currentParent.onValue node }

def State.begin (type : NodeType) (offset : Int) (children : List (Node ν)) : State ν :=
  ⟨⟨type, offset, none, children⟩, s.currentParent :: s.parents⟩

def Frame.close (frame : Frame ν) (endOffset : Int) : Node ν :=
  .container frame.type frame.offset (endOffset - frame.offset) frame.colonOffset frame.children

/-- The length is set and the parent becomes current; `none` where there is no parent. -/
def State.finish (endOffset : Int) : Option (State ν) :=
  match s.parents with
  | [] => none
  | parent :: parents => some ⟨parent.onValue (s.currentParent.close endOffset), parents⟩

def State.ensurePropertyComplete (endOffset : Int) : Option (State ν) :=
  if s.currentParent.type = .property then s.finish endOffset else some s

def State.visit (event : Event ν) : Option (State ν) :=
  match event with
  | .onObjectBegin offset _ => some (s.begin .object offset [])
  | .onObjectProperty name offset length =>
    some (s.begin .property offset [.literal (.string name) offset length])
  | .onObjectEnd offset length | .onArrayEnd offset length => do
      let s ← s.finish (offset + length)
      s.ensurePropertyComplete (offset + length)
  | .onArrayBegin offset _ => some (s.begin .array offset [])
  | .onLiteralValue value offset length =>
    (s.onValue (.literal value offset length)).ensurePropertyComplete (offset + length)
  | .onSeparator sep offset _ =>
    if s.currentParent.type = .property then
      if sep = colon then
        some { s with currentParent := { s.currentParent with colonOffset := some offset } }
      else if sep = comma then s.ensurePropertyComplete offset
      else some s
    else some s
  | .onComment _ _ => some s
  | .onError _ _ _ => some s

def build (events : List (Event ν)) : Option (Option (Node ν)) :=
  (events.foldlM State.visit State.initial).map (fun s => s.currentParent.children.head?)

end ParseTree

section Readers

variable (numbers : Numbers ν) (options : ParseOptions)

/-- The value and the errors; `none` is a `TypeError`. -/
def parse (text : JsString) : Option (JsValue ν × List ParseError) := do
  let events ← visit numbers options text
  let value ← Parse.build events
  return (value, parseErrors events)

def parseTree (text : JsString) : Option (Option (Node ν) × List ParseError) := do
  let events ← visit numbers options text
  let root ← ParseTree.build events
  return (root, parseErrors events)

def propertyKey (value : JsValue ν) : JsString :=
  match value with
  | .string s => s
  | .number n => numbers.toString n
  | .boolean true => [0x74, 0x72, 0x75, 0x65]
  | .boolean false => [0x66, 0x61, 0x6C, 0x73, 0x65]
  | .null => [0x6E, 0x75, 0x6C, 0x6C]
  | _ => [0x75, 0x6E, 0x64, 0x65, 0x66, 0x69, 0x6E, 0x65, 0x64]

mutual

/-- `none` is a `TypeError`. -/
def getNodeValue (node : Node ν) : Option (JsValue ν) :=
  match node with
  | .literal value _ _ => some value.value
  | .container type _ _ _ children =>
    match type with
    | .array => (getNodeValues children).map .array
    | .object => (getPropertyValues [] children).map .object
    | _ => some .undefined

def getNodeValues (children : List (Node ν)) : Option (List (JsValue ν)) :=
  match children with
  | [] => some []
  | node :: rest => do
      let value ← getNodeValue node
      let values ← getNodeValues rest
      return value :: values

/-- The loop over the properties of an object made by `Object.create(null)`. -/
def getPropertyValues (obj : List (JsString × JsValue ν)) (children : List (Node ν)) :
    Option (List (JsString × JsValue ν)) :=
  match children with
  | [] => some obj
  | .literal _ _ _ :: _ => none
  | .container _ _ _ _ (key :: valueNode :: _) :: rest => do
      let value ← getNodeValue valueNode
      getPropertyValues (JsMap.upsert (propertyKey numbers key.value) value obj) rest
  | .container _ _ _ _ _ :: rest => getPropertyValues obj rest

end

end Readers

end CodeOss.Json
