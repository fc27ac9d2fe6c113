import CodeOss.Library.Chain

/-! Maps with an order, and the caches on top of them.
`LinkedMap` keeps its items in a doubly linked list beside a map from the keys to the items. An
operation that gives `none` throws. -/

namespace CodeOss.Maps

open LinkedChain

/-- An item of the list is known by the number under which it was created. -/
abbrev ItemId := ℕ

inductive Touch
  | none
  | asOld
  | asNew
  deriving DecidableEq, Repr

/-- The links of the items: `previous` leads toward the head, `next` toward the tail. -/
abbrev ItemLinks := Links ItemId

namespace ItemLinks

/-- `addItemFirst` at the head, `addItemLast` at the tail. -/
def addItem (s : Side) (item : ItemId) (L : ItemLinks) : Option ItemLinks :=
  if L.ends .head = none ∧ L.ends .tail = none then
    some ((L.setEnd s.other item).setEnd s item)
  else do
    let first ← L.ends s
    return ((L.setToward item s.other first).setToward first s item).setEnd s item

def addItemFirst : ItemId → ItemLinks → Option ItemLinks := addItem .head

def addItemLast : ItemId → ItemLinks → Option ItemLinks := addItem .tail

/-- The item at the side `s`, which is not the only one, gives its place to its neighbour. -/
def detachEnd (s : Side) (item : ItemId) (L : ItemLinks) : Option ItemLinks := do
  let neighbour ← L.toward item s.other
  return (L.setToward neighbour s none).setEnd s neighbour

variable (item : ItemId)

def detachMiddle (L : ItemLinks) : Option ItemLinks := do
  let next ← L.toward item .tail
  let previous ← L.toward item .head
  return (L.setToward next .head previous).setToward previous .tail next

def removeItem (L : ItemLinks) : Option ItemLinks := do
  let L ←
    if L.ends .head = some item ∧ L.ends .tail = some item then
      some ((L.setEnd .head none).setEnd .tail none)
    else if L.ends .head = some item then detachEnd .head item L
    else if L.ends .tail = some item then detachEnd .tail item L
    else detachMiddle item L
  return (L.setToward item .tail none).setToward item .head none

/-- "Unlink the item", which is not the one at the side `s`. -/
def unlinkItem (s : Side) (item : ItemId) (L : ItemLinks) : Option ItemLinks :=
  if L.ends s.other = some item then detachEnd s.other item L else detachMiddle item L

/-- `touch` as old at the head, as new at the tail. -/
def moveTo (s : Side) (item : ItemId) (L : ItemLinks) : Option ItemLinks :=
  if L.ends s = some item then some L
  else do
    let L ← unlinkItem s item L
    let first ← L.ends s
    return (((L.setToward item s none).setToward item s.other first).setToward first s item).setEnd
      s item

def touch (touch : Touch) (L : ItemLinks) : Option ItemLinks :=
  if L.ends .head = none ∨ L.ends .tail = none then none
  else
    match touch with
    | .none => some L
    | .asOld => moveTo .head item L
    | .asNew => moveTo .tail item L

/-- `if (touch !== Touch.None) this.touch(item, touch)`. -/
def touchUnlessNone (touch : Touch) (L : ItemLinks) : Option ItemLinks :=
  if touch = .none then some L else ItemLinks.touch item touch L

end ItemLinks

structure Item (K V : Type) where
  key : K
  value : V

/-- The items that were created stand in `items`; the next one gets the number `created`. -/
structure LinkedMap (K V : Type) where
  items : ItemId → Option (Item K V)
  created : ItemId
  links : ItemLinks
  map : K → Option ItemId
  size : ℤ

namespace LinkedMap

variable {K V : Type} [DecidableEq K]

def new : LinkedMap K V := ⟨fun _ => none, 0, ⟨fun _ => none, fun _ _ => none⟩, fun _ => none, 0⟩

variable (m : LinkedMap K V)

def clear : LinkedMap K V :=
  { m with links := (m.links.setEnd .head none).setEnd .tail none, map := fun _ => none, size := 0 }

def get (key : K) (touch : Touch) : Option (LinkedMap K V × Option V) :=
  match m.map key with
  | none => some (m, none)
  | some id => do
      let links ← ItemLinks.touchUnlessNone id touch m.links
      return ({ m with links }, (m.items id).map (·.value))

def set (key : K) (value : V) (touch : Touch) : Option (LinkedMap K V) :=
  match m.map key with
  | some id => do
      let links ← ItemLinks.touchUnlessNone id touch m.links
      return { m with items := Function.update m.items id (some ⟨key, value⟩), links }
  | none => do
      let id := m.created
      let blank := (m.links.setToward id .tail none).setToward id .head none
      let links ← match touch with
        | .asOld => ItemLinks.addItemFirst id blank
        | _ => ItemLinks.addItemLast id blank
      some
        { items := Function.update m.items id (some ⟨key, value⟩)
          created := id + 1
          links
          map := Function.update m.map key (some id)
          size := m.size + 1 }

def remove (key : K) : Option (LinkedMap K V × Option V) :=
  match m.map key with
  | none => some (m, none)
  | some id => do
      let links ← ItemLinks.removeItem id m.links
      return ({ m with map := Function.update m.map key none, links, size := m.size - 1 },
        (m.items id).map (·.value))

/-- `!!this.remove(key)`, where `truthy` tells the values that are not falsy. -/
def delete (truthy : V → Bool) (m : LinkedMap K V) (key : K) : Option (LinkedMap K V × Bool) := do
  let (m, value) ← m.remove key
  return (m, value.any truthy)

def shift : Option (LinkedMap K V × Option V) :=
  if m.links.ends .head = none ∧ m.links.ends .tail = none then some (m, none)
  else do
    let id ← m.links.ends .head
    let _ ← m.links.ends .tail
    let item ← m.items id
    let links ← ItemLinks.removeItem id m.links
    return ({ m with map := Function.update m.map item.key none, links, size := m.size - 1 },
      some item.value)

/-- The loop of a trim from the side `s`, whose `currentSize` is `n` above the new one. -/
def trimLoop (m : LinkedMap K V) (s : Side) : ℕ → Option ItemId → (K → Option ItemId) → ℤ →
    Option (Option ItemId × (K → Option ItemId) × ℤ)
  | n + 1, some id, map, currentSize => do
      let item ← m.items id
      trimLoop m s n (m.links.toward id s.other) (Function.update map item.key none)
        (currentSize - 1)
  | _, current, map, currentSize => some (current, map, currentSize)

/-- `trimOld` from the head, `trimNew` from the tail. A new size `none` is `NaN`, with which no
comparison holds. -/
def trim (s : Side) (m : LinkedMap K V) (newSize : Option ℤ) : Option (LinkedMap K V) :=
  if newSize.any (m.size ≤ ·) then some m
  else if newSize = some 0 then some m.clear
  else do
    let above := newSize.elim 0 fun n => (m.size - n).toNat
    let (current, map, size) ← m.trimLoop s above (m.links.ends s) m.map m.size
    let links := m.links.setEnd s current
    return { m with map, size, links := current.elim links fun id => links.setToward id s none }

def trimOld : Option ℤ → Option (LinkedMap K V) := m.trim .head

def trimNew : Option ℤ → Option (LinkedMap K V) := m.trim .tail

end LinkedMap

inductive CacheKind
  | lru
  | mru
  deriving DecidableEq, Repr

/-- The ratio is between 0 and 1, or `none` for `NaN`. -/
structure Cache (K V : Type) extends LinkedMap K V where
  limit : ℕ
  ratio : Option ℚ

namespace Cache

variable {K V : Type} [DecidableEq K]

def clamp (ratio : Option ℚ) : Option ℚ := ratio.map fun ratio => min (max 0 ratio) 1

/-- `Math.round`: up from a half. -/
def round (x : ℚ) : ℤ := ⌊x + 1 / 2⌋

def new (limit : ℕ) (ratio : Option ℚ) : Cache K V :=
  { LinkedMap.new with limit, ratio := clamp ratio }

def target (limit : ℕ) (ratio : Option ℚ) : Option ℤ := ratio.map fun ratio => round (limit * ratio)

variable (kind : CacheKind)

def trim (c : Cache K V) (newSize : Option ℤ) : Option (Cache K V) := do
  let m ← match kind with
    | .lru => c.trimOld newSize
    | .mru => c.trimNew newSize
  return { c with toLinkedMap := m }

def checkTrim (c : Cache K V) : Option (Cache K V) :=
  if c.limit < c.size then c.trim kind (target c.limit c.ratio) else some c

def setLimit (c : Cache K V) (limit : ℕ) : Option (Cache K V) :=
  checkTrim kind { c with limit }

def setRatio (c : Cache K V) (ratio : Option ℚ) : Option (Cache K V) :=
  checkTrim kind { c with ratio := clamp ratio }

def peek (c : Cache K V) (key : K) : Option (LinkedMap K V × Option V) := c.get key .none

/-- What `MRUCache.set` does before an entry comes in. -/
def makeRoom (c : Cache K V) (key : K) : Option (Cache K V) :=
  if c.limit ≤ c.size ∧ c.map key = none then
    c.trim .mru ((target c.limit c.ratio).map (· - 1))
  else some c

def set (c : Cache K V) (key : K) (value : V) : Option (Cache K V) :=
  match kind with
  | .lru => do
      let m ← c.toLinkedMap.set key value .asNew
      checkTrim .lru { c with toLinkedMap := m }
  | .mru => do
      let c ← c.makeRoom key
      let m ← c.toLinkedMap.set key value .asNew
      return { c with toLinkedMap := m }

end Cache

end CodeOss.Maps
