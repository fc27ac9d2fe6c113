import CodeOss.SearchTree.KeyIterators

/-! The ternary search tree of `base/common`: a level is an AVL tree over segments, and
the middle child of a node is the level of the next segment. The stacks of the code are
the recursion here, and `none` in the result of an operation is a thrown error. -/

namespace CodeOss

/-- What an `if` makes of a value. -/
class JsTruthy (V : Type) where
  truthy : V → Bool

instance : JsTruthy JsString := ⟨fun s => s ≠ []⟩

namespace Undef

/-- `Undef.Val` is the inner `none`; the outer one is a missing value. -/
abbrev Stored (V : Type) := Option (Option V)

def wrap {V : Type} (value : Option V) : Stored V := some value

def unwrap {V : Type} (value : Stored V) : Option V := value.join

/-- The symbol `Undef.Val` is truthy. -/
def truthy {V : Type} [JsTruthy V] : Stored V → Bool
  | none => false
  | some none => true
  | some (some v) => JsTruthy.truthy v

end Undef

inductive TernarySearchTreeNode (K V : Type) where
  | undefined
  | node (height : Nat) (segment : JsString) (value : Undef.Stored V) (key : Option K)
      (left mid right : TernarySearchTreeNode K V)

inductive Dir where
  | left
  | mid
  | right
deriving DecidableEq

namespace TernarySearchTreeNode

variable {K V : Type}

def height : TernarySearchTreeNode K V → Nat
  | undefined => 0
  | node h _ _ _ _ _ _ => h

def key : TernarySearchTreeNode K V → Option K
  | undefined => none
  | node _ _ _ k _ _ _ => k

def value : TernarySearchTreeNode K V → Undef.Stored V
  | undefined => none
  | node _ _ v _ _ _ _ => v

def mid : TernarySearchTreeNode K V → TernarySearchTreeNode K V
  | undefined => undefined
  | node _ _ _ _ _ m _ => m

def isUndefined : TernarySearchTreeNode K V → Bool
  | undefined => true
  | node _ _ _ _ _ _ _ => false

def updateHeight : TernarySearchTreeNode K V → TernarySearchTreeNode K V
  | undefined => undefined
  | node _ s v k l m r => node (1 + max l.height r.height) s v k l m r

def balanceFactor : TernarySearchTreeNode K V → Int
  | undefined => 0
  | node _ _ _ _ l _ r => r.height - l.height

/-- Fails on a node without a right child. -/
def rotateLeft : TernarySearchTreeNode K V → Option (TernarySearchTreeNode K V)
  | node h s v k l m (node h' s' v' k' l' m' r') =>
    some (updateHeight (node h' s' v' k' (updateHeight (node h s v k l m l')) m' r'))
  | _ => none

/-- Fails on a node without a left child. -/
def rotateRight : TernarySearchTreeNode K V → Option (TernarySearchTreeNode K V)
  | node h s v k (node h' s' v' k' l' m' r') m r =>
    some (updateHeight (node h' s' v' k' l' m' (updateHeight (node h s v k r' m r))))
  | _ => none

/-- A round of the balancing in `set`: the direction taken at the node and, with a child on
the stack, the one taken there. -/
def balanceSet (d₁ : Dir) (d₂ : Option Dir) (n : TernarySearchTreeNode K V) :
    Option (TernarySearchTreeNode K V) :=
  match n.updateHeight with
  | undefined => some undefined
  | node h s v k l m r =>
    let bf := (node h s v k l m r).balanceFactor
    if bf < -1 ∨ bf > 1 then
      match d₁, d₂ with
      | .right, some .right => (node h s v k l m r).rotateLeft
      | .left, some .left => (node h s v k l m r).rotateRight
      | .right, some .left => do (node h s v k l m (← r.rotateRight)).rotateLeft
      | .left, some .right => do (node h s v k (← l.rotateLeft) m r).rotateRight
      | _, _ => none
    else some (node h s v k l m r)

/-- A round of `_balanceByStack`. -/
def balanceByStack (n : TernarySearchTreeNode K V) : Option (TernarySearchTreeNode K V) :=
  match n.updateHeight with
  | undefined => some undefined
  | node h s v k l m r =>
    let bf := (node h s v k l m r).balanceFactor
    if bf > 1 then
      if r.balanceFactor ≥ 0 then (node h s v k l m r).rotateLeft
      else do (node h s v k l m (← r.rotateRight)).rotateLeft
    else if bf < -1 then
      if l.balanceFactor ≤ 0 then (node h s v k l m r).rotateRight
      else do (node h s v k (← l.rotateLeft) m r).rotateRight
    else some (node h s v k l m r)

def min : TernarySearchTreeNode K V → TernarySearchTreeNode K V
  | undefined => undefined
  | node h s v k undefined m r => node h s v k undefined m r
  | node _ _ _ _ l _ _ => l.min

/-- The branch without its `_min`, balanced on the way back up. -/
def removeMin : TernarySearchTreeNode K V → Option (TernarySearchTreeNode K V)
  | undefined => some undefined
  | node _ _ _ _ undefined _ r => some r
  | node h s v k l m r => do balanceByStack (node h s v k (← l.removeMin) m r)

def entries : TernarySearchTreeNode K V → List (Option K × Option V)
  | undefined => []
  | node _ _ v k l m r =>
    l.entries ++ (if v.isNone then [] else [(k, Undef.unwrap v)]) ++ m.entries ++ r.entries

/-- `_isBalanced`, which looks at one level. -/
def isBalanced : TernarySearchTreeNode K V → Bool
  | undefined => true
  | node h s v k l m r =>
    let bf := (node h s v k l m r).balanceFactor
    if bf < -1 ∨ bf > 1 then false else l.isBalanced && r.isBalanced

end TernarySearchTreeNode

namespace TernarySearchTree

open TernarySearchTreeNode

variable {K V σ : Type} (it : IKeyIterator K σ)

def getNodeAt (c : σ) : TernarySearchTreeNode K V → TernarySearchTreeNode K V
  | undefined => undefined
  | node h s v k l m r =>
    let val := it.cmp c s
    if val > 0 then getNodeAt c l
    else if val < 0 then getNodeAt c r
    else if it.hasNext c then getNodeAt (it.next c) m
    else node h s v k l m r

variable (root : TernarySearchTreeNode K V)

def getNode (key : K) : TernarySearchTreeNode K V :=
  getNodeAt it (it.reset key) root

def get (key : K) : Option V :=
  Undef.unwrap (getNode it root key).value

def has (key : K) : Bool :=
  !((getNode it root key).value.isNone && (getNode it root key).mid.isUndefined)

/-- The nodes `set` makes from a missing child on: a chain of middle children. -/
def freshChain (element : Option V) (key : K) : Nat → σ → TernarySearchTreeNode K V
  | 0, c => node 1 (it.value c) (Undef.wrap element) (some key) undefined undefined undefined
  | rounds + 1, c =>
    if it.hasNext c then
      node 1 (it.value c) none none undefined (freshChain element key rounds (it.next c))
        undefined
    else
      node 1 (it.value c) (Undef.wrap element) (some key) undefined undefined undefined

/-- What `set` returns of a subtree: the subtree, the direction taken at its root (`none` at
the node that is set) and the old element. -/
structure SetResult (K V : Type) where
  node : TernarySearchTreeNode K V
  dir : Option Dir
  oldElement : Option V

/-- The loops of `set`, down to the node and back up. -/
def setAt (element : Option V) (key : K) (c : σ) :
    TernarySearchTreeNode K V → Option (SetResult K V)
  | undefined =>
    some ⟨freshChain it element key (it.ahead c) c,
      if it.hasNext c then some .mid else none, none⟩
  | node h s v k l m r =>
    let val := it.cmp c s
    if val > 0 then do
      let below ← setAt element key c l
      some ⟨← balanceSet .left below.dir (node h s v k below.node m r), some .left,
        below.oldElement⟩
    else if val < 0 then do
      let below ← setAt element key c r
      some ⟨← balanceSet .right below.dir (node h s v k l m below.node), some .right,
        below.oldElement⟩
    else if it.hasNext c then do
      let below ← setAt element key (it.next c) m
      some ⟨← balanceSet .mid below.dir (node h s v k l below.node r), some .mid,
        below.oldElement⟩
    else some ⟨node h s (Undef.wrap element) (some key) l m r, none, Undef.unwrap v⟩

def set (key : K) (element : Option V) : Option (TernarySearchTreeNode K V × Option V) :=
  (setAt it element key (it.reset key) root).map fun result =>
    (result.node, result.oldElement)

/-- Fisher–Yates, with the random index for each `i`. -/
def shuffle {α : Type} (draw : Nat → Nat) (array : List α) : List α :=
  go (array.length - 1) array
where
  go : Nat → List α → List α
    | 0, array => array
    | i + 1, array =>
      let j := draw (i + 1) % (i + 2)
      match array[i + 1]?, array[j]? with
      | some a, some b => go i ((array.set (i + 1) b).set j a)
      | _, _ => go i array

/-- `fill` with tuples. -/
def fill (draw : Nat → Nat) (root : TernarySearchTreeNode K V) (values : List (K × Option V)) :
    Option (TernarySearchTreeNode K V) :=
  (shuffle draw values).foldlM
    (fun root entry => (set it root entry.1 entry.2).map Prod.fst) root

/-- `fill` with one element for some keys. -/
def fillKeys (draw : Nat → Nat) (root : TernarySearchTreeNode K V) (element : Option V)
    (keys : List K) : Option (TernarySearchTreeNode K V) :=
  (shuffle draw keys).foldlM (fun root k => (set it root k element).map Prod.fst) root

section Delete

variable [JsTruthy K] [JsTruthy V]

/-- The removal of a node from its level if it has no middle child and no value. -/
def removeNode : TernarySearchTreeNode K V → Option (TernarySearchTreeNode K V)
  | undefined => some undefined
  | node h s v k l m r =>
    if m.isUndefined && !Undef.truthy v then
      if !l.isUndefined && !r.isUndefined then
        -- a full node takes the place of its successor, if that is a true element
        match r.min with
        | node _ s' v' (some k') _ _ _ =>
          if JsTruthy.truthy k' then do
            balanceByStack (node h s' v' (some k') l m (← r.removeMin))
          else some (node h s v k l m r)
        | _ => some (node h s v k l m r)
      else some (if l.isUndefined then r else l)
    else some (node h s v k l m r)

/-- The loops of `_delete`, down to a node that is there and back up. -/
def deleteAt (superStr : Bool) (c : σ) :
    TernarySearchTreeNode K V → Option (TernarySearchTreeNode K V)
  | undefined => some undefined
  | node h s v k l m r =>
    let val := it.cmp c s
    if val > 0 then do balanceByStack (node h s v k (← deleteAt superStr c l) m r)
    else if val < 0 then do balanceByStack (node h s v k l m (← deleteAt superStr c r))
    else if it.hasNext c then do
      balanceByStack (node h s v k l (← deleteAt superStr (it.next c) m) r)
    else if superStr then
      removeNode (node 1 s v k undefined undefined undefined)
    else removeNode (node h s none none l m r)

variable (root : TernarySearchTreeNode K V)

def deleteKey (key : K) (superStr : Bool) : Option (TernarySearchTreeNode K V) :=
  if (getNode it root key).isUndefined then some root
  else deleteAt it superStr (it.reset key) root

def delete (key : K) : Option (TernarySearchTreeNode K V) :=
  deleteKey it root key false

def deleteSuperstr (key : K) : Option (TernarySearchTreeNode K V) :=
  deleteKey it root key true

end Delete

section FindSubstr

variable [JsTruthy V]

/-- `a || b` of optional values. -/
def orElse (a b : Option V) : Option V :=
  match a with
  | some v => if JsTruthy.truthy v then some v else b
  | none => b

/-- The loop of `findSubstr`. -/
def findSubstrAt (c : σ) (candidate : Option V) : TernarySearchTreeNode K V → Option V
  | undefined => candidate
  | node _ s v _ l m r =>
    let val := it.cmp c s
    if val > 0 then findSubstrAt c candidate l
    else if val < 0 then findSubstrAt c candidate r
    else if it.hasNext c then
      findSubstrAt (it.next c) (orElse (Undef.unwrap v) candidate) m
    else orElse (Undef.unwrap v) candidate

def findSubstr (root : TernarySearchTreeNode K V) (key : K) : Option V :=
  findSubstrAt it (it.reset key) none root

end FindSubstr

/-- What `_findSuperstrOrElement` returns. -/
inductive SuperstrOrElement (K V : Type) where
  | undefined
  | element (value : V)
  | entries (list : List (Option K × Option V))

/-- `_findSuperstrOrElement`: the entries below the key or, with `allowValue`, its value. -/
def findSuperstrOrElement (key : K) (allowValue : Bool) : SuperstrOrElement K V :=
  match getNode it root key with
  | .undefined => .undefined
  | .node _ _ v _ _ m _ =>
    if m.isUndefined then
      if allowValue then
        match Undef.unwrap v with
        | some value => .element value
        | none => .undefined
      else .undefined
    else .entries m.entries

def findSuperstr (key : K) : Option (List (Option K × Option V)) :=
  match findSuperstrOrElement it root key false with
  | .entries list => some list
  | _ => none

def hasElementOrSubtree (key : K) : Bool :=
  match findSuperstrOrElement it root key true with
  | .undefined => false
  | _ => true

end TernarySearchTree

end CodeOss
