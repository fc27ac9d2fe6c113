import Mathlib

/-! `IndexTreeModel`: a tree whose nodes know how many of their children are visible, and whose
visible children know their places among these. -/

namespace CodeOss.Ui.IndexTree

inductive TreeVisibility
  | Hidden
  | Visible
  | Recurse
  deriving DecidableEq, Repr

/-- What a filter answers; a result with data counts as its visibility. -/
inductive TreeFilterResult
  | boolean (visible : Bool)
  | visibility (visibility : TreeVisibility)

def getVisibleState : TreeFilterResult → TreeVisibility
  | .boolean true => .Visible
  | .boolean false => .Hidden
  | .visibility visibility => visibility

/-- The filter as it is during an operation. The children of the root are asked about without a
visibility of the parent when all is filtered again. -/
abbrev TreeFilter (T : Type) := T → Option TreeVisibility → TreeFilterResult

structure Options where
  collapseByDefault : Bool
  allowNonCollapsibleParents : Bool
  autoExpandSingleChildren : Bool

inductive TreeElement (T : Type)
  | mk (element : T) (collapsible collapsed : Option Bool) (children : List (TreeElement T))

namespace TreeElement

variable {T : Type}

def element : TreeElement T → T
  | mk element _ _ _ => element

def children : TreeElement T → List (TreeElement T)
  | mk _ _ _ children => children

end TreeElement

structure NodeData (T : Type) where
  element : T
  visibleChildrenCount : ℤ
  visibleChildIndex : ℤ
  collapsible : Bool
  collapsed : Bool
  renderNodeCount : ℤ
  visibility : TreeVisibility
  visible : Bool
  lastDiffIds : Option (List String)

inductive Node (T : Type)
  | mk (data : NodeData T) (children : List (Node T))

variable {T : Type}

namespace Node

def data : Node T → NodeData T
  | mk data _ => data

def children : Node T → List (Node T)
  | mk _ children => children

def visible (node : Node T) : Bool := node.data.visible

def withVisibleChildIndex (index : ℤ) : Node T → Node T
  | mk data children => mk { data with visibleChildIndex := index } children

/-- The visible ones get the indices from `index` on. -/
def numberVisible : ℤ → List (Node T) → List (Node T)
  | _, [] => []
  | index, child :: rest =>
    if child.visible then child.withVisibleChildIndex index :: numberVisible (index + 1) rest
    else child :: numberVisible index rest

def visibleCount (children : List (Node T)) : ℤ := children.countP visible

def renderSum (children : List (Node T)) : ℤ := (children.map (·.data.renderNodeCount)).sum

def get? : List ℕ → Node T → Option (Node T)
  | [], node => some node
  | index :: path, mk _ children => children[index]?.bind (get? path)

def modifyAt (change : Node T → Node T) : List ℕ → Node T → Node T
  | [], node => change node
  | index :: path, mk data children => mk data (children.modify index (modifyAt change path))

/-- `_updateAncestorsRenderNodeCount` from the node at the path up. -/
def addRenderNodeCount (diff : ℤ) : List ℕ → Node T → Node T
  | [], mk data children => mk { data with renderNodeCount := data.renderNodeCount + diff } children
  | index :: path, mk data children =>
    mk { data with renderNodeCount := data.renderNodeCount + diff }
      (children.modify index (addRenderNodeCount diff path))

/-- No node above the one at the path is collapsed. -/
def revealedAt : List ℕ → Node T → Bool
  | [], _ => true
  | index :: path, mk data children =>
    !data.collapsed && children[index]?.elim true (revealedAt path)

/-- Whether a node on the path is shown for its descendants only. -/
def recurseOn : List ℕ → Node T → Bool
  | [], node => node.data.visibility = .Recurse
  | index :: path, mk data children =>
    data.visibility = .Recurse || children[index]?.elim false (recurseOn path)

structure ParentNode where
  path : List ℕ
  index : ℕ
  revealed : Bool
  visible : Bool

/-- The parent of a location. Below a child that is not there the search starts again at the root,
the default of the parameter. -/
def getParentNodeFrom (root : Node T) :
    List ℤ → Node T → List ℕ → (revealed visible : Bool) → Except String ParentNode
  | [], _, _, _, _ => .error "Invalid tree location"
  | index :: rest, node, path, revealed, visible =>
    if index < 0 ∨ index > node.children.length then .error "Invalid tree location"
    else
      let revealed := revealed && !node.data.collapsed
      let visible := visible && node.visible
      if rest = [] then .ok ⟨path, index.toNat, revealed, visible⟩
      else
        match node.children[index.toNat]? with
        | some child => getParentNodeFrom root rest child (path ++ [index.toNat]) revealed visible
        | none => getParentNodeFrom root rest root [] revealed visible

def getParentNode (root : Node T) (location : List ℤ) : Except String ParentNode :=
  getParentNodeFrom root location root [] true true

/-- `getTreeNodeWithListIndex`, whose node is read right away. -/
def getTreeNode (root : Node T) (location : List ℤ) : Except String (List ℕ) :=
  if location = [] then .ok []
  else do
    let parent ← root.getParentNode location
    let path := parent.path ++ [parent.index]
    if (root.get? path).isSome then pure path
    else throw "Cannot read properties of undefined"

end Node

def filterNode (filter : Option (TreeFilter T)) (element : T)
    (parentVisibility : Option TreeVisibility) : TreeVisibility :=
  filter.elim .Visible fun filter => getVisibleState (filter element parentVisibility)

mutual

def createTreeNode (options : Options) (filter : Option (TreeFilter T))
    (parentVisibility : TreeVisibility) : TreeElement T → Node T
  | .mk element collapsible collapsed childElements =>
    let visibility := filterNode filter element parentVisibility
    let children := createTreeNodes options filter visibility childElements
    let visibleChildrenCount := Node.visibleCount children
    let visible :=
      if visibility = .Recurse then decide (visibleChildrenCount > 0)
      else decide (visibility = .Visible)
    let collapsible := collapsible.getD collapsed.isSome
    let isCollapsed := collapsed.getD options.collapseByDefault
    .mk
      { element, visibleChildrenCount, visibility, visible
        visibleChildIndex := -1
        collapsible :=
          if options.allowNonCollapsibleParents then collapsible
          else collapsible || !children.isEmpty
        collapsed := isCollapsed
        renderNodeCount :=
          if !visible then 0 else if !isCollapsed then 1 + Node.renderSum children else 1
        lastDiffIds := none }
      (Node.numberVisible 0 children)

def createTreeNodes (options : Options) (filter : Option (TreeFilter T))
    (parentVisibility : TreeVisibility) : List (TreeElement T) → List (Node T)
  | [] => []
  | element :: rest =>
    createTreeNode options filter parentVisibility element ::
      createTreeNodes options filter parentVisibility rest

end

structure Model (T : Type) where
  root : Node T
  refilterPending : Bool

def Model.new (rootElement : T) : Model T where
  root := .mk
    { element := rootElement
      visibleChildrenCount := 0
      visibleChildIndex := -1
      collapsible := false
      collapsed := false
      renderNodeCount := 0
      visibility := .Visible
      visible := true
      lastDiffIds := none } []
  refilterPending := false

/-- What a simple splice found and inserted, as it is reported to listeners. -/
structure Splice (T : Type) where
  parentNode : Node T
  index : ℕ
  deleteCount : ℕ
  insertedNodes : List (Node T)

/-- What comes of an operation: the model is changed also when it fails on the way. -/
structure Outcome (T : Type) where
  result : Except String Unit
  model : Model T
  splices : List (Splice T)

namespace Outcome

def done (model : Model T) : Outcome T := ⟨.ok (), model, []⟩

def failed (message : String) (model : Model T) : Outcome T := ⟨.error message, model, []⟩

def andThen (first : Outcome T) (next : Model T → Outcome T) : Outcome T :=
  match first.result with
  | .ok _ =>
    let second := next first.model
    { second with splices := first.splices ++ second.splices }
  | .error _ => first

end Outcome

def arraySplice {α : Type} (array : List α) (start deleteCount : ℕ) (items : List α) : List α :=
  array.take start ++ items ++ array.drop (start + deleteCount)

namespace Splice

/-- The index of the last visible child up to the splice point, or zero when there is none or the
splice point is behind the children. -/
def visibleChildStartIndex (children : List (Node T)) (lastIndex : ℕ) : ℤ :=
  if lastIndex < children.length then
    ((children.take (lastIndex + 1)).reverse.find? Node.visible).elim 0 (·.data.visibleChildIndex)
  else 0

variable (splice : Splice T)

def deletedNodes : List (Node T) :=
  (splice.parentNode.children.drop splice.index).take splice.deleteCount

/-- The children behind the deleted ones are moved to the left only. -/
def newChildren : List (Node T) :=
  let deletedVisibleChildrenCount := Node.visibleCount splice.deletedNodes
  splice.parentNode.children.take splice.index ++ splice.insertedNodes ++
    (splice.parentNode.children.drop (splice.index + splice.deleteCount)).map fun child =>
      if child.visible then
        child.withVisibleChildIndex (child.data.visibleChildIndex - deletedVisibleChildrenCount)
      else child

def newDiffIds (getId : Option (T → String)) : Option (List String) :=
  getId.map fun getId =>
    match splice.parentNode.data.lastDiffIds with
    | some lastDiffIds =>
      arraySplice lastDiffIds splice.index splice.deleteCount
        (splice.insertedNodes.map fun node => getId node.data.element)
    | none => splice.newChildren.map fun node => getId node.data.element

def newParent (getId : Option (T → String)) : Node T :=
  .mk
    { splice.parentNode.data with
      visibleChildrenCount := splice.parentNode.data.visibleChildrenCount +
        (Node.visibleCount splice.insertedNodes - Node.visibleCount splice.deletedNodes)
      lastDiffIds := splice.newDiffIds getId }
    splice.newChildren

def renderDiff : ℤ :=
  Node.renderSum splice.insertedNodes - Node.renderSum (splice.deletedNodes.filter Node.visible)

end Splice

variable (options : Options) (filter : Option (TreeFilter T))

def spliceSimple (getId : Option (T → String)) (location : List ℤ) (deleteCount : ℕ)
    (toInsert : List (TreeElement T)) (model : Model T) : Outcome T :=
  match model.root.getParentNode location with
  | .error message => .failed message model
  | .ok parent =>
    match model.root.get? parent.path with
    | none => .failed "Invalid tree location" model
    | some parentNode =>
      let parentVisibility := if parentNode.visible then .Visible else .Hidden
      let splice : Splice T :=
        { parentNode, deleteCount
          index := parent.index
          insertedNodes := Node.numberVisible
            (Splice.visibleChildStartIndex parentNode.children parent.index)
            (createTreeNodes options filter parentVisibility toInsert) }
      let root := model.root.modifyAt (fun _ => splice.newParent getId) parent.path
      ⟨.ok (),
        { root :=
            if parent.revealed && parent.visible then
              root.addRenderNodeCount splice.renderDiff parent.path
            else root
          refilterPending := model.refilterPending || root.recurseOn parent.path },
        [splice]⟩

structure DiffChange where
  originalStart : ℕ
  originalLength : ℕ
  modifiedStart : ℕ
  modifiedLength : ℕ

structure DiffResult where
  quitEarly : Bool
  changes : List DiffChange

def elementAt {α : Type} (array : List α) (index : ℤ) : Option α :=
  if index < 0 then none else array[index.toNat]?

def iterableSlice {α : Type} (array : List α) (start stop : ℤ) : List α :=
  let length : ℤ := array.length
  let start := if start < -length then 0 else if start < 0 then start + length else start
  let stop := if stop < 0 then stop + length else if stop > length then length else stop
  (array.take stop.toNat).drop start.toNat

section Smart

variable {α : Type} (recurse : ℕ → α → Model T → Outcome T) (deep : Bool) (elements : List α)

/-- `count` children from `fromOriginal` down, and the elements from `fromModified` down. -/
def recurseSplice : (count fromOriginal : ℕ) → (fromModified : ℤ) → Model T → Outcome T
  | 0, _, _, model => .done model
  | count + 1, fromOriginal, fromModified, model =>
    if deep then
      match elementAt elements (fromModified - 1) with
      | none => .failed "Cannot read properties of undefined" model
      | some element =>
        (recurse (fromOriginal - 1) element model).andThen
          (recurseSplice count (fromOriginal - 1) (fromModified - 1))
    else .done model

/-- The loop over the changes, the last one first, and the children in front of them. -/
def spliceChanges (simple : ℕ → ℕ → List (TreeElement T) → Model T → Outcome T)
    (toInsert : List (TreeElement T)) (index : ℕ) :
    List DiffChange → (lastStartO : ℕ) → (lastStartM : ℤ) → Model T → Outcome T
  | [], lastStartO, lastStartM, model =>
    recurseSplice recurse deep elements lastStartO lastStartO lastStartM model
  | change :: rest, lastStartO, lastStartM, model =>
    let startM : ℤ := change.modifiedStart - index
    ((recurseSplice recurse deep elements
        (lastStartO - (change.originalStart + change.originalLength)) lastStartO lastStartM
        model).andThen
      (simple change.originalStart change.originalLength
        (iterableSlice toInsert startM (startM + change.modifiedLength)))).andThen
      (spliceChanges simple toInsert index rest change.originalStart startM)

end Smart

def MAX_SAFE_INTEGER : ℕ := 9007199254740991

/-- `LcsDiff.ComputeDiff` is a parameter. -/
def spliceSmart (computeDiff : List String → List String → DiffResult) (getId : T → String)
    (recurseLevels : ℕ∞) (location : List ℤ) (deleteCount : ℕ) (toInsert : List (TreeElement T))
    (model : Model T) : Outcome T :=
  match model.root.getParentNode location with
  | .error message => .failed message model
  | .ok parent =>
    match model.root.get? parent.path with
    | none => .failed "Invalid tree location" model
    | some parentNode =>
      match parentNode.data.lastDiffIds with
      | none => spliceSimple options filter getId location deleteCount toInsert model
      | some lastDiffIds =>
        let diff := computeDiff lastDiffIds <|
          ((parentNode.children.take parent.index).map fun node => getId node.data.element) ++
          (toInsert.map fun node => getId node.element) ++
          ((parentNode.children.drop (parent.index + deleteCount)).map fun node =>
            getId node.data.element)
        if diff.quitEarly then
          let forget (node : Node T) : Node T :=
            .mk { node.data with lastDiffIds := none } node.children
          spliceSimple options filter getId location deleteCount toInsert
            { model with root := model.root.modifyAt forget parent.path }
        else
          let locationPrefix := location.dropLast
          spliceChanges
            (fun fromOriginal (element : {element // element ∈ toInsert}) =>
              spliceSmart computeDiff getId (recurseLevels - 1)
                (locationPrefix ++ [(fromOriginal : ℤ), 0]) MAX_SAFE_INTEGER
                element.val.children)
            (decide (recurseLevels > 0)) toInsert.attach
            (fun start => spliceSimple options filter getId (locationPrefix ++ [(start : ℤ)]))
            toInsert parent.index
            (diff.changes.mergeSort fun a b => b.originalStart ≤ a.originalStart)
            (min parentNode.children.length (parent.index + deleteCount)) toInsert.length
            model
termination_by sizeOf toInsert
decreasing_by
  have hmem := List.sizeOf_lt_of_mem element.property
  cases hcases : element.val with
  | mk value collapsible collapsed children =>
    rw [hcases] at hmem
    simp only [TreeElement.children, TreeElement.mk.sizeOf_spec] at hmem ⊢
    omega

inductive CollapseStateUpdate
  | collapsible (collapsible : Bool)
  | collapsed (collapsed recursive : Bool)

namespace CollapseStateUpdate

def isCollapsibleStateUpdate : CollapseStateUpdate → Bool
  | collapsible _ => true
  | collapsed _ _ => false

def isRecursive : CollapseStateUpdate → Bool
  | collapsible _ => false
  | collapsed _ recursive => recursive

end CollapseStateUpdate

/-- A new state of collapse, and whether it is one. -/
def NodeData.setCollapse (data : NodeData T) : CollapseStateUpdate → NodeData T × Bool
  | .collapsible collapsible =>
    ({ data with collapsible }, data.collapsible != collapsible)
  | .collapsed collapsed _ =>
    if data.collapsible then ({ data with collapsed }, data.collapsed != collapsed)
    else (data, false)

namespace Node

mutual

def setNodeCollapseState (update : CollapseStateUpdate) (isRoot : Bool) : Node T → Node T × Bool
  | mk data children =>
    let changed := if isRoot then (data, false) else data.setCollapse update
    if update.isRecursive then
      let below := setNodesCollapseState update children
      (mk changed.1 below.1, below.2 || changed.2)
    else (mk changed.1 children, changed.2)

def setNodesCollapseState (update : CollapseStateUpdate) : List (Node T) → List (Node T) × Bool
  | [] => ([], false)
  | child :: rest =>
    let first := child.setNodeCollapseState update false
    let others := setNodesCollapseState update rest
    (first.1 :: others.1, first.2 || others.2)

end

mutual

/-- `_updateNodeAfterCollapseChange`, with the number of rendered nodes. -/
def updateAfterCollapseChange : Node T → Node T × ℤ
  | mk data children =>
    if !data.visible then (mk data children, 0)
    else if data.collapsed then (mk { data with renderNodeCount := 1 } children, 1)
    else
      let below := updateAllAfterCollapseChange children
      (mk { data with renderNodeCount := 1 + below.2 } below.1, 1 + below.2)

def updateAllAfterCollapseChange : List (Node T) → List (Node T) × ℤ
  | [] => ([], 0)
  | child :: rest =>
    let first := child.updateAfterCollapseChange
    let others := updateAllAfterCollapseChange rest
    (first.1 :: others.1, first.2 + others.2)

end

/-- The only child that is visible. -/
def onlyVisibleChild (children : List (Node T)) : Option (Node T × ℕ) :=
  match children.zipIdx.filter fun child => child.1.visible with
  | [only] => some only
  | _ => none

theorem mem_of_onlyVisibleChild {children : List (Node T)} {only : Node T × ℕ}
    (h : onlyVisibleChild children = some only) : only.1 ∈ children := by
  rw [onlyVisibleChild] at h
  split at h
  · next child hfilter =>
    obtain rfl := Option.some_inj.1 h
    have hmem : child ∈ children.zipIdx.filter fun child => child.1.visible :=
      hfilter ▸ List.mem_singleton_self child
    exact List.fst_mem_of_mem_zipIdx (List.mem_of_mem_filter hmem)
  · exact absurd h (by simp)

end Node

namespace Model

def setListNodeCollapseState (path : List ℕ) (revealed : Bool) (update : CollapseStateUpdate)
    (model : Model T) : Model T × Bool :=
  match model.root.get? path with
  | none => (model, false)
  | some node =>
    let changed := node.setNodeCollapseState update (path = [])
    if !revealed || !node.visible || !changed.2 then
      ({ model with root := model.root.modifyAt (fun _ => changed.1) path }, changed.2)
    else
      let updated := changed.1.updateAfterCollapseChange
      let root := model.root.modifyAt (fun _ => updated.1) path
      ({ model with
          root :=
            if path = [] then root
            else root.addRenderNodeCount (updated.2 - node.data.renderNodeCount) path.dropLast },
        changed.2)

/-- `_setCollapseState`, which goes on with the only visible child of a node that was expanded. -/
def setCollapseState (options : Options) (update : CollapseStateUpdate) (node : Node T)
    (path : List ℕ) (model : Model T) : Model T :=
  let changed := model.setListNodeCollapseState path (model.root.revealedAt path) update
  let expanded :=
    (changed.1.root.get? path).any fun node => node.data.collapsible && !node.data.collapsed
  if path ≠ [] ∧ options.autoExpandSingleChildren ∧ changed.2 ∧
      !update.isCollapsibleStateUpdate ∧ !update.isRecursive ∧ expanded then
    match _h : Node.onlyVisibleChild node.children with
    | none => changed.1
    | some only => changed.1.setCollapseState options update only.1 (path ++ [only.2])
  else changed.1
termination_by sizeOf node
decreasing_by
  have hmem := List.sizeOf_lt_of_mem (Node.mem_of_onlyVisibleChild _h)
  cases node with
  | mk data children =>
    simp only [Node.children, Node.mk.sizeOf_spec] at hmem ⊢
    omega

def setCollapseStateAt (options : Options) (update : CollapseStateUpdate) (path : List ℕ)
    (model : Model T) : Model T :=
  match model.root.get? path with
  | none => model
  | some node => model.setCollapseState options update node path

/-- An update of the node at a location, whose new state may depend on the old one. -/
def setState (options : Options) (update : NodeData T → CollapseStateUpdate) (location : List ℤ)
    (model : Model T) : Outcome T :=
  match model.root.getTreeNode location with
  | .error message => .failed message model
  | .ok path =>
    match model.root.get? path with
    | none => .failed "Invalid tree location" model
    | some node => .done (model.setCollapseState options (update node.data) node path)

def setCollapsible (options : Options) (location : List ℤ) (collapsible : Option Bool) :
    Model T → Outcome T :=
  setState options (fun data => .collapsible (collapsible.getD !data.collapsible)) location

def setCollapsed (options : Options) (location : List ℤ) (collapsed : Option Bool)
    (recursive : Bool) : Model T → Outcome T :=
  setState options (fun data => .collapsed (collapsed.getD !data.collapsed) recursive) location

/-- The nodes above the path's first `depth` ones, from the last one up. -/
def expandAbove (options : Options) (path : List ℕ) : (depth : ℕ) → Model T → Model T
  | 0, model => model
  | depth + 1, model =>
    let collapsed := (model.root.get? (path.take depth)).any (·.data.collapsed)
    expandAbove options path depth <|
      if collapsed then
        model.setCollapseStateAt options (.collapsed false false) (path.take depth)
      else model

/-- Where a child is not there the node is the root, and above it is no node. -/
def expandTo (options : Options) (location : List ℤ) (model : Model T) : Outcome T :=
  if location = [] then .done model
  else
    match model.root.getParentNode location with
    | .error message => .failed message model
    | .ok parent =>
      let path := parent.path ++ [parent.index]
      if (model.root.get? path).isSome then .done (model.expandAbove options path path.length)
      else .done model

end Model

namespace Node

mutual

/-- `_updateNodeAfterFilterChange` below the root, with the number of rendered nodes. -/
def updateAfterFilterChange (filter : Option (TreeFilter T))
    (parentVisibility : Option TreeVisibility) (revealed : Bool) : Node T → Node T × ℤ
  | mk data children =>
    let visibility := filterNode filter data.element parentVisibility
    if visibility = .Hidden then
      (mk { data with visible := false, renderNodeCount := 0 } children, 0)
    else
      let below :=
        updateAllAfterFilterChange filter (some visibility) (revealed && !data.collapsed) children
      let visible := if visibility = .Recurse then below.1.any Node.visible else true
      (mk
        { data with
          visible, visibility
          visibleChildrenCount := visibleCount below.1
          renderNodeCount :=
            if !visible then 0 else if !data.collapsed then 1 + below.2 else 1 }
        (numberVisible 0 below.1),
        if revealed && visible then 1 + below.2 else below.2)

def updateAllAfterFilterChange (filter : Option (TreeFilter T))
    (parentVisibility : Option TreeVisibility) (revealed : Bool) :
    List (Node T) → List (Node T) × ℤ
  | [] => ([], 0)
  | child :: rest =>
    let first := child.updateAfterFilterChange filter parentVisibility revealed
    let others := updateAllAfterFilterChange filter parentVisibility revealed rest
    (first.1 :: others.1, first.2 + others.2)

end

/-- `_updateNodeAfterFilterChange` at the root, whose visibility is not asked for. -/
def updateRootAfterFilterChange (filter : Option (TreeFilter T)) (root : Node T) : Node T :=
  let below := updateAllAfterFilterChange filter none (!root.data.collapsed) root.children
  mk
    { root.data with
      visibleChildrenCount := visibleCount below.1
      renderNodeCount := if root.data.visible && !root.data.collapsed then below.2 else 0 }
    (numberVisible 0 below.1)

end Node

def Model.refilter (filter : Option (TreeFilter T)) (model : Model T) : Outcome T :=
  .done ⟨model.root.updateRootAfterFilterChange filter, false⟩

structure DiffOptions (T : Type) where
  computeDiff : List String → List String → DiffResult
  getId : T → String
  diffDepth : ℕ∞

inductive Operation (T : Type)
  | splice (location : List ℤ) (deleteCount : ℕ) (toInsert : List (TreeElement T))
      (diffOptions : Option (DiffOptions T))
  | setCollapsible (location : List ℤ) (collapsible : Option Bool)
  | setCollapsed (location : List ℤ) (collapsed : Option Bool) (recursive : Bool)
  | expandTo (location : List ℤ)
  | refilter

def Model.step (options : Options) (filter : Option (TreeFilter T)) (model : Model T) :
    Operation T → Outcome T
  | .splice [] _ _ _ => .failed "Invalid tree location" model
  | .splice location deleteCount toInsert none =>
    spliceSimple options filter none location deleteCount toInsert model
  | .splice location deleteCount toInsert (some diff) =>
    spliceSmart options filter diff.computeDiff diff.getId diff.diffDepth location deleteCount
      toInsert model
  | .setCollapsible location collapsible => model.setCollapsible options location collapsible
  | .setCollapsed location collapsed recursive =>
    model.setCollapsed options location collapsed recursive
  | .expandTo location => model.expandTo options location
  | .refilter => model.refilter filter

/-- A run, where the filter may be another one at each operation. The delayed filtering after a
splice is one of the operations. -/
def Model.run (options : Options) (model : Model T) :
    List (Option (TreeFilter T) × Operation T) → Outcome T
  | [] => .done model
  | (filter, operation) :: rest =>
    let first := model.step options filter operation
    let second := Model.run options first.model rest
    { second with splices := first.splices ++ second.splices }

/-- The count is that of the visible children, whose indices are 0, 1, 2 and so on. -/
structure Numbered (data : NodeData T) (children : List (Node T)) : Prop where
  count : data.visibleChildrenCount = (children.filter Node.visible).length
  indices : (children.filter Node.visible).map (·.data.visibleChildIndex) =
    (List.range (children.filter Node.visible).length).map fun index : ℕ => (index : ℤ)

/-- Each node of a tree that is visible itself has its visible children counted and numbered. -/
inductive AllNumbered : Node T → Prop
  | mk (data : NodeData T) (children : List (Node T))
      (numbered : data.visible = true → Numbered data children)
      (below : ∀ child ∈ children, AllNumbered child) : AllNumbered (.mk data children)

/-- A splice that numbers right: below a visible parent it inserts nothing visible, or it has no
visible child behind the deleted ones, and the child at the splice point is visible or none in
front of it is. -/
def Splice.Fits (splice : Splice T) : Prop :=
  let children := splice.parentNode.children
  splice.parentNode.visible = true → (∃ node ∈ splice.insertedNodes, node.visible = true) →
    (∀ child ∈ children.drop (splice.index + splice.deleteCount), child.visible = false) ∧
    ((∃ child ∈ children[splice.index]?, child.visible = true) ∨
      ∀ child ∈ children.take splice.index, child.visible = false)

end CodeOss.Ui.IndexTree
