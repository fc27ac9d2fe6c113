import CodeOss.Ui.IndexTreeLaws

/-! The operations on an `IndexTreeModel`, and their runs. -/

namespace CodeOss.Ui.IndexTree

open Node List

variable {T : Type}

@[elab_as_elim]
theorem Node.inductionOn {motive : Node T → Prop} (node : Node T)
    (mk : ∀ data children, (∀ child ∈ children, motive child) → motive (Node.mk data children)) :
    motive node := by
  cases node with
  | mk data children =>
    exact mk data children fun child _ => inductionOn child mk
termination_by sizeOf node
decreasing_by
  have hmem := sizeOf_lt_of_mem ‹child ∈ children›
  simp only [Node.mk.sizeOf_spec]
  omega

@[elab_as_elim]
theorem TreeElement.inductionOn {motive : TreeElement T → Prop} (element : TreeElement T)
    (mk : ∀ value collapsible collapsed children, (∀ child ∈ children, motive child) →
      motive (TreeElement.mk value collapsible collapsed children)) : motive element := by
  cases element with
  | mk value collapsible collapsed children =>
    exact mk value collapsible collapsed children fun child _ => TreeElement.inductionOn child mk
termination_by sizeOf element
decreasing_by
  have hmem := sizeOf_lt_of_mem ‹child ∈ children›
  simp only [TreeElement.mk.sizeOf_spec]
  omega

/-- What the numbering reads of a node: whether it is visible, its index and its count. -/
inductive Numbers
  | mk (visible : Bool) (index count : ℤ) (children : List Numbers)

mutual

def Node.numbers : Node T → Numbers
  | mk data children =>
    .mk data.visible data.visibleChildIndex data.visibleChildrenCount (allNumbers children)

def Node.allNumbers : List (Node T) → List Numbers
  | [] => []
  | child :: rest => child.numbers :: allNumbers rest

end

theorem Node.allNumbers_eq (children : List (Node T)) :
    allNumbers children = children.map numbers := by
  induction children with
  | nil => rfl
  | cons child rest ih => rw [allNumbers, ih, map_cons]

theorem Node.numbers_mk (data : NodeData T) (children : List (Node T)) : (mk data children).numbers
    = .mk data.visible data.visibleChildIndex data.visibleChildrenCount (children.map numbers) := by
  rw [numbers, allNumbers_eq]

/-- The part of a node that its parent's numbering reads. -/
def Numbers.face : Numbers → Bool × ℤ
  | mk visible index _ _ => (visible, index)

theorem Node.face_numbers (node : Node T) :
    node.numbers.face = (node.visible, node.data.visibleChildIndex) := by
  cases node
  rfl

theorem numbered_congr {data data' : NodeData T} {children children' : List (Node T)}
    (hcount : data'.visibleChildrenCount = data.visibleChildrenCount)
    (hfaces : children'.map (·.numbers.face) = children.map (·.numbers.face))
    (h : Numbered data children) : Numbered data' children' := by
  have hindices : ∀ nodes : List (Node T), visibleIndices nodes =
      ((nodes.map (·.numbers.face)).filter Prod.fst).map Prod.snd := fun nodes => by
    rw [filter_map, List.map_map]
    simp only [Function.comp_def, face_numbers]
    rfl
  rw [numbered_iff] at h ⊢
  rw [← visibleIndices_length, hindices, hfaces, ← hindices, visibleIndices_length, hcount]
  exact h

theorem AllNumbered.congr {first second : Node T} (h : AllNumbered first)
    (heq : second.numbers = first.numbers) : AllNumbered second := by
  induction first using Node.inductionOn generalizing second with
  | mk data children ih =>
    cases second with
    | mk data' children' =>
      cases h with
      | mk _ _ numbered below =>
        rw [Node.numbers_mk, Node.numbers_mk, Numbers.mk.injEq] at heq
        obtain ⟨hvisible, -, hcount, hchildren⟩ := heq
        refine AllNumbered.mk data' children' (fun h => ?_) fun child' hchild' => ?_
        · refine numbered_congr hcount ?_ (numbered (hvisible ▸ h))
          have hfaces := congrArg (List.map Numbers.face) hchildren
          rwa [List.map_map, List.map_map] at hfaces
        · have hmem := List.mem_map_of_mem (f := Node.numbers) hchild'
          rw [hchildren] at hmem
          obtain ⟨child, hchild, hsame⟩ := List.mem_map.1 hmem
          exact ih child hchild (below child hchild) hsame.symm

theorem AllNumbered.children {data : NodeData T} {children : List (Node T)}
    (h : AllNumbered (.mk data children)) : ∀ child ∈ children, AllNumbered child := by
  cases h with
  | mk _ _ _ below => exact below

variable {node root : Node T}

theorem AllNumbered.numbered (h : AllNumbered node) (hvisible : node.visible = true) :
    Numbered node.data node.children := by
  cases h with
  | mk _ _ numbered _ => exact numbered hvisible

theorem AllNumbered.withVisibleChildIndex (h : AllNumbered node) (index : ℤ) :
    AllNumbered (node.withVisibleChildIndex index) := by
  cases h with
  | mk data children numbered below =>
    refine AllNumbered.mk _ children (fun hvisible => ?_) below
    obtain ⟨hcount, hindices⟩ := numbered hvisible
    exact ⟨hcount, hindices⟩

theorem allNumbered_numberVisible {children : List (Node T)}
    (h : ∀ child ∈ children, AllNumbered child) (start : ℤ) :
    ∀ child ∈ numberVisible start children, AllNumbered child := by
  induction children generalizing start with
  | nil => exact h
  | cons first rest ih =>
    obtain ⟨hfirst, hrest⟩ := forall_mem_cons.1 h
    rw [numberVisible]
    split_ifs
    · exact forall_mem_cons.2 ⟨hfirst.withVisibleChildIndex start, ih hrest _⟩
    · exact forall_mem_cons.2 ⟨hfirst, ih hrest _⟩

theorem map_modify_eq {α β : Type} {f : α → β} {change : α → α} {l : List α} {index : ℕ}
    (h : ∀ a ∈ l[index]?, f (change a) = f a) : (l.modify index change).map f = l.map f := by
  induction l generalizing index with
  | nil => rw [modify_nil]
  | cons a l ih =>
    cases index with
    | zero => rw [modify_zero_cons, map_cons, map_cons, h a rfl]
    | succ index => rw [modify_succ_cons, map_cons, map_cons, ih h]

theorem forall_mem_modify {α : Type} {P : α → Prop} {change : α → α} {l : List α} {index : ℕ}
    (hall : ∀ a ∈ l, P a) (h : ∀ a ∈ l[index]?, P (change a)) :
    ∀ a ∈ l.modify index change, P a := by
  induction l generalizing index with
  | nil => rwa [modify_nil]
  | cons a l ih =>
    obtain ⟨ha, hl⟩ := forall_mem_cons.1 hall
    cases index with
    | zero =>
      rw [modify_zero_cons]
      exact forall_mem_cons.2 ⟨h a rfl, hl⟩
    | succ index =>
      rw [modify_succ_cons]
      exact forall_mem_cons.2 ⟨ha, ih hl h⟩

theorem AllNumbered.modifyAt {path : List ℕ} {change : Node T → Node T} (h : AllNumbered root)
    (hchange : ∀ node ∈ root.get? path, AllNumbered node → AllNumbered (change node) ∧
    (change node).numbers.face = node.numbers.face) :
    AllNumbered (root.modifyAt change path) ∧
      (root.modifyAt change path).numbers.face = root.numbers.face := by
  induction path generalizing root with
  | nil => exact hchange root rfl h
  | cons index path ih =>
    cases root with
    | mk data children =>
      have hbelow : ∀ child ∈ children[index]?, AllNumbered (child.modifyAt change path) ∧
          (child.modifyAt change path).numbers.face = child.numbers.face := by
        intro child hchild
        refine ih (h.children child (mem_of_getElem? hchild)) fun node hnode => ?_
        refine hchange node ?_
        rw [Node.get?, hchild]
        exact hnode
      rw [modifyAt]
      refine ⟨AllNumbered.mk _ _ (fun hvisible => ?_) ?_, by rw [face_numbers]; rfl⟩
      · exact numbered_congr rfl (map_modify_eq fun child hchild => (hbelow child hchild).2)
          (h.numbered hvisible)
      · exact forall_mem_modify h.children fun child hchild => (hbelow child hchild).1

theorem AllNumbered.replace {before after : Node T} {path : List ℕ} (h : AllNumbered root)
    (hbefore : root.get? path = some before) (hafter : AllNumbered before → AllNumbered after)
    (hface : after.numbers.face = before.numbers.face) :
    AllNumbered (root.modifyAt (fun _ => after) path) := by
  refine (h.modifyAt fun node hnode hnumbered => ?_).1
  rw [hbefore] at hnode
  obtain rfl := Option.some_inj.1 hnode
  exact ⟨hafter hnumbered, hface⟩

theorem numbers_modifyAt {root : Node T} {path : List ℕ} {change : Node T → Node T}
    (hchange : ∀ node ∈ root.get? path, (change node).numbers = node.numbers) :
    (root.modifyAt change path).numbers = root.numbers := by
  induction path generalizing root with
  | nil => exact hchange root rfl
  | cons index path ih =>
    cases root with
    | mk data children =>
      rw [Node.modifyAt, Node.numbers_mk, Node.numbers_mk, map_modify_eq]
      intro child hchild
      refine ih fun node hnode => hchange node ?_
      rw [Node.get?, hchild]
      exact hnode

theorem numbers_addRenderNodeCount (diff : ℤ) (path : List ℕ) (root : Node T) :
    (root.addRenderNodeCount diff path).numbers = root.numbers := by
  induction path generalizing root with
  | nil =>
    cases root
    rw [addRenderNodeCount, numbers_mk, numbers_mk]
  | cons index path ih =>
    cases root with
    | mk data children =>
      rw [addRenderNodeCount, numbers_mk, numbers_mk, map_modify_eq fun child _ => ih child]

variable (options : Options) (filter : Option (TreeFilter T))

theorem createTreeNodes_eq (parentVisibility : TreeVisibility) (elements : List (TreeElement T)) :
    createTreeNodes options filter parentVisibility elements =
      elements.map (createTreeNode options filter parentVisibility) := by
  induction elements with
  | nil => rfl
  | cons element rest ih => rw [createTreeNodes, ih, map_cons]

theorem createTreeNode_numbered (parentVisibility : TreeVisibility) (element : TreeElement T) :
    AllNumbered (createTreeNode options filter parentVisibility element) := by
  induction element using TreeElement.inductionOn generalizing parentVisibility with
  | mk value collapsible collapsed children ih =>
    rw [createTreeNode]
    refine AllNumbered.mk _ _ (fun _ => numbered_numberVisible _ _ rfl)
      (allNumbered_numberVisible ?_ 0)
    rw [createTreeNodes_eq, forall_mem_map]
    exact fun child hchild => ih child hchild _

theorem updateAllAfterFilterChange_fst (parentVisibility : Option TreeVisibility) (revealed : Bool)
    (children : List (Node T)) :
    (updateAllAfterFilterChange filter parentVisibility revealed children).1 =
      children.map fun child => (child.updateAfterFilterChange filter parentVisibility
    revealed).1 := by
  induction children with
  | nil => rfl
  | cons child rest ih => rw [updateAllAfterFilterChange, map_cons, ih]

theorem updateAfterFilterChange_numbered (h : AllNumbered node)
    (parentVisibility : Option TreeVisibility) (revealed : Bool) :
    AllNumbered (node.updateAfterFilterChange filter parentVisibility revealed).1 := by
  induction node using inductionOn generalizing parentVisibility revealed with
  | mk data children ih =>
    rw [updateAfterFilterChange]
    split_ifs with hhidden
    · exact AllNumbered.mk _ _ (fun hvisible => absurd hvisible Bool.false_ne_true) h.children
    all_goals
      refine AllNumbered.mk _ _ (fun _ => numbered_numberVisible _ _ rfl)
        (allNumbered_numberVisible ?_ 0)
      rw [updateAllAfterFilterChange_fst, forall_mem_map]
      exact fun child hchild => ih child hchild (h.children child hchild) _ _

theorem updateRootAfterFilterChange_numbered (h : AllNumbered root) :
    AllNumbered (root.updateRootAfterFilterChange filter) := by
  cases root with
  | mk data children =>
    refine AllNumbered.mk _ _ (fun _ => numbered_numberVisible _ _ rfl)
      (allNumbered_numberVisible ?_ 0)
    rw [updateAllAfterFilterChange_fst, forall_mem_map]
    exact fun child hchild =>
      updateAfterFilterChange_numbered filter (h.children child hchild) _ _

theorem setNodesCollapseState_fst (update : CollapseStateUpdate) (children : List (Node T)) :
    (setNodesCollapseState update children).1 =
      children.map fun child => (child.setNodeCollapseState update false).1 := by
  induction children with
  | nil => rfl
  | cons child rest ih => rw [setNodesCollapseState, map_cons, ih]

theorem setCollapse_numbers (data : NodeData T) (update : CollapseStateUpdate) :
    (data.setCollapse update).1.visible = data.visible ∧
      (data.setCollapse update).1.visibleChildIndex = data.visibleChildIndex ∧
      (data.setCollapse update).1.visibleChildrenCount = data.visibleChildrenCount := by
  cases update with
  | collapsible collapsible => exact ⟨rfl, rfl, rfl⟩
  | collapsed collapsed recursive =>
    rw [NodeData.setCollapse]
    split_ifs
    · exact ⟨rfl, rfl, rfl⟩
    · exact ⟨rfl, rfl, rfl⟩

theorem setNodeCollapseState_numbers (update : CollapseStateUpdate) (isRoot : Bool)
    (node : Node T) : (node.setNodeCollapseState update isRoot).1.numbers = node.numbers := by
  induction node using inductionOn generalizing isRoot with
  | mk data children ih =>
    obtain ⟨hvisible, hindex, hcount⟩ := setCollapse_numbers data update
    have hbelow : (setNodesCollapseState update children).1.map Node.numbers =
        children.map Node.numbers := by
      rw [setNodesCollapseState_fst, List.map_map]
      exact map_congr_left fun child hchild => ih child hchild false
    rw [setNodeCollapseState]
    split_ifs
    all_goals simp only [numbers_mk, hbelow, hvisible, hindex, hcount]

theorem updateAllAfterCollapseChange_fst (children : List (Node T)) : (updateAllAfterCollapseChange
    children).1 = children.map fun child => child.updateAfterCollapseChange.1 := by
  induction children with
  | nil => rfl
  | cons child rest ih => rw [updateAllAfterCollapseChange, map_cons, ih]

theorem updateAfterCollapseChange_numbers (node : Node T) :
    node.updateAfterCollapseChange.1.numbers = node.numbers := by
  induction node using inductionOn with
  | mk data children ih =>
    rw [updateAfterCollapseChange]
    split_ifs
    · rfl
    · rw [numbers_mk, numbers_mk]
    · rw [numbers_mk, numbers_mk, updateAllAfterCollapseChange_fst, List.map_map]
      exact congrArg _ (map_congr_left fun child hchild => ih child hchild)

namespace Model

theorem setListNodeCollapseState_numbers (path : List ℕ) (revealed : Bool)
    (update : CollapseStateUpdate) (model : Model T) :
    (model.setListNodeCollapseState path revealed update).1.root.numbers = model.root.numbers := by
  rw [setListNodeCollapseState]
  split
  · rfl
  · next node hnode =>
    have hsame : ∀ found ∈ model.root.get? path, node.numbers = found.numbers :=
      fun found hfound => by
      rw [hnode] at hfound
      rw [Option.some_inj.1 hfound]
    dsimp only
    split_ifs
    · exact numbers_modifyAt fun found hfound =>
        (setNodeCollapseState_numbers update _ node).trans (hsame found hfound)
    all_goals
      have hupdated := @numbers_modifyAt T model.root path
        (fun _ => (node.setNodeCollapseState update (path = [])).1.updateAfterCollapseChange.1)
        fun found hfound => ((updateAfterCollapseChange_numbers _).trans
          (setNodeCollapseState_numbers update _ node)).trans (hsame found hfound)
    · exact hupdated
    · exact (numbers_addRenderNodeCount _ _ _).trans hupdated

theorem setCollapseState_numbers (update : CollapseStateUpdate) (node : Node T) (path : List ℕ)
    (model : Model T) :
    (model.setCollapseState options update node path).root.numbers = model.root.numbers := by
  induction node using inductionOn generalizing path model with
  | mk data children ih =>
    rw [setCollapseState]
    have hchanged :=
      model.setListNodeCollapseState_numbers path (model.root.revealedAt path) update
    split_ifs
    · split
      · exact hchanged
      · next only honly =>
        exact (ih only.1 (mem_of_onlyVisibleChild honly) _ _).trans hchanged
    · exact hchanged

theorem expandAbove_numbers (path : List ℕ) (depth : ℕ) (model : Model T) :
    (model.expandAbove options path depth).root.numbers = model.root.numbers := by
  induction depth generalizing model with
  | zero => rfl
  | succ depth ih =>
    rw [expandAbove]
    refine (ih _).trans ?_
    split_ifs
    · rw [setCollapseStateAt]
      split
      · rfl
      · exact setCollapseState_numbers options _ _ _ _
    · rfl

end Model

/-- An operation keeps the numbering if all its splices fit. -/
def Keeps (operation : Model T → Outcome T) : Prop :=
  ∀ model : Model T, AllNumbered model.root →
    (∀ splice ∈ (operation model).splices, splice.Fits) → AllNumbered (operation model).model.root

theorem keeps_done : Keeps (T := T) Outcome.done := fun _ h _ => h

theorem keeps_failed (message : String) : Keeps (T := T) (Outcome.failed message) := fun _ h _ => h

theorem Keeps.andThen {first next : Model T → Outcome T} (hfirst : Keeps first)
    (hnext : Keeps next) :
    Keeps fun model => (first model).andThen next := by
  intro model h hfits
  dsimp only at hfits ⊢
  rw [Outcome.andThen.eq_def] at hfits ⊢
  cases hresult : (first model).result with
  | error message =>
    rw [hresult] at hfits
    exact hfirst model h hfits
  | ok _ =>
    rw [hresult] at hfits
    obtain ⟨hfits, hfits'⟩ := forall_mem_append.1 hfits
    exact hnext _ (hfirst model h hfits) hfits'

theorem newParent_allNumbered {splice : Splice T}
    (getId : Option (T → String)) {elements : List (Node T)} (hinserted : splice.insertedNodes =
    numberVisible (Splice.visibleChildStartIndex splice.parentNode.children splice.index) elements)
    (helements : ∀ node ∈ elements, AllNumbered node) (h : AllNumbered splice.parentNode)
    (hfits : splice.Fits) : AllNumbered (splice.newParent getId) := by
  refine AllNumbered.mk _ _ (fun hvisible => ?_) fun child hchild => ?_
  · exact (Splice.newParent_numbered_iff getId hinserted hvisible (h.numbered hvisible)).2 hfits
  · have hold : ∀ child ∈ splice.parentNode.children, AllNumbered child := by
      cases hparent : splice.parentNode with
      | mk data children => exact (hparent ▸ h).children
    rcases List.mem_append.1 hchild with hchild | hchild
    · rcases List.mem_append.1 hchild with hchild | hchild
      · exact hold child (List.mem_of_mem_take hchild)
      · rw [hinserted] at hchild
        exact allNumbered_numberVisible helements _ child hchild
    · obtain ⟨before, hbefore, rfl⟩ := mem_map.1 hchild
      have hnumbered := hold before (mem_of_mem_drop hbefore)
      split_ifs
      · exact hnumbered.withVisibleChildIndex _
      · exact hnumbered

theorem keeps_spliceSimple (getId : Option (T → String)) (location : List ℤ) (deleteCount : ℕ)
    (toInsert : List (TreeElement T)) :
    Keeps (spliceSimple options filter getId location deleteCount toInsert) := by
  intro model h hfits
  rw [spliceSimple.eq_def] at hfits ⊢
  cases hparent : model.root.getParentNode location with
  | error message => exact h
  | ok parent =>
    rw [hparent] at hfits
    dsimp only at hfits ⊢
    cases hnode : model.root.get? parent.path with
    | none => exact h
    | some parentNode =>
      rw [hnode] at hfits
      dsimp only at hfits ⊢
      have hcreated : ∀ parentVisibility, ∀ node ∈
          createTreeNodes options filter parentVisibility toInsert, AllNumbered node := by
        intro parentVisibility
        rw [createTreeNodes_eq, forall_mem_map]
        exact fun element _ => createTreeNode_numbered options filter parentVisibility element
      have hroot := h.replace hnode
        (fun hnumbered => newParent_allNumbered getId rfl (hcreated _) hnumbered
          (hfits _ (mem_singleton_self _)))
        (by rw [face_numbers, face_numbers]; rfl)
      by_cases hrendered : (parent.revealed && parent.visible) = true
      · rw [if_pos hrendered]
        exact hroot.congr (numbers_addRenderNodeCount _ _ _)
      · rw [if_neg hrendered]
        exact hroot

section Smart

variable {α : Type} {recurse : ℕ → α → Model T → Outcome T}

variable (hrecurse : ∀ start element, Keeps (recurse start element))
include hrecurse

theorem keeps_recurseSplice
    (deep : Bool) (elements : List α) (count fromOriginal : ℕ) (fromModified : ℤ) :
    Keeps (recurseSplice recurse deep elements count fromOriginal fromModified) := by
  induction count generalizing fromOriginal fromModified with
  | zero => exact keeps_done
  | succ count ih =>
    cases deep with
    | false => exact keeps_done
    | true =>
      cases helement : elementAt elements (fromModified - 1) with
      | none =>
        intro model
        rw [recurseSplice, if_pos rfl, helement]
        exact keeps_failed _ model
      | some element =>
        intro model
        rw [recurseSplice, if_pos rfl, helement]
        exact ((hrecurse (fromOriginal - 1) element).andThen (ih _ _)) model

theorem keeps_spliceChanges
    (deep : Bool) (elements : List α) {simple : ℕ → ℕ → List (TreeElement T) → Model T → Outcome T}
    (hsimple : ∀ start length toInsert, Keeps (simple start length toInsert))
    (toInsert : List (TreeElement T))
    (index : ℕ) (changes : List DiffChange) (lastStartO : ℕ) (lastStartM : ℤ) : Keeps
    (spliceChanges recurse deep elements simple toInsert index changes lastStartO lastStartM) := by
  induction changes generalizing lastStartO lastStartM with
  | nil => exact keeps_recurseSplice hrecurse deep elements _ _ _
  | cons change rest ih =>
    exact ((keeps_recurseSplice hrecurse deep elements _ _ _).andThen (hsimple _ _ _)).andThen
      (ih _ _)

end Smart

theorem keeps_spliceSmart
    (computeDiff : List String → List String → DiffResult) (getId : T → String) (recurseLevels : ℕ∞)
    (location : List ℤ) (deleteCount : ℕ) (toInsert : List (TreeElement T)) : Keeps
    (spliceSmart options filter computeDiff getId recurseLevels location deleteCount toInsert) := by
  intro model h hfits
  rw [spliceSmart.eq_def] at hfits ⊢
  cases hparent : model.root.getParentNode location with
  | error message => exact h
  | ok parent =>
    rw [hparent] at hfits
    dsimp only at hfits ⊢
    cases hnode : model.root.get? parent.path with
    | none => exact h
    | some parentNode =>
      rw [hnode] at hfits
      dsimp only at hfits ⊢
      cases hids : parentNode.data.lastDiffIds with
      | none =>
        rw [hids] at hfits
        exact keeps_spliceSimple options filter getId location deleteCount toInsert model h hfits
      | some lastDiffIds =>
        rw [hids] at hfits
        dsimp only at hfits ⊢
        split_ifs at hfits ⊢
        · refine keeps_spliceSimple options filter getId location deleteCount toInsert _ ?_
            hfits
          exact h.congr (numbers_modifyAt fun node _ => by
            cases node
            rw [numbers_mk, Node.data, Node.children, numbers_mk])
        · refine keeps_spliceChanges (fun start element => ?_) _ _ (fun _ _ _ => ?_) _ _ _ _ _
            model h hfits
          · exact keeps_spliceSmart computeDiff getId _ _ _ element.val.children
          · exact keeps_spliceSimple options filter getId _ _ _
termination_by sizeOf toInsert
decreasing_by
  have hmem := sizeOf_lt_of_mem element.property
  cases hcases : element.val with
  | mk value collapsible collapsed children =>
    rw [hcases] at hmem
    simp only [TreeElement.children, TreeElement.mk.sizeOf_spec] at hmem ⊢
    omega

theorem keeps_step (operation : Operation T) :
    Keeps fun model => model.step options filter operation := by
  have hstate : ∀ (update : NodeData T → CollapseStateUpdate) (location : List ℤ),
      Keeps (Model.setState options update location) := by
    intro update location model h hfits
    rw [Model.setState.eq_def]
    cases hpath : model.root.getTreeNode location with
    | error message => exact h
    | ok path =>
      dsimp only
      cases hnode : model.root.get? path with
      | none => exact h
      | some node => exact h.congr (model.setCollapseState_numbers options _ node path)
  cases operation with
  | splice location deleteCount toInsert diffOptions =>
    cases location with
    | nil => exact keeps_failed _
    | cons index rest =>
      cases diffOptions with
      | none => exact keeps_spliceSimple options filter none _ _ _
      | some diff => exact keeps_spliceSmart options filter _ _ _ _ _ _
  | setCollapsible location collapsible => exact hstate _ location
  | setCollapsed location collapsed recursive => exact hstate _ location
  | expandTo location =>
    intro model h hfits
    change AllNumbered (model.expandTo options location).model.root
    rw [Model.expandTo.eq_def]
    split_ifs
    · exact h
    · cases hparent : model.root.getParentNode location with
      | error message => exact h
      | ok parent =>
        dsimp only
        split_ifs
        · exact h.congr (model.expandAbove_numbers options _ _)
        · exact h
  | refilter => exact fun model h _ => updateRootAfterFilterChange_numbered filter h

theorem run_keeps (operations : List (Option (TreeFilter T) × Operation T)) :
    Keeps fun model : Model T => model.run options operations := by
  induction operations with
  | nil => exact keeps_done
  | cons operation rest ih =>
    intro model h hfits
    obtain ⟨hfits, hfits'⟩ := forall_mem_append.1 hfits
    exact ih _ (keeps_step options operation.1 operation.2 model h hfits) hfits'

/-- In each state of a run whose splices all fit, also while a filtering is pending, every visible
node has its visible children counted and numbered. -/
theorem run_allNumbered (rootElement : T)
    (operations : List (Option (TreeFilter T) × Operation T))
    (hfits : ∀ splice ∈ ((Model.new rootElement).run options operations).splices, splice.Fits) :
    AllNumbered ((Model.new rootElement).run options operations).model.root :=
  run_keeps options operations (Model.new rootElement)
    (AllNumbered.mk _ _ (fun _ => ⟨rfl, rfl⟩) (by simp)) hfits

instance (splice : Splice T) : Decidable splice.Fits :=
  inferInstanceAs (Decidable (_ → _ → _))

def plainOptions : Options := ⟨false, false, false⟩

def leaf (value : ℕ) : TreeElement ℕ := .mk value none none []

/-- Two nodes are inserted, another one in the place of the second, and all is filtered. -/
theorem run_allNumbered_three :
    AllNumbered ((Model.new 0).run plainOptions
      [(none, .splice [0] 0 [leaf 1, leaf 2] none), (none, .splice [1] 1 [leaf 3] none),
        (none, .refilter)]).model.root :=
  run_allNumbered plainOptions 0 _ (by decide)

/-- A node that is inserted behind another one gets the index zero again. -/
theorem run_appended :
    ((Model.new 0).run plainOptions [(none, .splice [0] 0 [leaf 1] none),
        (none, .splice [1] 0 [leaf 2] none)]).model.refilterPending = false ∧
      ¬AllNumbered ((Model.new 0).run plainOptions [(none, .splice [0] 0 [leaf 1] none),
        (none, .splice [1] 0 [leaf 2] none)]).model.root := by
  refine ⟨by decide, fun h => ?_⟩
  have hindices := (h.numbered (by decide)).indices
  exact absurd hindices (by decide)

end CodeOss.Ui.IndexTree
