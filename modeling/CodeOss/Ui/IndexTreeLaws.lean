import CodeOss.Ui.IndexTreeModel

/-! The visible children of an `IndexTreeModel` stay numbered as long as the splices fit. -/

namespace CodeOss.Ui.IndexTree

open List

variable {T : Type}

variable (start : ℤ)

/-- The `count` numbers from `start` on. -/
def counting (count : ℕ) : List ℤ :=
  (List.range count).map fun index : ℕ => start + index

theorem counting_length (count : ℕ) : (counting start count).length = count := by
  rw [counting, length_map, length_range]

theorem counting_add (m n : ℕ) :
    counting start (m + n) = counting start m ++ counting (start + m) n := by
  rw [counting, range_add, map_append, List.map_map]
  refine congrArg _ (map_congr_left fun index _ => ?_)
  simp [add_assoc]

theorem counting_succ (n : ℕ) : counting start (n + 1) = start :: counting (start + 1) n := by
  rw [Nat.add_comm, counting_add]
  simp [counting]

theorem counting_take {m n : ℕ} {rest : List ℤ} {l : List ℤ} (hl : l.length = m)
    (h : l ++ rest = counting start n) :
    l = counting start m ∧ rest = counting (start + m) (n - m) := by
  have hlength := congrArg List.length h
  rw [length_append, counting_length] at hlength
  have hsplit : counting start n = counting start m ++ counting (start + m) (n - m) := by
    rw [← counting_add]
    congr 1
    omega
  rw [hsplit] at h
  exact append_inj h (hl.trans (counting_length start m).symm)

theorem counting_inj {first second : ℤ} {n : ℕ} :
    counting first n = counting second n ↔ n = 0 ∨ first = second := by
  cases n with
  | zero => simp [counting]
  | succ n =>
    rw [counting_succ, counting_succ, List.cons.injEq]
    constructor
    · rintro ⟨heq, -⟩
      exact Or.inr heq
    · rintro (hzero | rfl)
      · exact absurd hzero (Nat.succ_ne_zero n)
      · exact ⟨rfl, rfl⟩

/-- Three parts count on if and only if each that has numbers starts at the next one. -/
theorem counting_parts_iff {second third : ℤ} {p m q : ℕ} : counting 0 p ++ counting second m ++
    counting third q = counting 0 (p + m + q) ↔ (m = 0 ∨ second = p) ∧ (q = 0 ∨ third = p + m) := by
  rw [counting_add, counting_add, zero_add, zero_add, Nat.cast_add, ← counting_inj, ← counting_inj]
  constructor
  · intro h
    obtain ⟨hfirst, hthird⟩ := append_inj h (by simp only [length_append, counting_length])
    exact ⟨append_cancel_left hfirst, hthird⟩
  · rintro ⟨hsecond, hthird⟩
    rw [hsecond, hthird]

def visibleIndices (children : List (Node T)) : List ℤ :=
  (children.filter Node.visible).map (·.data.visibleChildIndex)

theorem visibleIndices_append (first second : List (Node T)) :
    visibleIndices (first ++ second) = visibleIndices first ++ visibleIndices second := by
  rw [visibleIndices, filter_append, map_append]
  rfl

theorem visibleIndices_length (children : List (Node T)) :
    ((visibleIndices children).length : ℤ) = Node.visibleCount children := by
  rw [visibleIndices, length_map, Node.visibleCount, countP_eq_length_filter]

theorem visibleIndices_eq_nil {children : List (Node T)} :
    visibleIndices children = [] ↔ ∀ child ∈ children, child.visible = false := by
  rw [visibleIndices, map_eq_nil_iff, filter_eq_nil_iff]
  simp only [Bool.not_eq_true]

theorem numbered_iff {data : NodeData T} {children : List (Node T)} :
    Numbered data children ↔ data.visibleChildrenCount = Node.visibleCount children ∧
    visibleIndices children = counting 0 (visibleIndices children).length := by
  have hlength : (visibleIndices children).length = (children.filter Node.visible).length := by
    rw [visibleIndices, length_map]
  have hcounting : counting 0 (children.filter Node.visible).length =
      (List.range (children.filter Node.visible).length).map fun index : ℕ => (index : ℤ) :=
    map_congr_left fun index _ => zero_add _
  rw [← visibleIndices_length, hlength, hcounting]
  exact ⟨fun h => ⟨h.count, h.indices⟩, fun h => ⟨h.1, h.2⟩⟩

@[simp] theorem visible_withVisibleChildIndex (index : ℤ) (node : Node T) :
    (node.withVisibleChildIndex index).visible = node.visible := by
  cases node
  rfl

@[simp] theorem visibleChildIndex_withVisibleChildIndex (index : ℤ) (node : Node T) :
    (node.withVisibleChildIndex index).data.visibleChildIndex = index := by
  cases node
  rfl

theorem visibleIndices_cons (child : Node T) (rest : List (Node T)) :
    visibleIndices (child :: rest) = if child.visible = true then
      child.data.visibleChildIndex :: visibleIndices rest else visibleIndices rest := by
  rw [visibleIndices, filter_cons]
  split_ifs <;> rfl

theorem visible_numberVisible (children : List (Node T)) :
    (Node.numberVisible start children).map Node.visible = children.map Node.visible := by
  induction children generalizing start with
  | nil => rfl
  | cons child rest ih =>
    rw [Node.numberVisible]
    split_ifs
    · rw [map_cons, map_cons, ih, visible_withVisibleChildIndex]
    · rw [map_cons, map_cons, ih]

theorem visibleCount_numberVisible (children : List (Node T)) :
    Node.visibleCount (Node.numberVisible start children) = Node.visibleCount children := by
  have hcount : ∀ nodes : List (Node T),
      Node.visibleCount nodes = ((nodes.map Node.visible).countP id) :=
    fun nodes => by rw [countP_map]; rfl
  rw [hcount, visible_numberVisible, ← hcount]

theorem visibleIndices_numberVisible (children : List (Node T)) : visibleIndices
    (Node.numberVisible start children) = counting start (visibleIndices children).length := by
  induction children generalizing start with
  | nil => rfl
  | cons child rest ih =>
    rw [Node.numberVisible, visibleIndices_cons]
    split_ifs with hvisible
    · rw [visibleIndices_cons, visible_withVisibleChildIndex, if_pos hvisible,
        visibleChildIndex_withVisibleChildIndex, ih, length_cons, counting_succ]
    · rw [visibleIndices_cons, if_neg hvisible, ih]

theorem numbered_numberVisible (data : NodeData T) (children : List (Node T))
    (hcount : data.visibleChildrenCount = Node.visibleCount children) :
    Numbered data (Node.numberVisible 0 children) := by
  rw [numbered_iff, visibleIndices_numberVisible, counting_length, visibleCount_numberVisible]
  exact ⟨hcount, rfl⟩

namespace Splice

theorem visibleChildStartIndex_eq_iff {children : List (Node T)} {index : ℕ}
    {rest : List ℤ} {n : ℕ} (h : visibleIndices (children.take index) ++ rest = counting 0 n)
    (hrest : rest = visibleIndices (children.drop index)) : visibleChildStartIndex children index =
    (visibleIndices (children.take index)).length ↔ (∃ child ∈ children[index]?,
    child.visible = true) ∨ ∀ child ∈ children.take index, child.visible = false := by
  obtain ⟨hfront, hback⟩ := counting_take 0 rfl h
  rw [← visibleIndices_eq_nil, visibleChildStartIndex]
  rcases Nat.lt_or_ge index children.length with hlt | hge
  · rw [if_pos hlt, take_succ_eq_append_getElem hlt, reverse_append, reverse_singleton,
      singleton_append, find?_cons]
    rw [drop_eq_getElem_cons hlt, visibleIndices_cons] at hrest
    have hat : (∃ child ∈ children[index]?, child.visible = true) ↔
        children[index].visible = true := by
      rw [getElem?_eq_getElem hlt]
      simp
    rw [hat]
    cases hvisible : children[index].visible with
    | true =>
      rw [hvisible, if_pos rfl] at hrest
      rw [hrest] at hback
      cases hcount : n - (visibleIndices (children.take index)).length with
      | zero => simp [hcount, counting] at hback
      | succ m =>
        rw [hcount, counting_succ, List.cons.injEq] at hback
        simp [hback.1]
    | false =>
      rw [← head?_filter, filter_reverse, head?_reverse]
      have hlast : (((children.take index).filter Node.visible).getLast?).elim 0
          (·.data.visibleChildIndex) = ((visibleIndices (children.take index)).getLast?).getD 0 := by
        rw [visibleIndices, getLast?_map]
        cases ((children.take index).filter Node.visible).getLast? <;> rfl
      rw [hlast, hfront, counting_length]
      cases hcount : (visibleIndices (children.take index)).length with
      | zero => simp [counting]
      | succ m =>
        rw [counting_add]
        simp [counting]
  · have hnone : children[index]? = none := getElem?_eq_none hge
    rw [if_neg hge.not_gt, hnone]
    rw [eq_comm, Int.natCast_eq_zero, length_eq_zero_iff]
    simp

theorem visibleIndices_shift (diff : ℤ) (children : List (Node T)) : visibleIndices (children.map
    fun child => if child.visible then child.withVisibleChildIndex (child.data.visibleChildIndex -
    diff) else child) = (visibleIndices children).map (· - diff) := by
  induction children with
  | nil => rfl
  | cons child rest ih =>
    rw [map_cons, visibleIndices_cons, visibleIndices_cons, ih]
    by_cases hvisible : child.visible = true
    · rw [if_pos hvisible, if_pos hvisible, visible_withVisibleChildIndex, if_pos hvisible,
        visibleChildIndex_withVisibleChildIndex, map_cons]
    · rw [if_neg hvisible, if_neg hvisible, if_neg hvisible]

theorem counting_map_sub (start diff : ℤ) (n : ℕ) :
    (counting start n).map (· - diff) = counting (start - diff) n := by
  rw [counting, counting, List.map_map]
  refine map_congr_left fun index _ => ?_
  rw [Function.comp_apply]
  ring

theorem visibleIndices_spliced {front deleted behind elements : List (Node T)} {start : ℤ} {n : ℕ}
    (h : visibleIndices front ++ (visibleIndices deleted ++ visibleIndices behind) = counting 0 n) :
    visibleIndices (front ++ Node.numberVisible start elements ++ behind.map fun child =>
        if child.visible then
          child.withVisibleChildIndex (child.data.visibleChildIndex - Node.visibleCount deleted)
        else child) =
      counting 0 (visibleIndices front).length ++ counting start (visibleIndices elements).length ++
        counting (visibleIndices front).length (visibleIndices behind).length := by
  obtain ⟨hfront, hrest⟩ := counting_take 0 rfl h
  obtain ⟨-, hbehind⟩ := counting_take _ rfl hrest
  have hshift : (visibleIndices behind).map (· - Node.visibleCount deleted) =
      counting (visibleIndices front).length (visibleIndices behind).length := by
    have hlength := congrArg List.length hbehind
    rw [counting_length] at hlength
    rw [hlength, hbehind, counting_map_sub, ← visibleIndices_length, zero_add, add_sub_cancel_right]
  rw [visibleIndices_append, visibleIndices_append, visibleIndices_shift, hshift,
    visibleIndices_numberVisible, ← hfront]

theorem exists_visible_numberVisible {start : ℤ} {elements : List (Node T)} :
    (∃ node ∈ Node.numberVisible start elements, node.visible = true) ↔
      (visibleIndices elements).length ≠ 0 := by
  have hmem : ∀ nodes : List (Node T), (∃ node ∈ nodes, node.visible = true) ↔
      true ∈ nodes.map Node.visible := fun nodes => by rw [mem_map]
  rw [hmem, visible_numberVisible, ← hmem, ne_eq, length_eq_zero_iff, visibleIndices_eq_nil]
  push Not
  simp only [Bool.not_eq_false]

/-- The parent of a splice is numbered right afterwards if and only if the splice fits. -/
theorem newParent_numbered_iff {splice : Splice T}
    (getId : Option (T → String)) {elements : List (Node T)} (hinserted : splice.insertedNodes =
    Node.numberVisible (visibleChildStartIndex splice.parentNode.children splice.index) elements)
    (hvisible : splice.parentNode.visible = true)
    (hbefore : Numbered splice.parentNode.data splice.parentNode.children) :
    Numbered (splice.newParent getId).data (splice.newParent getId).children ↔ splice.Fits := by
  obtain ⟨hcount, hindices⟩ := numbered_iff.1 hbefore
  -- the children in front of the splice point, those deleted and those behind
  have hback : splice.deletedNodes ++
      splice.parentNode.children.drop (splice.index + splice.deleteCount) =
        splice.parentNode.children.drop splice.index := by
    rw [deletedNodes, ← List.drop_drop]
    exact take_append_drop _ _
  have hsplit := congrArg visibleIndices
    (take_append_drop splice.index splice.parentNode.children)
  rw [visibleIndices_append, ← hback, visibleIndices_append] at hsplit
  have hold := hsplit.trans hindices
  have hstart := visibleChildStartIndex_eq_iff hold (by rw [← hback, visibleIndices_append])
  have hnew := @visibleIndices_spliced T _ _ _ elements
    (visibleChildStartIndex splice.parentNode.children splice.index) _ hold
  rw [← hinserted] at hnew
  change visibleIndices splice.newChildren = _ at hnew
  have hlength := congrArg List.length hnew
  have hlengthOld := congrArg List.length hsplit
  simp only [length_append, counting_length] at hlength hlengthOld
  have hcounted : (splice.newParent getId).data.visibleChildrenCount =
      Node.visibleCount splice.newChildren := by
    change splice.parentNode.data.visibleChildrenCount +
      (Node.visibleCount splice.insertedNodes - Node.visibleCount splice.deletedNodes) = _
    rw [hcount, hinserted, visibleCount_numberVisible, ← visibleIndices_length,
      ← visibleIndices_length, ← visibleIndices_length, ← visibleIndices_length]
    omega
  rw [numbered_iff, Fits, hinserted, exists_visible_numberVisible]
  change _ ∧ visibleIndices splice.newChildren =
    counting 0 (visibleIndices splice.newChildren).length ↔ _
  have hnone : (visibleIndices (splice.parentNode.children.drop
      (splice.index + splice.deleteCount))).length = 0 ↔ _ :=
    length_eq_zero_iff.trans visibleIndices_eq_nil
  rw [hlength, hnew, counting_parts_iff, hstart, ← hnone]
  constructor
  · rintro ⟨-, hinside, hbehind⟩ - hne
    exact ⟨hbehind.resolve_right (by omega), hinside.resolve_left hne⟩
  · intro hfits
    refine ⟨hcounted, ?_, ?_⟩
    · by_cases hne : (visibleIndices elements).length = 0
      · exact Or.inl hne
      · exact Or.inr (hfits hvisible hne).2
    · by_cases hne : (visibleIndices elements).length = 0
      · exact Or.inr (by rw [hne]; simp)
      · exact Or.inl (hfits hvisible hne).1

end Splice

end CodeOss.Ui.IndexTree
