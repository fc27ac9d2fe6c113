import CodeOss.BracketPairs.Length
import Mathlib.Data.Finset.Basic

/-! (2,3)-trees of the nodes of a bracket tree, put one behind the other. -/

namespace CodeOss

open List

/-- The nodes that are no lists: of texts, brackets, pairs and unexpected closing brackets only the
length and the missing brackets are read. A list is mutable or not; the sets are of type `S`. -/
inductive AstNode (α S : Type) where
  | leaf (node : α) (length : Nat) (missing : S)
  | two (mutable : Bool) (length listHeight : Nat) (missing : S) (item1 item2 : AstNode α S)
  | three (mutable : Bool) (length listHeight : Nat) (missing : S)
      (item1 item2 item3 : AstNode α S)

namespace AstNode

variable {α S : Type}

def length : AstNode α S → Nat
  | leaf _ length _ | two _ length _ _ _ _ | three _ length _ _ _ _ _ => length

def missingOpeningBracketIds : AstNode α S → S
  | leaf _ _ missing | two _ _ _ missing _ _ | three _ _ _ missing _ _ _ => missing

def listHeight : AstNode α S → Nat
  | leaf _ _ _ => 0
  | two _ _ listHeight _ _ _ | three _ _ listHeight _ _ _ _ => listHeight

variable [Union S]

/-- A list of two items once `handleChildrenChanged` has run; `merge` joins the sets. -/
def ofTwo (mutable : Bool) (listHeight : Nat) (item1 item2 : AstNode α S) : AstNode α S :=
  two mutable (lengthAdd item1.length item2.length) listHeight
    (item1.missingOpeningBracketIds ∪ item2.missingOpeningBracketIds) item1 item2

def ofThree (mutable : Bool) (listHeight : Nat) (item1 item2 item3 : AstNode α S) : AstNode α S :=
  three mutable (lengthAdd (lengthAdd item1.length item2.length) item3.length) listHeight
    (item1.missingOpeningBracketIds ∪ item2.missingOpeningBracketIds ∪
      item3.missingOpeningBracketIds) item1 item2 item3

def create23 (item1 item2 : AstNode α S) (item3 : Option (AstNode α S)) (immutable : Bool) :
    Except String (AstNode α S) :=
  if item1.listHeight ≠ item2.listHeight then .error "Invalid list heights"
  else match item3 with
    | none => .ok (ofTwo (!immutable) (item1.listHeight + 1) item1 item2)
    | some item3 =>
      if item1.listHeight ≠ item3.listHeight then .error "Invalid list heights"
      else .ok (ofThree (!immutable) (item1.listHeight + 1) item1 item2 item3)

/-- The way of `append` down the last items and back: the node as it is left, and what goes to its
parent. -/
def appendBelow (nodeToAppend : AstNode α S) :
    AstNode α S → Except String (AstNode α S × Option (AstNode α S))
  | leaf node length missing =>
    if nodeToAppend.listHeight = 0 then .ok (leaf node length missing, some nodeToAppend)
    else .error "unexpected"
  | two mutable length listHeight missing item1 item2 =>
    if nodeToAppend.listHeight = listHeight then
      .ok (two mutable length listHeight missing item1 item2, some nodeToAppend)
    else do
      match ← appendBelow nodeToAppend item2 with
      | (item2, some node) => .ok (ofThree true listHeight item1 item2 node, none)
      | (item2, none) => .ok (ofTwo true listHeight item1 item2, none)
  | three mutable length listHeight missing item1 item2 item3 =>
    if nodeToAppend.listHeight = listHeight then
      .ok (three mutable length listHeight missing item1 item2 item3, some nodeToAppend)
    else do
      match ← appendBelow nodeToAppend item3 with
      | (item3, some node) =>
        .ok (ofTwo true listHeight item1 item2, some (← create23 item3 node none false))
      | (item3, none) => .ok (ofThree true listHeight item1 item2 item3, none)

def append (list nodeToAppend : AstNode α S) : Except String (AstNode α S) := do
  match ← appendBelow nodeToAppend list with
  | (list, some node) => create23 list node none false
  | (list, none) => .ok list

/-- The same of `prepend`, down the first items. -/
def prependBelow (nodeToPrepend : AstNode α S) :
    AstNode α S → Except String (AstNode α S × Option (AstNode α S))
  | leaf node length missing =>
    if nodeToPrepend.listHeight = 0 then .ok (leaf node length missing, some nodeToPrepend)
    else .error "unexpected"
  | two mutable length listHeight missing item1 item2 =>
    if nodeToPrepend.listHeight = listHeight then
      .ok (two mutable length listHeight missing item1 item2, some nodeToPrepend)
    else do
      match ← prependBelow nodeToPrepend item1 with
      | (item1, some node) => .ok (ofThree true listHeight node item1 item2, none)
      | (item1, none) => .ok (ofTwo true listHeight item1 item2, none)
  | three mutable length listHeight missing item1 item2 item3 =>
    if nodeToPrepend.listHeight = listHeight then
      .ok (three mutable length listHeight missing item1 item2 item3, some nodeToPrepend)
    else do
      match ← prependBelow nodeToPrepend item1 with
      | (item1, some node) =>
        .ok (ofTwo true listHeight item2 item3, some (← create23 node item1 none false))
      | (item1, none) => .ok (ofThree true listHeight item1 item2 item3, none)

def prepend (list nodeToPrepend : AstNode α S) : Except String (AstNode α S) := do
  match ← prependBelow nodeToPrepend list with
  | (list, some node) => create23 node list none false
  | (list, none) => .ok list

def concat (node1 node2 : AstNode α S) : Except String (AstNode α S) :=
  if node1.listHeight = node2.listHeight then create23 node1 node2 none false
  else if node1.listHeight > node2.listHeight then node1.append node2
  else node2.prepend node1

/-- One round of the loop of `concat23TreesOfSameHeight`. -/
def pairUp (immutable : Bool) : List (AstNode α S) → Except String (List (AstNode α S))
  | [item1, item2, item3] => return [← create23 item1 item2 (some item3) immutable]
  | item1 :: item2 :: items =>
    return (← create23 item1 item2 none immutable) :: (← pairUp immutable items)
  | _ => return []

/-- The loop, for a number of rounds that is large enough; what is left are two or three nodes. -/
def concat23TreesOfSameHeight (immutable : Bool) :
    Nat → List (AstNode α S) → Except String (Option (AstNode α S))
  | _, [] => .ok none
  | _, [item] => .ok (some item)
  | _, [item1, item2] => some <$> create23 item1 item2 none immutable
  | _, [item1, item2, item3] => some <$> create23 item1 item2 (some item3) immutable
  | rounds + 1, items => do concat23TreesOfSameHeight immutable rounds (← pairUp immutable items)
  | 0, _ => .ok none

def readNode : List (AstNode α S) → Except String (Option (AstNode α S))
  | [item] => .ok (some item)
  | items => concat23TreesOfSameHeight false items.length items

def heightDiff (node1 node2 : AstNode α S) : Nat :=
  (node1.listHeight - node2.listHeight) + (node2.listHeight - node1.listHeight)

def concatLoop (first second : AstNode α S) :
    List (List (AstNode α S)) → Except String (AstNode α S)
  | [] => concat first second
  | group :: groups => do
    match ← readNode group with
    | none => concat first second
    | some item =>
      if heightDiff first second ≤ heightDiff second item then
        concatLoop (← concat first second) item groups
      else concatLoop first (← concat second item) groups

/-- The items are cut where the height changes. -/
def concat23Trees : List (AstNode α S) → Except String (Option (AstNode α S))
  | [] => .ok none
  | [item] => .ok (some item)
  | items => do
    match items.splitBy fun item item' => item'.listHeight = item.listHeight with
    | [] => .ok none
    | [group] => readNode group
    | group :: group' :: groups =>
      match ← readNode group, ← readNode group' with
      | some first, some second => some <$> concatLoop first second groups
      | first, _ => .ok first

omit [Union S] in
def leaves : AstNode α S → List α
  | leaf node _ _ => [node]
  | two _ _ _ _ item1 item2 => item1.leaves ++ item2.leaves
  | three _ _ _ _ item1 item2 item3 => item1.leaves ++ item2.leaves ++ item3.leaves

/-- Every list has two or three items of one height, and its height, its length and its missing
brackets are those of its items. -/
inductive Correct : AstNode α S → Prop
  | leaf {node : α} {length : Nat} {missing : S} : Correct (leaf node length missing)
  | two {mutable : Bool} {height : Nat} {item1 item2 : AstNode α S} (h1 : Correct item1)
      (h2 : Correct item2) (e1 : item1.listHeight + 1 = height)
      (e2 : item2.listHeight + 1 = height) : Correct (ofTwo mutable height item1 item2)
  | three {mutable : Bool} {height : Nat} {item1 item2 item3 : AstNode α S} (h1 : Correct item1)
      (h2 : Correct item2) (h3 : Correct item3) (e1 : item1.listHeight + 1 = height)
      (e2 : item2.listHeight + 1 = height) (e3 : item3.listHeight + 1 = height) :
      Correct (ofThree mutable height item1 item2 item3)

variable {item1 item2 item3 list node first second : AstNode α S} {items : List (AstNode α S)}
  {immutable : Bool} {height : Nat} {rest : Option (AstNode α S)}

/-- The node is built without an error, of this height and with these leaves. -/
def Makes (run : Except String (AstNode α S)) (height : Nat) (xs : List α) : Prop :=
  ∃ node, run = .ok node ∧ Correct node ∧ node.listHeight = height ∧ node.leaves = xs

theorem create23_two (immutable : Bool) (h1 : Correct item1) (h2 : Correct item2)
    (h : item1.listHeight = item2.listHeight) : Makes (create23 item1 item2 none immutable)
      (item1.listHeight + 1) (item1.leaves ++ item2.leaves) :=
  ⟨_, by rw [create23, if_neg (not_not.2 h)], .two h1 h2 rfl (by rw [h]), rfl, rfl⟩

theorem create23_three (immutable : Bool) (h1 : Correct item1) (h2 : Correct item2)
    (h3 : Correct item3)
    (h12 : item1.listHeight = item2.listHeight) (h13 : item1.listHeight = item3.listHeight) :
    Makes (create23 item1 item2 (some item3) immutable) (item1.listHeight + 1)
      (item1.leaves ++ item2.leaves ++ item3.leaves) := by
  refine ⟨ofThree (!immutable) _ item1 item2 item3, ?_,
    .three h1 h2 h3 rfl (by rw [h12]) (by rw [h13]), rfl, rfl⟩
  simp only [create23, if_neg (not_not.2 h12), if_neg (not_not.2 h13)]

/-- A node as the way back leaves it, and what goes to its parent. -/
structure Fits (list : AstNode α S) (rest : Option (AstNode α S)) (height : Nat) : Prop where
  correct : Correct list
  height_eq : list.listHeight = height
  rest_correct : ∀ node ∈ rest, Correct node ∧ node.listHeight = height

theorem Fits.whole (hlist : Correct list) : Fits list none list.listHeight :=
  ⟨hlist, rfl, by simp⟩

theorem Fits.with_rest (hlist : Correct list) (hnode : Correct node)
    (h : node.listHeight = list.listHeight) : Fits list (some node) list.listHeight :=
  ⟨hlist, rfl, by simpa using ⟨hnode, h⟩⟩

section

variable (hlist : Correct list) (hnode : Correct node) (hle : node.listHeight ≤ list.listHeight)
include hlist hnode hle

theorem appendBelow_spec :
    ∃ list' rest, appendBelow node list = .ok (list', rest) ∧ Fits list' rest list.listHeight ∧
      list'.leaves ++ rest.toList.flatMap leaves = list.leaves ++ node.leaves := by
  induction hlist with
  | leaf =>
    have hzero : node.listHeight = 0 := Nat.le_zero.1 hle
    exact ⟨_, _, by rw [appendBelow, if_pos hzero], .with_rest .leaf hnode hzero, by simp⟩
  | @two mutable height item1 item2 h1 h2 e1 e2 ih1 ih2 =>
    rw [ofTwo, appendBelow]
    split_ifs with heq
    · exact ⟨_, _, rfl, .with_rest (.two h1 h2 e1 e2) hnode heq, by simp⟩
    obtain ⟨item2', rest, hrun, ⟨h2', e2', hrest⟩, hleaves⟩ := ih2 (by
      have : node.listHeight ≤ height := hle
      omega)
    rw [← e2'] at e2
    rw [hrun]
    cases rest with
    | none =>
      refine ⟨_, _, rfl, .whole (.two h1 h2' e1 e2), ?_⟩
      simpa [ofTwo, leaves] using hleaves
    | some r =>
      obtain ⟨hr, er⟩ := hrest r rfl
      refine ⟨_, _, rfl, .whole (.three h1 h2' hr e1 e2 (by omega)), ?_⟩
      simpa [ofThree, leaves] using hleaves
  | @three mutable height item1 item2 item3 h1 h2 h3 e1 e2 e3 ih1 ih2 ih3 =>
    rw [ofThree, appendBelow]
    split_ifs with heq
    · exact ⟨_, _, rfl, .with_rest (.three h1 h2 h3 e1 e2 e3) hnode heq, by simp⟩
    obtain ⟨item3', rest, hrun, ⟨h3', e3', hrest⟩, hleaves⟩ := ih3 (by
      have : node.listHeight ≤ height := hle
      omega)
    rw [← e3'] at e3
    rw [hrun]
    cases rest with
    | none =>
      refine ⟨_, _, rfl, .whole (.three h1 h2 h3' e1 e2 e3), ?_⟩
      simpa [ofThree, leaves] using hleaves
    | some r =>
      obtain ⟨hr, er⟩ := hrest r rfl
      obtain ⟨pair, hpair, hpair', epair, hpairs⟩ :=
        create23_two false h3' hr (e3'.trans er.symm)
      refine ⟨ofTwo true height item1 item2, some pair, ?_,
        .with_rest (.two h1 h2 e1 e2) hpair' (epair.trans e3), ?_⟩
      · simp only [bind, Except.bind, hpair]
      · simpa [ofTwo, ofThree, leaves, hpairs] using hleaves

theorem prependBelow_spec :
    ∃ list' rest, prependBelow node list = .ok (list', rest) ∧ Fits list' rest list.listHeight ∧
      rest.toList.flatMap leaves ++ list'.leaves = node.leaves ++ list.leaves := by
  induction hlist with
  | leaf =>
    have hzero : node.listHeight = 0 := Nat.le_zero.1 hle
    exact ⟨_, _, by rw [prependBelow, if_pos hzero], .with_rest .leaf hnode hzero, by simp⟩
  | @two mutable height item1 item2 h1 h2 e1 e2 ih1 ih2 =>
    rw [ofTwo, prependBelow]
    split_ifs with heq
    · exact ⟨_, _, rfl, .with_rest (.two h1 h2 e1 e2) hnode heq, by simp⟩
    obtain ⟨item1', rest, hrun, ⟨h1', e1', hrest⟩, hleaves⟩ := ih1 (by
      have : node.listHeight ≤ height := hle
      omega)
    rw [← e1'] at e1
    rw [hrun]
    cases rest with
    | none =>
      refine ⟨_, _, rfl, .whole (.two h1' h2 e1 e2), ?_⟩
      simp_all [ofTwo, leaves]
    | some r =>
      obtain ⟨hr, er⟩ := hrest r rfl
      refine ⟨_, _, rfl, .whole (.three hr h1' h2 (by omega) e1 e2), ?_⟩
      simp_all [ofTwo, ofThree, leaves]
  | @three mutable height item1 item2 item3 h1 h2 h3 e1 e2 e3 ih1 ih2 ih3 =>
    rw [ofThree, prependBelow]
    split_ifs with heq
    · exact ⟨_, _, rfl, .with_rest (.three h1 h2 h3 e1 e2 e3) hnode heq, by simp⟩
    obtain ⟨item1', rest, hrun, ⟨h1', e1', hrest⟩, hleaves⟩ := ih1 (by
      have : node.listHeight ≤ height := hle
      omega)
    rw [← e1'] at e1
    rw [hrun]
    cases rest with
    | none =>
      refine ⟨_, _, rfl, .whole (.three h1' h2 h3 e1 e2 e3), ?_⟩
      simp_all [ofThree, leaves]
    | some r =>
      obtain ⟨hr, er⟩ := hrest r rfl
      obtain ⟨pair, hpair, hpair', epair, hpairs⟩ :=
        create23_two false hr h1' (er.trans e1'.symm)
      refine ⟨ofTwo true height item2 item3, some pair, ?_,
        .with_rest (.two h2 h3 e2 e3) hpair' ?_, ?_⟩
      · simp only [bind, Except.bind, hpair]
      · exact epair.trans (by rw [er, ← e1', e1]; rfl)
      · simp_all [ofTwo, ofThree, leaves]

end

theorem concat_spec (h1 : Correct first) (h2 : Correct second) :
    ∃ node, concat first second = .ok node ∧ Correct node ∧
      node.leaves = first.leaves ++ second.leaves := by
  rw [concat]
  split_ifs with heq hlt
  · obtain ⟨node, hrun, hnode, -, hleaves⟩ := create23_two false h1 h2 heq
    exact ⟨node, hrun, hnode, hleaves⟩
  · obtain ⟨list', rest, hrun, ⟨hlist, hheight, hrest⟩, hleaves⟩ := appendBelow_spec h1 h2 hlt.le
    rw [append, hrun]
    cases rest with
    | none => exact ⟨list', rfl, hlist, by simpa using hleaves⟩
    | some r =>
      obtain ⟨hr, er⟩ := hrest r rfl
      obtain ⟨node, hpair, hnode, -, hleaves'⟩ :=
        create23_two false hlist hr (hheight.trans er.symm)
      exact ⟨node, hpair, hnode, hleaves'.trans (by simpa using hleaves)⟩
  · obtain ⟨list', rest, hrun, ⟨hlist, hheight, hrest⟩, hleaves⟩ :=
      prependBelow_spec h2 h1 (by omega)
    rw [prepend, hrun]
    cases rest with
    | none => exact ⟨list', rfl, hlist, by simpa using hleaves⟩
    | some r =>
      obtain ⟨hr, er⟩ := hrest r rfl
      obtain ⟨node, hpair, hnode, -, hleaves'⟩ :=
        create23_two false hr hlist (er.trans hheight.symm)
      exact ⟨node, hpair, hnode, hleaves'.trans (by simpa using hleaves)⟩

def Level (height : Nat) (items : List (AstNode α S)) : Prop :=
  ∀ item ∈ items, Correct item ∧ item.listHeight = height

theorem pairUp_spec (immutable : Bool) (h : Level height items) (hone : items.length ≠ 1) :
    ∃ items', pairUp immutable items = .ok items' ∧ Level (height + 1) items' ∧
      (2 * items'.length = items.length ∨ 2 * items'.length + 1 = items.length) ∧
      items'.flatMap leaves = items.flatMap leaves := by
  fun_induction pairUp immutable items with
  | case1 item1 item2 item3 =>
    obtain ⟨⟨h1, e1⟩, ⟨h2, e2⟩, ⟨h3, e3⟩⟩ : (_ ∧ _) ∧ (_ ∧ _) ∧ (_ ∧ _) := by
      simpa [Level] using h
    obtain ⟨node, hrun, hnode, enode, hleaves⟩ := create23_three immutable h1 h2 h3
      (e1.trans e2.symm) (e1.trans e3.symm)
    refine ⟨[node], by simp [hrun], ?_, by simp, by simp [hleaves]⟩
    simpa [Level, ← e1] using ⟨hnode, enode⟩
  | case2 item1 item2 items hmore ih =>
    obtain ⟨⟨h1, e1⟩, ⟨h2, e2⟩, hitems⟩ : (_ ∧ _) ∧ (_ ∧ _) ∧ Level height items := by
      simpa [Level] using h
    obtain ⟨node, hrun, hnode, enode, hleaves⟩ :=
      create23_two immutable h1 h2 (e1.trans e2.symm)
    have hrest : items.length ≠ 1 := fun hlength => by
      obtain ⟨item3, rfl⟩ := length_eq_one_iff.1 hlength
      exact hmore item3 rfl
    obtain ⟨items', hruns, hlevel, hlength, hall⟩ := ih hitems hrest
    refine ⟨node :: items', by rw [hrun, hruns]; rfl, ?_, ?_, by simp [hleaves, hall]⟩
    · exact forall_mem_cons.2 ⟨⟨hnode, enode.trans (by rw [e1])⟩, hlevel⟩
    · simp only [length_cons]
      omega
  | case3 items hthree htwo =>
    obtain rfl : items = [] := by
      rcases items with _ | ⟨item, _ | ⟨item', items⟩⟩
      · rfl
      · exact absurd rfl hone
      · exact absurd rfl (htwo item item' items)
    exact ⟨[], rfl, by simp [Level], by simp, rfl⟩

theorem sameHeight_spec {rounds : Nat} (h : Level height items) (hne : items ≠ [])
    (hrounds : items.length ≤ rounds) : ∃ node,
      concat23TreesOfSameHeight immutable rounds items = .ok (some node) ∧ Correct node ∧
        node.leaves = items.flatMap leaves := by
  fun_induction concat23TreesOfSameHeight immutable rounds items generalizing height with
  | case1 => exact absurd rfl hne
  | case2 rounds item => exact ⟨item, rfl, (h item mem_cons_self).1, by simp⟩
  | case3 rounds item1 item2 =>
    obtain ⟨⟨h1, e1⟩, ⟨h2, e2⟩⟩ : (_ ∧ _) ∧ (_ ∧ _) := by simpa [Level] using h
    obtain ⟨node, hrun, hnode, -, hleaves⟩ :=
      create23_two immutable h1 h2 (e1.trans e2.symm)
    exact ⟨node, by rw [hrun]; rfl, hnode, by simp [hleaves]⟩
  | case4 rounds item1 item2 item3 =>
    obtain ⟨⟨h1, e1⟩, ⟨h2, e2⟩, ⟨h3, e3⟩⟩ : (_ ∧ _) ∧ (_ ∧ _) ∧ (_ ∧ _) := by
      simpa [Level] using h
    obtain ⟨node, hrun, hnode, -, hleaves⟩ := create23_three immutable h1 h2 h3
      (e1.trans e2.symm) (e1.trans e3.symm)
    exact ⟨node, by rw [hrun]; rfl, hnode, by simp [hleaves]⟩
  | case5 rounds items h0 h1 h2 h3 ih =>
    have hfour : 4 ≤ items.length := by
      rcases items with _ | ⟨a, _ | ⟨b, _ | ⟨c, _ | ⟨d, items⟩⟩⟩⟩
      · exact absurd rfl hne
      · exact absurd rfl (h1 a)
      · exact absurd rfl (h2 a b)
      · exact absurd rfl (h3 a b c)
      · simp
    obtain ⟨items', hrun, hlevel, hlength, hleaves⟩ :=
      pairUp_spec immutable h (by omega)
    obtain ⟨node, hnode, hcorrect, hall⟩ :=
      ih items' hlevel (length_pos_iff.1 (by omega)) (by omega)
    exact ⟨node, by rw [hrun]; exact hnode, hcorrect, hall.trans hleaves⟩
  | case6 items => exact absurd (eq_nil_of_length_eq_zero (Nat.le_zero.1 hrounds)) hne

theorem readNode_spec (h : Level height items) (hne : items ≠ []) : ∃ node,
    readNode items = .ok (some node) ∧ Correct node ∧ node.leaves = items.flatMap leaves := by
  fun_cases readNode items with
  | case1 item => exact ⟨item, rfl, (h item mem_cons_self).1, by simp⟩
  | case2 => exact sameHeight_spec h hne le_rfl

/-- The groups of items that are read. -/
def Groups (groups : List (List (AstNode α S))) : Prop :=
  ∀ group ∈ groups, group ≠ [] ∧ ∃ height, Level height group

theorem concatLoop_spec {groups : List (List (AstNode α S))} (h1 : Correct first)
    (h2 : Correct second) (hgroups : Groups groups) : ∃ node,
    concatLoop first second groups = .ok node ∧ Correct node ∧
      node.leaves = first.leaves ++ second.leaves ++ groups.flatten.flatMap leaves := by
  induction groups generalizing first second with
  | nil => simpa [concatLoop] using concat_spec h1 h2
  | cons group groups ih =>
    obtain ⟨⟨hne, height, hlevel⟩, hgroups⟩ := forall_mem_cons.1 hgroups
    obtain ⟨item, hread, hitem, hleaves⟩ := readNode_spec hlevel hne
    simp only [concatLoop, hread, bind, Except.bind]
    split_ifs
    · obtain ⟨node, hrun, hnode, hjoined⟩ := concat_spec h1 h2
      obtain ⟨result, hloop, hresult, hall⟩ := ih hnode hitem hgroups
      exact ⟨result, by rw [hrun]; exact hloop, hresult, by simp [hall, hjoined, hleaves]⟩
    · obtain ⟨node, hrun, hnode, hjoined⟩ := concat_spec h2 hitem
      obtain ⟨result, hloop, hresult, hall⟩ := ih h1 hnode hgroups
      exact ⟨result, by rw [hrun]; exact hloop, hresult, by simp [hall, hjoined, hleaves]⟩

theorem groups_splitBy (h : ∀ item ∈ items, Correct item) :
    Groups (items.splitBy fun item item' => item'.listHeight = item.listHeight) := by
  intro group hgroup
  have hne : group ≠ [] := fun hnil => nil_notMem_splitBy _ _ (hnil ▸ hgroup)
  refine ⟨hne, (group.head hne).listHeight, fun item hitem => ⟨?_, ?_⟩⟩
  · refine h item ?_
    rw [← flatten_splitBy _ items]
    exact mem_flatten.2 ⟨group, hgroup, hitem⟩
  · have hchain := (isChain_of_mem_splitBy hgroup).imp fun _ _ h => of_decide_eq_true h
    have htrans : IsTrans (AstNode α S) fun item item' => item'.listHeight = item.listHeight :=
      ⟨fun _ _ _ h h' => h'.trans h⟩
    have hpairs := isChain_iff_pairwise.1 hchain
    cases group with
    | nil => exact absurd rfl hne
    | cons a group =>
      rcases mem_cons.1 hitem with rfl | hitem
      · rfl
      · exact (pairwise_cons.1 hpairs).1 item hitem

end AstNode
end CodeOss
