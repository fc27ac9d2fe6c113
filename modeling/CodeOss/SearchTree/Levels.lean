import CodeOss.Library.AvlTree
import CodeOss.SearchTree.TernarySearchTree

/-! One level of a ternary search tree as an AVL tree over its cells. The balancing of the
code is that of the AVL tree. -/

namespace CodeOss

open Option

/-- What a node holds besides its place in its level. -/
structure SearchCell (K V : Type) where
  segment : JsString
  value : Undef.Stored V
  key : Option K
  mid : TernarySearchTreeNode K V

namespace TernarySearchTreeNode

variable {K V : Type}

def level : TernarySearchTreeNode K V → AvlTree (SearchCell K V)
  | undefined => .nil
  | node h s v k l m r => .node h ⟨s, v, k, m⟩ l.level r.level

variable (t : TernarySearchTreeNode K V)

def cells : List (SearchCell K V) := t.level.toList

@[simp] theorem isUndefined_undefined : (undefined : TernarySearchTreeNode K V).isUndefined =
    true :=
  rfl

@[simp] theorem isUndefined_node (h : Nat) (s : JsString) (v : Undef.Stored V) (k : Option K)
    (l m r : TernarySearchTreeNode K V) : (node h s v k l m r).isUndefined = false := rfl

theorem isUndefined_iff {t : TernarySearchTreeNode K V} : t.isUndefined = true ↔ t = undefined := by
  cases t <;> simp [isUndefined]

@[simp] theorem cells_undefined : (undefined : TernarySearchTreeNode K V).cells = [] := rfl

@[simp] theorem cells_node (h : Nat) (s : JsString) (v : Undef.Stored V) (k : Option K)
    (l m r : TernarySearchTreeNode K V) :
    (node h s v k l m r).cells = l.cells ++ ⟨s, v, k, m⟩ :: r.cells := rfl

@[simp] theorem height_level : t.level.height = t.height := by
  cases t <;> rfl

@[simp] theorem balanceFactor_level : t.level.balanceFactor = t.balanceFactor := by
  cases t with
  | undefined => rfl
  | node h s v k l m r => simp [level, balanceFactor]

theorem level_updateHeight (h : Nat)
    (s : JsString) (v : Undef.Stored V) (k : Option K) (l m r : TernarySearchTreeNode K V) :
    (node h s v k l m r).updateHeight.level = AvlTree.join ⟨s, v, k, m⟩ l.level r.level := by
  simp [updateHeight, level, AvlTree.join]

theorem level_rotateLeft : t.rotateLeft.map level = t.level.rotateLeft := by
  match t with
  | undefined => rfl
  | node h s v k l m undefined => rfl
  | node h s v k l m (node h' s' v' k' l' m' r') =>
    simp only [rotateLeft, map_some, level_updateHeight]
    rfl

theorem level_rotateRight : t.rotateRight.map level = t.level.rotateRight := by
  match t with
  | undefined => rfl
  | node h s v k undefined m r => rfl
  | node h s v k (node h' s' v' k' l' m' r') m r =>
    simp only [rotateRight, map_some, level_updateHeight]
    rfl

theorem level_rotateRightLeft (h : Nat) (s : JsString) (v : Undef.Stored V) (k : Option K)
    (l m r : TernarySearchTreeNode K V) :
    (do (node h s v k l m (← r.rotateRight)).rotateLeft).map level =
      (do (AvlTree.join ⟨s, v, k, m⟩ l.level (← r.level.rotateRight)).rotateLeft) := by
  rw [← level_rotateRight]
  cases r.rotateRight with
  | none => rfl
  | some r' =>
    refine (level_rotateLeft _).trans ?_
    exact AvlTree.rotateLeft_node _ _ _ _

theorem level_rotateLeftRight (h : Nat) (s : JsString) (v : Undef.Stored V) (k : Option K)
    (l m r : TernarySearchTreeNode K V) :
    (do (node h s v k (← l.rotateLeft) m r).rotateRight).map level =
      (do (AvlTree.join ⟨s, v, k, m⟩ (← l.level.rotateLeft) r.level).rotateRight) := by
  rw [← level_rotateLeft]
  cases l.rotateLeft with
  | none => rfl
  | some l' =>
    refine (level_rotateRight _).trans ?_
    exact AvlTree.rotateRight_node _ _ _ _

theorem level_balanceByStack : t.balanceByStack.map level = t.level.rebalance := by
  cases t with
  | undefined => rfl
  | node h s v k l m r =>
    have hjoin := level_updateHeight h s v k l m r
    simp only [updateHeight] at hjoin
    have hbf : (AvlTree.join ⟨s, v, k, m⟩ l.level r.level).balanceFactor =
        (node (1 + max l.height r.height) s v k l m r).balanceFactor := by
      rw [← hjoin, balanceFactor_level]
    simp only [balanceByStack, updateHeight, level, AvlTree.rebalance, hbf,
      balanceFactor_level, gt_iff_lt, ge_iff_le]
    split_ifs
    · rw [level_rotateLeft, hjoin]
    · exact level_rotateRightLeft _ s v k l m r
    · rw [level_rotateRight, hjoin]
    · exact level_rotateLeftRight _ s v k l m r
    · rw [map_some, hjoin]

end TernarySearchTreeNode

def Dir.side : Dir → Option AvlTree.Side
  | .left => some .left
  | .mid => none
  | .right => some .right

namespace TernarySearchTreeNode

variable {K V : Type}

theorem level_balanceSet {d₁ : Dir} {side : AvlTree.Side} (hd : d₁.side = some side)
    (d₂ : Option Dir) (t : TernarySearchTreeNode K V) :
    (t.balanceSet d₁ d₂).map level = t.level.settle side (d₂.bind Dir.side) := by
  cases t with
  | undefined => rfl
  | node h s v k l m r =>
    have hjoin := level_updateHeight h s v k l m r
    simp only [updateHeight] at hjoin
    have hbf : (AvlTree.join ⟨s, v, k, m⟩ l.level r.level).balanceFactor =
        (node (1 + max l.height r.height) s v k l m r).balanceFactor := by
      rw [← hjoin, balanceFactor_level]
    simp only [balanceSet, updateHeight, level, AvlTree.settle, hbf, gt_iff_lt]
    split_ifs
    · cases d₁ with
      | mid => cases hd
      | left =>
        cases hd
        rcases d₂ with _ | _ | _ | _
        · rfl
        · simp only [bind_some, Dir.side]
          rw [level_rotateRight, hjoin]
        · rfl
        · simp only [bind_some, Dir.side]
          exact level_rotateLeftRight _ s v k l m r
      | right =>
        cases hd
        rcases d₂ with _ | _ | _ | _
        · rfl
        · simp only [bind_some, Dir.side]
          exact level_rotateRightLeft _ s v k l m r
        · rfl
        · simp only [bind_some, Dir.side]
          rw [level_rotateLeft, hjoin]
    · rw [map_some, hjoin]

variable {h : Nat} {s : JsString} {v : Undef.Stored V} {k : Option K}
  {l m r : TernarySearchTreeNode K V}

theorem balanced_replace (ht : (node h s v k l m r).level.Balanced) (s' : JsString)
    (v' : Undef.Stored V) (k' : Option K) (m' : TernarySearchTreeNode K V) :
    (node h s' v' k' l m' r).level.Balanced := ht

section

variable (ht : (node h s v k l m r).level.Balanced)
include ht

theorem updateHeight_of_balanced : (node h s v k l m r).updateHeight = node h s v k l m r := by
  have hh := ht.1
  rw [height_level, height_level] at hh
  rw [updateHeight, ← hh]

theorem balanceSet_of_balanced (d₁ : Dir)
    (d₂ : Option Dir) : (node h s v k l m r).balanceSet d₁ d₂ = some (node h s v k l m r) := by
  have hup := updateHeight_of_balanced ht
  obtain ⟨-, hlr, hrl, -⟩ := ht
  rw [height_level, height_level] at hlr hrl
  have hin : ¬ ((node h s v k l m r).balanceFactor < -1 ∨
      (node h s v k l m r).balanceFactor > 1) := by
    simp only [balanceFactor]
    omega
  rw [balanceSet, hup]
  simp only [if_neg hin]

theorem balanceByStack_of_balanced :
    (node h s v k l m r).balanceByStack = some (node h s v k l m r) := by
  have hup := updateHeight_of_balanced ht
  obtain ⟨-, hlr, hrl, -⟩ := ht
  rw [height_level, height_level] at hlr hrl
  have hleft : ¬ (node h s v k l m r).balanceFactor < -1 := by
    simp only [balanceFactor]
    omega
  have hright : ¬ (node h s v k l m r).balanceFactor > 1 := by
    simp only [balanceFactor]
    omega
  rw [balanceByStack, hup]
  simp only [if_neg hleft, if_neg hright]

end

theorem isBalanced_of_balanced {t : TernarySearchTreeNode K V} (ht : t.level.Balanced) :
    t.isBalanced = true := by
  induction t with
  | undefined => rfl
  | node h s v k l m r ihl ihm ihr =>
    obtain ⟨-, hlr, hrl, hl, hr⟩ := ht
    rw [height_level, height_level] at hlr hrl
    have hin : ¬ ((node h s v k l m r).balanceFactor < -1 ∨
        (node h s v k l m r).balanceFactor > 1) := by
      simp only [balanceFactor]
      omega
    simp only [isBalanced, if_neg hin, ihl hl, ihr hr, Bool.and_self]

variable {l' : TernarySearchTreeNode K V}

theorem balanceSet_left
    {d : Option Dir} (ht : (node h s v k l m r).level.Balanced) (hl' : l'.level.Balanced)
    (hg : AvlTree.Grown l.level l'.level (d.bind Dir.side)) : ∃ t, (node h s v k l' m r).balanceSet
    .left d = some t ∧ t.level.Balanced ∧ t.cells = (node h s v k l' m r).cells ∧
    AvlTree.Grown (node h s v k l m r).level t.level (some .left) := by
  obtain ⟨a, ha, ⟨hb, hlist⟩, hgrown⟩ := AvlTree.settle_left ht hl' hg h
  have hmap := level_balanceSet (show Dir.left.side = some .left from rfl) d (node h s v k l' m r)
  rw [level, ha] at hmap
  obtain ⟨t, hs, rfl⟩ := map_eq_some_iff.mp hmap
  exact ⟨t, hs, hb, hlist, hgrown⟩

variable {r' : TernarySearchTreeNode K V}

theorem balanceSet_right
    {d : Option Dir} (ht : (node h s v k l m r).level.Balanced) (hr' : r'.level.Balanced)
    (hg : AvlTree.Grown r.level r'.level (d.bind Dir.side)) : ∃ t, (node h s v k l m r').balanceSet
    .right d = some t ∧ t.level.Balanced ∧ t.cells = (node h s v k l m r').cells ∧
    AvlTree.Grown (node h s v k l m r).level t.level (some .right) := by
  obtain ⟨a, ha, ⟨hb, hlist⟩, hgrown⟩ := AvlTree.settle_right ht hr' hg h
  have hmap := level_balanceSet (show Dir.right.side = some .right from rfl) d (node h s v k l m r')
  rw [level, ha] at hmap
  obtain ⟨t, hs, rfl⟩ := map_eq_some_iff.mp hmap
  exact ⟨t, hs, hb, hlist, hgrown⟩

theorem balanceByStack_left
    (s' : JsString) (v' : Undef.Stored V) (k' : Option K) (ht : (node h s v k l m r).level.Balanced)
    (hl' : l'.level.Balanced) (hs : AvlTree.Shrunk l.level l'.level) :
    ∃ t, (node h s' v' k' l' m r).balanceByStack = some t ∧ t.level.Balanced ∧ t.cells =
    (node h s' v' k' l' m r).cells ∧ AvlTree.Shrunk (node h s v k l m r).level t.level := by
  obtain ⟨a, ha, ⟨hb, hlist⟩, hshrunk⟩ :=
    AvlTree.rebalance_left (balanced_replace ht s' v' k' m) hl' hs h
  have hmap := level_balanceByStack (node h s' v' k' l' m r)
  rw [level, ha] at hmap
  obtain ⟨t, hs, rfl⟩ := map_eq_some_iff.mp hmap
  exact ⟨t, hs, hb, hlist, hshrunk⟩

theorem balanceByStack_right
    (s' : JsString) (v' : Undef.Stored V) (k' : Option K) (ht : (node h s v k l m r).level.Balanced)
    (hr' : r'.level.Balanced) (hs : AvlTree.Shrunk r.level r'.level) :
    ∃ t, (node h s' v' k' l m r').balanceByStack = some t ∧ t.level.Balanced ∧ t.cells =
    (node h s' v' k' l m r').cells ∧ AvlTree.Shrunk (node h s v k l m r).level t.level := by
  obtain ⟨a, ha, ⟨hb, hlist⟩, hshrunk⟩ :=
    AvlTree.rebalance_right (balanced_replace ht s' v' k' m) hr' hs h
  have hmap := level_balanceByStack (node h s' v' k' l m r')
  rw [level, ha] at hmap
  obtain ⟨t, hs, rfl⟩ := map_eq_some_iff.mp hmap
  exact ⟨t, hs, hb, hlist, hshrunk⟩

end TernarySearchTreeNode

end CodeOss
