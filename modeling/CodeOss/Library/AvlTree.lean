import Mathlib

/-! Height-balanced binary trees whose nodes store their height. A rotation is
partial: it fails on a node without the child it would lift. -/

namespace CodeOss

inductive AvlTree (α : Type) where
  | nil
  | node (height : Nat) (label : α) (left right : AvlTree α)

namespace AvlTree

variable {α : Type}

def height : AvlTree α → Nat
  | nil => 0
  | node h _ _ _ => h

def toList : AvlTree α → List α
  | nil => []
  | node _ a l r => l.toList ++ a :: r.toList

def join (a : α) (l r : AvlTree α) : AvlTree α := node (1 + max l.height r.height) a l r

def balanceFactor : AvlTree α → Int
  | nil => 0
  | node _ _ l r => r.height - l.height

def rotateLeft : AvlTree α → Option (AvlTree α)
  | node _ a l (node _ b m r) => some (join b (join a l m) r)
  | _ => none

def rotateRight : AvlTree α → Option (AvlTree α)
  | node _ a (node _ b l m) r => some (join b l (join a m r))
  | _ => none

/-- Every stored height is the height, and siblings differ by at most one level. -/
def Balanced : AvlTree α → Prop
  | nil => True
  | node h _ l r =>
    h = 1 + max l.height r.height ∧ l.height ≤ r.height + 1 ∧ r.height ≤ l.height + 1 ∧
      l.Balanced ∧ r.Balanced

@[simp] theorem height_nil : (nil : AvlTree α).height = 0 := rfl

@[simp] theorem height_node (h : Nat) (a : α) (l r : AvlTree α) :
    (node h a l r).height = h := rfl

@[simp] theorem balanceFactor_node (h : Nat) (a : α) (l r : AvlTree α) :
    (node h a l r).balanceFactor = r.height - l.height := rfl

@[simp] theorem height_join (a : α) (l r : AvlTree α) :
    (join a l r).height = 1 + max l.height r.height := rfl

@[simp] theorem balanceFactor_join (a : α) (l r : AvlTree α) :
    (join a l r).balanceFactor = r.height - l.height := rfl

@[simp] theorem toList_join (a : α) (l r : AvlTree α) :
    (join a l r).toList = l.toList ++ a :: r.toList := rfl

@[simp] theorem balanced_join (a : α) (l r : AvlTree α) : (join a l r).Balanced ↔
    l.height ≤ r.height + 1 ∧ r.height ≤ l.height + 1 ∧ l.Balanced ∧ r.Balanced := by
  simp [join, Balanced]

theorem rotateLeft_node (h : Nat) (a : α) (l r : AvlTree α) :
    (node h a l r).rotateLeft = (join a l r).rotateLeft := by
  cases r <;> rfl

theorem rotateRight_node (h : Nat) (a : α) (l r : AvlTree α) :
    (node h a l r).rotateRight = (join a l r).rotateRight := by
  cases l <;> rfl

/-- What a repair of a node over `l` and `r` leaves: a balanced tree with the same labels in
the same order. -/
def Repairs (a : α) (l r t : AvlTree α) : Prop :=
  t.Balanced ∧ t.toList = l.toList ++ a :: r.toList

section Repairs

variable {a : α} {l r : AvlTree α}

variable (hl : l.Balanced)
include hl

theorem rotateRight_repairs (hr : r.Balanced) (hheavy : l.height = r.height + 2)
    (hlean : l.balanceFactor ≤ 0) : ∃ t, (join a l r).rotateRight = some t ∧ Repairs a l r t ∧
    t.height = l.height + (1 + l.balanceFactor).toNat := by
  match l, hl with
  | nil, _ => simp at hheavy
  | node k b x y, hl =>
    obtain ⟨hk, hxy, hyx, hx, hy⟩ := hl
    simp only [balanceFactor_node, height_node] at hheavy hlean ⊢
    refine ⟨_, rfl, ⟨?_, by simp [toList]⟩, ?_⟩
    · simp only [balanced_join, height_join]
      exact ⟨by omega, by omega, hx, by omega, by omega, hy, hr⟩
    · simp only [height_join]
      omega

theorem rotateLeft_repairs (hr : r.Balanced) (hheavy : r.height = l.height + 2)
    (hlean : 0 ≤ r.balanceFactor) : ∃ t, (join a l r).rotateLeft = some t ∧ Repairs a l r t ∧
    t.height = r.height + (1 - r.balanceFactor).toNat := by
  match r, hr with
  | nil, _ => simp at hheavy
  | node k b x y, hr =>
    obtain ⟨hk, hxy, hyx, hx, hy⟩ := hr
    simp only [balanceFactor_node, height_node] at hheavy hlean ⊢
    refine ⟨_, rfl, ⟨?_, by simp [toList]⟩, ?_⟩
    · simp only [balanced_join, height_join]
      exact ⟨by omega, by omega, ⟨by omega, by omega, hl, hx⟩, hy⟩
    · simp only [height_join]
      omega

theorem rotateLeftRight_repairs (hr : r.Balanced)
    (hheavy : l.height = r.height + 2) (hlean : 0 < l.balanceFactor) : ∃ l' t, l.rotateLeft =
    some l' ∧ (join a l' r).rotateRight = some t ∧ Repairs a l r t ∧ t.height = l.height := by
  match l, hl with
  | nil, _ => simp at hheavy
  | node k b x nil, hl =>
    simp at hlean
    omega
  | node k b x (node k' c y z), hl =>
    obtain ⟨hk, hxy, hyx, hx, hk', hyz, hzy, hy, hz⟩ := hl
    simp only [balanceFactor_node, height_node] at hheavy hlean hk hxy hyx ⊢
    refine ⟨_, _, rfl, rfl, ⟨?_, by simp [toList]⟩, ?_⟩
    · simp only [balanced_join, height_join]
      exact ⟨by omega, by omega, ⟨by omega, by omega, hx, hy⟩, by omega, by omega, hz, hr⟩
    · simp only [height_join]
      omega

theorem rotateRightLeft_repairs (hr : r.Balanced)
    (hheavy : r.height = l.height + 2) (hlean : r.balanceFactor < 0) : ∃ r' t, r.rotateRight =
    some r' ∧ (join a l r').rotateLeft = some t ∧ Repairs a l r t ∧ t.height = r.height := by
  match r, hr with
  | nil, _ => simp at hheavy
  | node k b nil x, hr =>
    simp at hlean
    omega
  | node k b (node k' c y z) x, hr =>
    obtain ⟨hk, hxy, hyx, ⟨hk', hyz, hzy, hy, hz⟩, hx⟩ := hr
    simp only [balanceFactor_node, height_node] at hheavy hlean hk hxy hyx ⊢
    refine ⟨_, _, rfl, rfl, ⟨?_, by simp [toList]⟩, ?_⟩
    · simp only [balanced_join, height_join]
      exact ⟨by omega, by omega, ⟨by omega, by omega, hl, hy⟩, by omega, by omega, hz, hx⟩
    · simp only [height_join]
      omega

end Repairs

/-- One round of the repair of a node whose subtrees may have lost a level. -/
def rebalance : AvlTree α → Option (AvlTree α)
  | nil => some nil
  | node _ a l r =>
    if 1 < (join a l r).balanceFactor then
      if 0 ≤ r.balanceFactor then (join a l r).rotateLeft
      else do (join a l (← r.rotateRight)).rotateLeft
    else if (join a l r).balanceFactor < -1 then
      if l.balanceFactor ≤ 0 then (join a l r).rotateRight
      else do (join a (← l.rotateLeft) r).rotateRight
    else some (join a l r)

/-- The tree has kept its height or lost one level. -/
def Shrunk (t t' : AvlTree α) : Prop := t'.height ≤ t.height ∧ t.height ≤ t'.height + 1

theorem Shrunk.refl (t : AvlTree α) : Shrunk t t := ⟨le_rfl, Nat.le_succ _⟩

variable {l r : AvlTree α} {h : Nat} {a : α}

theorem rebalance_repairs (h : Nat) (a : α) (hl : l.Balanced)
    (hr : r.Balanced) (hlr : l.height ≤ r.height + 2) (hrl : r.height ≤ l.height + 2) :
    ∃ t, (node h a l r).rebalance = some t ∧
    Repairs a l r t ∧ max l.height r.height ≤ t.height ∧ t.height ≤ 1 + max l.height r.height ∧
    (l.height ≤ r.height + 1 → r.height ≤ l.height + 1 → t.height = 1 + max l.height r.height) := by
  have hbf : (join a l r).balanceFactor = r.height - l.height := rfl
  simp only [rebalance]
  by_cases hright : 1 < (join a l r).balanceFactor
  · rw [if_pos hright]
    by_cases hlean : 0 ≤ r.balanceFactor
    · rw [if_pos hlean]
      obtain ⟨t, ht, hrep, hh⟩ := rotateLeft_repairs (a := a) hl hr (by omega) hlean
      exact ⟨t, ht, hrep, by omega, by omega, fun _ _ => by omega⟩
    · rw [if_neg hlean]
      obtain ⟨r', t, hr', ht, hrep, hh⟩ :=
        rotateRightLeft_repairs (a := a) hl hr (by omega) (by omega)
      refine ⟨t, ?_, hrep, by omega, by omega, fun _ _ => by omega⟩
      rw [hr']
      exact ht
  · rw [if_neg hright]
    by_cases hleft : (join a l r).balanceFactor < -1
    · rw [if_pos hleft]
      by_cases hlean : l.balanceFactor ≤ 0
      · rw [if_pos hlean]
        obtain ⟨t, ht, hrep, hh⟩ := rotateRight_repairs (a := a) hl hr (by omega) hlean
        exact ⟨t, ht, hrep, by omega, by omega, fun _ _ => by omega⟩
      · rw [if_neg hlean]
        obtain ⟨l', t, hl', ht, hrep, hh⟩ :=
          rotateLeftRight_repairs (a := a) hl hr (by omega) (by omega)
        refine ⟨t, ?_, hrep, by omega, by omega, fun _ _ => by omega⟩
        rw [hl']
        exact ht
    · rw [if_neg hleft]
      refine ⟨_, rfl, ⟨?_, rfl⟩, ?_, le_rfl, fun _ _ => rfl⟩
      · exact ⟨rfl, by omega, by omega, hl, hr⟩
      · simp only [height_join]
        omega

theorem rebalance_left {l' : AvlTree α}
    (ht : (node h a l r).Balanced) (hl' : l'.Balanced) (hs : Shrunk l l') (k : Nat) :
    ∃ t, (node k a l' r).rebalance = some t ∧ Repairs a l' r t ∧ Shrunk (node h a l r) t := by
  obtain ⟨hh, hlr, hrl, hl, hr⟩ := ht
  obtain ⟨hs₁, hs₂⟩ := hs
  obtain ⟨t, ht, hrep, hlow, hup, heq⟩ :=
    rebalance_repairs k a hl' hr (by omega) (by omega)
  refine ⟨t, ht, hrep, ?_⟩
  simp only [Shrunk, height_node]
  by_cases hb : r.height ≤ l'.height + 1
  · have := heq (by omega) hb
    omega
  · omega

theorem rebalance_right {r' : AvlTree α}
    (ht : (node h a l r).Balanced) (hr' : r'.Balanced) (hs : Shrunk r r') (k : Nat) :
    ∃ t, (node k a l r').rebalance = some t ∧ Repairs a l r' t ∧ Shrunk (node h a l r) t := by
  obtain ⟨hh, hlr, hrl, hl, hr⟩ := ht
  obtain ⟨hs₁, hs₂⟩ := hs
  obtain ⟨t, ht, hrep, hlow, hup, heq⟩ :=
    rebalance_repairs k a hl hr' (by omega) (by omega)
  refine ⟨t, ht, hrep, ?_⟩
  simp only [Shrunk, height_node]
  by_cases hb : l.height ≤ r'.height + 1
  · have := heq hb (by omega)
    omega
  · omega

inductive Side where
  | left
  | right

/-- One round of the repair of a node under which a node was added: the way taken at it is
`d₁`, the way taken at the child there `d₂`. -/
def settle (d₁ : Side) (d₂ : Option Side) : AvlTree α → Option (AvlTree α)
  | nil => some nil
  | node _ a l r =>
    if (join a l r).balanceFactor < -1 ∨ 1 < (join a l r).balanceFactor then
      match d₁, d₂ with
      | .right, some .right => (join a l r).rotateLeft
      | .left, some .left => (join a l r).rotateRight
      | .right, some .left => do (join a l (← r.rotateRight)).rotateLeft
      | .left, some .right => do (join a (← l.rotateLeft) r).rotateRight
      | _, none => none
    else some (join a l r)

/-- The tree has kept its height, or gained a level on the side the addition went to. -/
def Grown (t t' : AvlTree α) (d : Option Side) : Prop :=
  t'.height = t.height ∨
    t'.height = t.height + 1 ∧
      (t.height = 0 ∨ d = some .left ∧ t'.balanceFactor = -1 ∨
        d = some .right ∧ t'.balanceFactor = 1)

theorem settle_left {l' : AvlTree α} {d : Option Side} (ht : (node h a l r).Balanced)
    (hl' : l'.Balanced) (hg : Grown l l' d) (k : Nat) : ∃ t, (node k a l' r).settle .left d =
    some t ∧ Repairs a l' r t ∧ Grown (node h a l r) t (some .left) := by
  obtain ⟨hh, hlr, hrl, hl, hr⟩ := ht
  have hbf : (join a l' r).balanceFactor = r.height - l'.height := rfl
  simp only [settle]
  by_cases hb : l'.height ≤ r.height + 1
  · have hgrown : l'.height = l.height ∨ l'.height = l.height + 1 := by
      rcases hg with hg | hg
      exacts [.inl hg, .inr hg.1]
    rw [if_neg (by omega)]
    refine ⟨_, rfl, ⟨⟨rfl, hb, by omega, hl', hr⟩, rfl⟩, ?_⟩
    simp only [Grown, height_node, height_join, balanceFactor_join, true_and]
    omega
  · rw [if_pos (by omega)]
    rcases hg with hg | ⟨hg, hnil | ⟨rfl, hlean⟩ | ⟨rfl, hlean⟩⟩
    · omega
    · omega
    · obtain ⟨t, ht, hrep, hth⟩ :=
        rotateRight_repairs (a := a) hl' hr (by omega)
          (by omega)
      refine ⟨t, ht, hrep, .inl ?_⟩
      rw [height_node]
      omega
    · obtain ⟨l₂, t, hl₂, ht, hrep, hth⟩ :=
        rotateLeftRight_repairs (a := a) hl' hr (by omega)
          (by omega)
      refine ⟨t, ?_, hrep, .inl ?_⟩
      · simp only [hl₂]
        exact ht
      · rw [height_node]
        omega

theorem settle_right {r' : AvlTree α} {d : Option Side} (ht : (node h a l r).Balanced)
    (hr' : r'.Balanced) (hg : Grown r r' d) (k : Nat) : ∃ t, (node k a l r').settle .right d =
    some t ∧ Repairs a l r' t ∧ Grown (node h a l r) t (some .right) := by
  obtain ⟨hh, hlr, hrl, hl, hr⟩ := ht
  have hbf : (join a l r').balanceFactor = r'.height - l.height := rfl
  simp only [settle]
  by_cases hb : r'.height ≤ l.height + 1
  · have hgrown : r'.height = r.height ∨ r'.height = r.height + 1 := by
      rcases hg with hg | hg
      exacts [.inl hg, .inr hg.1]
    rw [if_neg (by omega)]
    refine ⟨_, rfl, ⟨⟨rfl, by omega, hb, hl, hr'⟩, rfl⟩, ?_⟩
    simp only [Grown, height_node, height_join, balanceFactor_join, true_and]
    omega
  · rw [if_pos (by omega)]
    rcases hg with hg | ⟨hg, hnil | ⟨rfl, hlean⟩ | ⟨rfl, hlean⟩⟩
    · omega
    · omega
    · obtain ⟨r₂, t, hr₂, ht, hrep, hth⟩ :=
        rotateRightLeft_repairs (a := a) hl hr' (by omega)
          (by omega)
      refine ⟨t, ?_, hrep, .inl ?_⟩
      · simp only [hr₂]
        exact ht
      · rw [height_node]
        omega
    · obtain ⟨t, ht, hrep, hth⟩ :=
        rotateLeft_repairs (a := a) hl hr' (by omega)
          (by omega)
      refine ⟨t, ht, hrep, .inl ?_⟩
      rw [height_node]
      omega

end AvlTree

end CodeOss
