import Mathlib

/-! Red-black trees whose nodes carry data about their subtrees.
The place of a node is the list of frames from it up to the root. The rotations are the
usual ones; how a rotation changes the values of its two nodes is left to `Hooks`, which
may also change a state of the whole tree. -/

universe u v

inductive RbColor
  | red
  | black
deriving DecidableEq, Repr

inductive RbTree (α : Type u)
  | nil
  | node (color : RbColor) (left : RbTree α) (value : α) (right : RbTree α)
deriving DecidableEq, Repr

/-- A step of the path from a node to the root: the parent, without the child it leads to. -/
inductive RbFrame (α : Type u)
  | left (color : RbColor) (value : α) (right : RbTree α)
  | right (color : RbColor) (left : RbTree α) (value : α)

namespace RbTree

variable {α : Type u} {ω : Type v}

def color : RbTree α → RbColor
  | nil => .black
  | node c _ _ _ => c

def setColor (c : RbColor) : RbTree α → RbTree α
  | nil => nil
  | node _ l v r => node c l v r

def toList : RbTree α → List α
  | nil => []
  | node _ l v r => l.toList ++ v :: r.toList

def fill (t : RbTree α) : RbFrame α → RbTree α
  | .left c v r => node c t v r
  | .right c l v => node c l v t

/-- The whole tree, from the subtree at the lower end of a path. -/
def plug : List (RbFrame α) → RbTree α → RbTree α
  | [], t => t
  | f :: ctx, t => plug ctx (t.fill f)

/-- The first node in order that satisfies `p`, with its path. -/
def focus (p : α → Bool) : List (RbFrame α) → RbTree α →
    Option (List (RbFrame α) × RbColor × RbTree α × α × RbTree α)
  | _, nil => none
  | ctx, node c l v r =>
    match focus p (.left c v r :: ctx) l with
    | some found => some found
    | none => if p v then some (ctx, c, l, v, r) else focus p (.right c l v :: ctx) r

/-- The path from the root `node c l v r` of a subtree to the end of its left spine. -/
def leftest (ctx : List (RbFrame α)) (c : RbColor) : RbTree α → α → RbTree α →
    List (RbFrame α) × RbColor × α × RbTree α
  | nil, v, r => (ctx, c, v, r)
  | node c' l' v' r', v, r => leftest (.left c v r :: ctx) c' l' v' r'

def righttest (ctx : List (RbFrame α)) (c : RbColor) (l : RbTree α) (v : α) : RbTree α →
    List (RbFrame α) × RbColor × RbTree α × α
  | nil => (ctx, c, l, v)
  | node c' l' v' r' => righttest (.right c l v :: ctx) c' l' v' r'

/-- The values of the two nodes of a rotation, upper left `x` and lower right `y` for
`left`, and the other way around for `right`. -/
structure Hooks (α : Type u) (ω : Type v) where
  left : ω → RbTree α → α → RbTree α → α → RbTree α → α × α × ω
  right : ω → RbTree α → α → RbTree α → α → RbTree α → α × α × ω

def leftRotate (h : Hooks α ω) (w : ω) : RbTree α → RbTree α × ω
  | node cx a x (node cy b y d) =>
    let (x, y, w) := h.left w a x b y d
    (node cy (node cx a x b) y d, w)
  | t => (t, w)

def rightRotate (h : Hooks α ω) (w : ω) : RbTree α → RbTree α × ω
  | node cy (node cx a x b) y d =>
    let (x, y, w) := h.right w a x b y d
    (node cx a x (node cy b y d), w)
  | t => (t, w)

/-- The repair after an insertion of the red subtree `x`. -/
def insertFixup (h : Hooks α ω) (w : ω) : List (RbFrame α) → RbTree α → RbTree α × ω
  | .left .red p pr :: .left _ g y :: rest, x =>
    if y.color = .red then
      insertFixup h w rest (node .red (node .black x p pr) g (y.setColor .black))
    else
      let (t, w) := rightRotate h w (node .red (node .black x p pr) g y)
      ((plug rest t).setColor .black, w)
  | .right .red pl p :: .left _ g y :: rest, x =>
    if y.color = .red then
      insertFixup h w rest (node .red (node .black pl p x) g (y.setColor .black))
    else
      let (t, w) := leftRotate h w (node .red pl p x)
      let (t, w) := rightRotate h w (node .red (t.setColor .black) g y)
      ((plug rest t).setColor .black, w)
  | .right .red pl p :: .right _ y g :: rest, x =>
    if y.color = .red then
      insertFixup h w rest (node .red (y.setColor .black) g (node .black pl p x))
    else
      let (t, w) := leftRotate h w (node .red y g (node .black pl p x))
      ((plug rest t).setColor .black, w)
  | .left .red p pr :: .right _ y g :: rest, x =>
    if y.color = .red then
      insertFixup h w rest (node .red (y.setColor .black) g (node .black x p pr))
    else
      let (t, w) := rightRotate h w (node .red x p pr)
      let (t, w) := leftRotate h w (node .red y g (t.setColor .black))
      ((plug rest t).setColor .black, w)
  | ctx, x => ((plug ctx x).setColor .black, w)

/-- What a round of the repair after a deletion leaves: a subtree that makes up for the
missing black node, or one that is short of it as a whole. -/
inductive FixStep (α : Type u) (ω : Type v)
  | done (t : RbTree α) (w : ω)
  | up (t : RbTree α)

/-- The round at a black sibling `s` of the left child `x`, below a parent of color `c`. -/
def fixLeft (h : Hooks α ω) (w : ω) (c : RbColor) (x : RbTree α) (p : α) (s : RbTree α) :
    FixStep α ω :=
  match s with
  | nil => .up (node c x p nil)
  | node cs a v b =>
    if a.color = .black ∧ b.color = .black then .up (node c x p (node .red a v b))
    else
      let (s, w) := if b.color = .black then rightRotate h w (node .red (a.setColor .black) v b)
        else (node cs a v b, w)
      match s with
      | nil => .up (node c x p nil)
      | node _ a v b =>
        let (t, w) := leftRotate h w (node .black x p (node c a v (b.setColor .black)))
        .done t w

/-- The mirrored round, for the right child `x`. -/
def fixRight (h : Hooks α ω) (w : ω) (c : RbColor) (s : RbTree α) (p : α) (x : RbTree α) :
    FixStep α ω :=
  match s with
  | nil => .up (node c nil p x)
  | node cs a v b =>
    if a.color = .black ∧ b.color = .black then .up (node c (node .red a v b) p x)
    else
      let (s, w) := if a.color = .black then leftRotate h w (node .red a v (b.setColor .black))
        else (node cs a v b, w)
      match s with
      | nil => .up (node c nil p x)
      | node _ a v b =>
        let (t, w) := rightRotate h w (node .black (node c (a.setColor .black) v b) p x)
        .done t w

/-- The repair after a deletion that left `x` one black node short. -/
def deleteFixup (h : Hooks α ω) (w : ω) : List (RbFrame α) → RbTree α → RbTree α × ω
  | [], x => (x.setColor .black, w)
  | f :: rest, x =>
    if x.color = .red then (plug (f :: rest) (x.setColor .black), w)
    else match f with
      | .left _ p (node .red a v b) =>
        -- A red sibling: after the rotation the round is played one level lower, below
        -- a red parent, so the loop stops there either way.
        match leftRotate h w (node .red x p (node .black a v b)) with
        | (node ct (node cp x p s) v b, w) =>
          match fixLeft h w cp x p s with
          | .done t w => ((plug (.left ct v b :: rest) t).setColor .black, w)
          | .up t => (plug (.left ct v b :: rest) (t.setColor .black), w)
        | (t, w) => (plug rest t, w)
      | .left c p s =>
        match fixLeft h w c x p s with
        | .done t w => ((plug rest t).setColor .black, w)
        | .up t => deleteFixup h w rest t
      | .right _ (node .red a v b) p =>
        match rightRotate h w (node .red (node .black a v b) p x) with
        | (node ct a v (node cp s p x), w) =>
          match fixRight h w cp s p x with
          | .done t w => ((plug (.right ct a v :: rest) t).setColor .black, w)
          | .up t => (plug (.right ct a v :: rest) (t.setColor .black), w)
        | (t, w) => (plug rest t, w)
      | .right c s p =>
        match fixRight h w c s p x with
        | .done t w => ((plug rest t).setColor .black, w)
        | .up t => deleteFixup h w rest t

end RbTree

/-! The red-black rules and their repair.
`Balanced t c n` is a subtree with a root of color `c` and `n` black nodes on every way
down; `Hole ctx c n` is a path that such a subtree completes to a tree by the rules. -/

namespace RbTree

variable {α : Type u} {ω : Type v}

inductive Balanced : RbTree α → RbColor → Nat → Prop
  | nil : Balanced nil .black 0
  | red {l r : RbTree α} {v : α} {n : Nat} (hl : Balanced l .black n) (hr : Balanced r .black n) :
      Balanced (node .red l v r) .red n
  | black {l r : RbTree α} {v : α} {cl cr : RbColor} {n : Nat} (hl : Balanced l cl n)
      (hr : Balanced r cr n) : Balanced (node .black l v r) .black (n + 1)

inductive Hole : List (RbFrame α) → RbColor → Nat → Prop
  | root (n : Nat) : Hole [] .black n
  | leftRed {v : α} {r : RbTree α} {ctx : List (RbFrame α)} {n : Nat} (hr : Balanced r .black n)
      (h : Hole ctx .red n) : Hole (.left .red v r :: ctx) .black n
  | leftBlack {v : α} {r : RbTree α} {ctx : List (RbFrame α)} {n : Nat} {d : RbColor}
      (c : RbColor) (hr : Balanced r d n) (h : Hole ctx .black (n + 1)) :
      Hole (.left .black v r :: ctx) c n
  | rightRed {l : RbTree α} {v : α} {ctx : List (RbFrame α)} {n : Nat} (hl : Balanced l .black n)
      (h : Hole ctx .red n) : Hole (.right .red l v :: ctx) .black n
  | rightBlack {l : RbTree α} {v : α} {ctx : List (RbFrame α)} {n : Nat} {d : RbColor}
      (c : RbColor) (hl : Balanced l d n) (h : Hole ctx .black (n + 1)) :
      Hole (.right .black l v :: ctx) c n

def RedBlack (t : RbTree α) : Prop := ∃ n, Balanced t .black n

variable {t : RbTree α} {c : RbColor} {n : Nat} {ctx : List (RbFrame α)} {x s : RbTree α}

theorem Balanced.color_eq (h : Balanced t c n) : t.color = c := by
  cases h <;> rfl

theorem Balanced.setBlack (h : Balanced t c n) : RedBlack (t.setColor .black) := by
  cases h with
  | nil => exact ⟨0, .nil⟩
  | red hl hr => exact ⟨_, .black hl hr⟩
  | black hl hr => exact ⟨_, .black hl hr⟩

theorem Balanced.red_setBlack (h : Balanced t .red n) :
    Balanced (t.setColor .black) .black (n + 1) := by
  cases h with
  | red hl hr => exact .black hl hr

theorem Balanced.black_of_ne (h : Balanced t c n) (hc : t.color ≠ .red) : Balanced t .black n := by
  cases h with
  | nil => exact .nil
  | red hl hr => exact absurd rfl hc
  | black hl hr => exact .black hl hr

theorem Hole.of_red (h : Hole ctx .red n) (c : RbColor) : Hole ctx c n := by
  cases h with
  | leftBlack _ hr h => exact .leftBlack c hr h
  | rightBlack _ hl h => exact .rightBlack c hl h

theorem Hole.plug_balanced (h : Hole ctx c n) (ht : Balanced t c n) : RedBlack (plug ctx t) := by
  induction h generalizing t with
  | root n => exact ⟨n, ht⟩
  | leftRed hr _ ih => exact ih (.red ht hr)
  | leftBlack c hr _ ih => exact ih (.black ht hr)
  | rightRed hl _ ih => exact ih (.red hl ht)
  | rightBlack c hl _ ih => exact ih (.black hl ht)

theorem RedBlack.setColor (h : RedBlack t) : RedBlack (t.setColor .black) := by
  obtain ⟨n, hn⟩ := h
  exact hn.setBlack

theorem Hole.fill {f : RbFrame α} (h : Hole ctx c n) (ht : Balanced (t.fill f) c n) :
    ∃ c' n', Hole (f :: ctx) c' n' ∧ Balanced t c' n' := by
  cases f with
  | left cf v r =>
    cases ht with
    | red hl hr => exact ⟨_, _, .leftRed hr h, hl⟩
    | black hl hr => exact ⟨_, _, .leftBlack _ hr h, hl⟩
  | right cf l v =>
    cases ht with
    | red hl hr => exact ⟨_, _, .rightRed hl h, hr⟩
    | black hl hr => exact ⟨_, _, .rightBlack _ hl h, hr⟩

theorem RedBlack.split (h : RedBlack (plug ctx t)) : ∃ c n, Hole ctx c n ∧ Balanced t c n := by
  induction ctx generalizing t with
  | nil =>
    obtain ⟨n, hn⟩ := h
    exact ⟨_, n, .root n, hn⟩
  | cons f ctx ih =>
    obtain ⟨c, n, hctx, ht⟩ := ih h
    exact hctx.fill ht

theorem insertFixup_redBlack (h : Hooks α ω) (w : ω) :
    ∀ {ctx : List (RbFrame α)} {x : RbTree α} {n : Nat}, Hole ctx .black n → Balanced x .red n →
      RedBlack (insertFixup h w ctx x).1
  | [], x, n, _, hx => hx.setBlack
  | .left .black v r :: ctx, x, n, .leftBlack _ hr hctx, hx => by
    rw [insertFixup.eq_def]
    exact (Hole.plug_balanced (.leftBlack _ hr hctx) hx).setColor
  | .right .black l v :: ctx, x, n, .rightBlack _ hl hctx, hx => by
    rw [insertFixup.eq_def]
    exact (Hole.plug_balanced (.rightBlack _ hl hctx) hx).setColor
  | .left .red p pr :: .left _ g y :: ctx, x, n, .leftRed hpr (.leftBlack _ hy hctx), hx => by
    rw [insertFixup]
    split_ifs with huncle
    · obtain rfl := hy.color_eq.symm.trans huncle
      exact insertFixup_redBlack h w hctx (.red (.black hx hpr) hy.red_setBlack)
    · exact (hctx.plug_balanced (.black hx (.red hpr (hy.black_of_ne huncle)))).setColor
  | .right .red pl p :: .left _ g y :: ctx, x, n, .rightRed hpl (.leftBlack _ hy hctx), hx => by
    rw [insertFixup]
    split_ifs with huncle
    · obtain rfl := hy.color_eq.symm.trans huncle
      exact insertFixup_redBlack h w hctx (.red (.black hpl hx) hy.red_setBlack)
    · cases hx with
      | red hxl hxr =>
        exact (hctx.plug_balanced
          (.black (.red hpl hxl) (.red hxr (hy.black_of_ne huncle)))).setColor
  | .right .red pl p :: .right _ y g :: ctx, x, n, .rightRed hpl (.rightBlack _ hy hctx), hx => by
    rw [insertFixup]
    split_ifs with huncle
    · obtain rfl := hy.color_eq.symm.trans huncle
      exact insertFixup_redBlack h w hctx (.red hy.red_setBlack (.black hpl hx))
    · exact (hctx.plug_balanced (.black (.red (hy.black_of_ne huncle) hpl) hx)).setColor
  | .left .red p pr :: .right _ y g :: ctx, x, n, .leftRed hpr (.rightBlack _ hy hctx), hx => by
    rw [insertFixup]
    split_ifs with huncle
    · obtain rfl := hy.color_eq.symm.trans huncle
      exact insertFixup_redBlack h w hctx (.red hy.red_setBlack (.black hx hpr))
    · cases hx with
      | red hxl hxr =>
        exact (hctx.plug_balanced
          (.black (.red (hy.black_of_ne huncle) hxl) (.red hxr hpr))).setColor

/-- The height of a node of color `c` over subtrees of height `n`. -/
def nodeHeight (c : RbColor) (n : Nat) : Nat := if c = .black then n + 1 else n

theorem Balanced.node {l r : RbTree α} (c : RbColor) (v : α) (hl : Balanced l .black n)
    (hr : Balanced r .black n) : Balanced (node c l v r) c (nodeHeight c n) := by
  cases c with
  | red => exact .red hl hr
  | black => exact .black hl hr

theorem fixLeft_spec (h : Hooks α ω) (w : ω) (c : RbColor) (p : α) (hx : Balanced x .black n)
    (hs : Balanced s .black (n + 1)) :
    (∃ t w', fixLeft h w c x p s = .done t w' ∧ Balanced t c (nodeHeight c (n + 1))) ∨
      ∃ s', fixLeft h w c x p s = .up (RbTree.node c x p s') ∧ Balanced s' .red n := by
  cases hs with
  | @black a b v ca cb _ ha hb =>
    simp only [fixLeft]
    split_ifs with hboth hinner
    · obtain rfl := ha.color_eq.symm.trans hboth.1
      obtain rfl := hb.color_eq.symm.trans hboth.2
      exact .inr ⟨_, rfl, .red ha hb⟩
    · obtain rfl := hb.color_eq.symm.trans hinner
      cases ha with
      | nil => exact absurd ⟨rfl, hinner⟩ hboth
      | black => exact absurd ⟨rfl, hinner⟩ hboth
      | red hal har => exact .inl ⟨_, _, rfl, .node c _ (.black hx hal) (.black har hb)⟩
    · cases hb with
      | nil => exact absurd rfl hinner
      | black => exact absurd rfl hinner
      | red hbl hbr => exact .inl ⟨_, _, rfl, .node c _ (.black hx ha) (.black hbl hbr)⟩

theorem fixRight_spec (h : Hooks α ω) (w : ω) (c : RbColor) (p : α) (hx : Balanced x .black n)
    (hs : Balanced s .black (n + 1)) :
    (∃ t w', fixRight h w c s p x = .done t w' ∧ Balanced t c (nodeHeight c (n + 1))) ∨
      ∃ s', fixRight h w c s p x = .up (RbTree.node c s' p x) ∧ Balanced s' .red n := by
  cases hs with
  | @black a b v ca cb _ ha hb =>
    simp only [fixRight]
    split_ifs with hboth hinner
    · obtain rfl := ha.color_eq.symm.trans hboth.1
      obtain rfl := hb.color_eq.symm.trans hboth.2
      exact .inr ⟨_, rfl, .red ha hb⟩
    · obtain rfl := ha.color_eq.symm.trans hinner
      cases hb with
      | nil => exact absurd ⟨hinner, rfl⟩ hboth
      | black => exact absurd ⟨hinner, rfl⟩ hboth
      | red hbl hbr => exact .inl ⟨_, _, rfl, .node c _ (.black ha hbl) (.black hbr hx)⟩
    · cases ha with
      | nil => exact absurd rfl hinner
      | black => exact absurd rfl hinner
      | red hal har => exact .inl ⟨_, _, rfl, .node c _ (.black hal har) (.black hb hx)⟩

/-- A subtree that is one black node short of height `n + 1`, or would be tall enough were
its root not red. -/
def Short (x : RbTree α) (n : Nat) : Prop :=
  Balanced x .black n ∨ x.color = .red ∧ Balanced (x.setColor .black) .black (n + 1)

theorem Balanced.short (h : Balanced x c n) : Short x n := by
  cases c with
  | red => exact .inr ⟨h.color_eq, h.red_setBlack⟩
  | black => exact .inl h

theorem deleteFixup_of_red (h : Hooks α ω) (w : ω) (f : RbFrame α) (ctx : List (RbFrame α))
    (hx : x.color = .red) :
    deleteFixup h w (f :: ctx) x = (plug (f :: ctx) (x.setColor .black), w) := by
  rw [deleteFixup.eq_def]
  simp only [hx, if_true]

theorem deleteFixup_left_black (h : Hooks α ω) (w : ω) (c : RbColor) (p : α)
    (ctx : List (RbFrame α)) (hx : x.color = .black) (hs : s.color = .black) :
    deleteFixup h w (.left c p s :: ctx) x = match fixLeft h w c x p s with
      | .done t w => ((plug ctx t).setColor .black, w)
      | .up t => deleteFixup h w ctx t := by
  rw [deleteFixup.eq_def]
  simp only [hx, reduceCtorEq, if_false]
  rcases s with _ | ⟨_ | _, a, v, b⟩
  · rfl
  · cases hs
  · rfl

theorem deleteFixup_left_red (h : Hooks α ω) (w : ω) (c : RbColor) (p v : α) (a b : RbTree α)
    (ctx : List (RbFrame α)) (hx : x.color = .black) :
    deleteFixup h w (.left c p (node .red a v b) :: ctx) x =
      match fixLeft h (h.left w x p a v b).2.2 .red x (h.left w x p a v b).1 a with
      | .done t w' => ((plug (.left .black (h.left w x p a v b).2.1 b :: ctx) t).setColor .black,
    w')
      | .up t => (plug (.left .black (h.left w x p a v b).2.1 b :: ctx) (t.setColor .black),
          (h.left w x p a v b).2.2) := by
  rw [deleteFixup.eq_def]
  cases hfix : fixLeft h (h.left w x p a v b).2.2 .red x (h.left w x p a v b).1 a <;>
    simp only [hx, reduceCtorEq, if_false, leftRotate, hfix]

theorem deleteFixup_right_black (h : Hooks α ω) (w : ω) (c : RbColor) (p : α)
    (ctx : List (RbFrame α)) (hx : x.color = .black) (hs : s.color = .black) :
    deleteFixup h w (.right c s p :: ctx) x = match fixRight h w c s p x with
      | .done t w => ((plug ctx t).setColor .black, w)
      | .up t => deleteFixup h w ctx t := by
  rw [deleteFixup.eq_def]
  simp only [hx, reduceCtorEq, if_false]
  rcases s with _ | ⟨_ | _, a, v, b⟩
  · rfl
  · cases hs
  · rfl

theorem deleteFixup_right_red (h : Hooks α ω) (w : ω) (c : RbColor) (p v : α) (a b : RbTree α)
    (ctx : List (RbFrame α)) (hx : x.color = .black) :
    deleteFixup h w (.right c (node .red a v b) p :: ctx) x =
      match fixRight h (h.right w a v b p x).2.2 .red b (h.right w a v b p x).2.1 x with
      | .done t w' => ((plug (.right .black a (h.right w a v b p x).1 :: ctx) t).setColor .black,
    w')
      | .up t => (plug (.right .black a (h.right w a v b p x).1 :: ctx) (t.setColor .black),
          (h.right w a v b p x).2.2) := by
  rw [deleteFixup.eq_def]
  cases hfix : fixRight h (h.right w a v b p x).2.2 .red b (h.right w a v b p x).2.1 x <;>
    simp only [hx, reduceCtorEq, if_false, rightRotate, hfix]

theorem deleteFixup_redBlack (h : Hooks α ω) (w : ω) :
    ∀ {ctx : List (RbFrame α)} {x : RbTree α} {n : Nat}, Hole ctx .black (n + 1) → Short x n →
      RedBlack (deleteFixup h w ctx x).1
  | [], x, n, _, hx => by
    rcases hx with hx | ⟨-, hx⟩
    · exact hx.setBlack
    · exact ⟨_, hx⟩
  | f :: ctx, x, n, hctx, .inr ⟨hred, hx⟩ => by
    rw [deleteFixup_of_red h w f ctx hred]
    exact hctx.plug_balanced hx
  | .left .red p s :: ctx, x, n, .leftRed hs hctx, .inl hx => by
    rw [deleteFixup_left_black h w .red p ctx hx.color_eq hs.color_eq]
    rcases fixLeft_spec h w .red p hx hs with ⟨t, w', heq, ht⟩ | ⟨s', heq, hs'⟩
    · rw [heq]
      exact (hctx.plug_balanced ht).setColor
    · rw [heq]
      exact deleteFixup_redBlack h w (hctx.of_red .black) (.inr ⟨rfl, .black hx hs'⟩)
  | .left .black p s :: ctx, x, n, .leftBlack (d := .black) _ hs hctx, .inl hx => by
    rw [deleteFixup_left_black h w .black p ctx hx.color_eq hs.color_eq]
    rcases fixLeft_spec h w .black p hx hs with ⟨t, w', heq, ht⟩ | ⟨s', heq, hs'⟩
    · rw [heq]
      exact (hctx.plug_balanced ht).setColor
    · rw [heq]
      exact deleteFixup_redBlack h w hctx (.inl (.black hx hs'))
  | .left .black p _ :: ctx, x, n, .leftBlack (d := .red) _ (.red ha hb) hctx, .inl hx => by
    rw [deleteFixup_left_red h w .black p _ _ _ ctx hx.color_eq]
    rcases fixLeft_spec h _ .red _ hx ha with ⟨t, w'', heq', ht⟩ | ⟨s', heq', hs'⟩
    · rw [heq']
      exact (Hole.plug_balanced (.leftBlack .red hb hctx) ht).setColor
    · rw [heq']
      exact Hole.plug_balanced (.leftBlack .black hb hctx) (.black hx hs')
  | .right .red s p :: ctx, x, n, .rightRed hs hctx, .inl hx => by
    rw [deleteFixup_right_black h w .red p ctx hx.color_eq hs.color_eq]
    rcases fixRight_spec h w .red p hx hs with ⟨t, w', heq, ht⟩ | ⟨s', heq, hs'⟩
    · rw [heq]
      exact (hctx.plug_balanced ht).setColor
    · rw [heq]
      exact deleteFixup_redBlack h w (hctx.of_red .black) (.inr ⟨rfl, .black hs' hx⟩)
  | .right .black s p :: ctx, x, n, .rightBlack (d := .black) _ hs hctx, .inl hx => by
    rw [deleteFixup_right_black h w .black p ctx hx.color_eq hs.color_eq]
    rcases fixRight_spec h w .black p hx hs with ⟨t, w', heq, ht⟩ | ⟨s', heq, hs'⟩
    · rw [heq]
      exact (hctx.plug_balanced ht).setColor
    · rw [heq]
      exact deleteFixup_redBlack h w hctx (.inl (.black hs' hx))
  | .right .black _ p :: ctx, x, n, .rightBlack (d := .red) _ (.red ha hb) hctx, .inl hx => by
    rw [deleteFixup_right_red h w .black p _ _ _ ctx hx.color_eq]
    rcases fixRight_spec h _ .red _ hx hb with ⟨t, w'', heq', ht⟩ | ⟨s', heq', hs'⟩
    · rw [heq']
      exact (Hole.plug_balanced (.rightBlack .red ha hctx) ht).setColor
    · rw [heq']
      exact Hole.plug_balanced (.rightBlack .black ha hctx) (.black hs' hx)

def height : RbTree α → Nat
  | .nil => 0
  | .node _ l _ r => max l.height r.height + 1

theorem Balanced.height_le (h : Balanced t c n) :
    t.height ≤ 2 * n + (if c = .red then 1 else 0) ∧ 2 ^ n ≤ t.toList.length + 1 := by
  induction h with
  | nil => simp [height, toList]
  | red hl hr ihl ihr =>
    simp only [height, toList, List.length_append, List.length_cons, reduceCtorEq, if_false,
      if_true] at *
    omega
  | black hl hr ihl ihr =>
    simp only [height, toList, List.length_append, List.length_cons, reduceCtorEq, if_false,
      pow_succ] at *
    split_ifs at ihl ihr <;> omega

theorem RedBlack.height_le (h : RedBlack t) : t.height ≤ 2 * Nat.log 2 (t.toList.length + 1) := by
  obtain ⟨n, hn⟩ := h
  obtain ⟨hheight, hlength⟩ := hn.height_le
  have hlog := Nat.le_log_of_pow_le Nat.one_lt_two hlength
  simp only [reduceCtorEq, if_false] at hheight
  omega

end RbTree
