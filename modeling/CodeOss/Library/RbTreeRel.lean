import CodeOss.Library.RbTree

/-! What rotations keep, both repairs keep.
A relation between trees that looks through colors, holds of a node when it holds of its
subtrees, and holds across a rotation, holds across the repair of a whole tree. -/

universe u v

namespace RbTree

variable {α : Type u} {ω : Type v}

structure Hooks.Respects (h : Hooks α ω) (R : RbTree α → RbTree α → Prop) : Prop where
  refl : ∀ t, R t t
  trans : ∀ {s t u}, R s t → R t u → R s u
  node : ∀ {l l' r r'} (c c' : RbColor) (v : α), R l l' → R r r' →
    R (node c l v r) (node c' l' v r')
  leftRotate : ∀ w t, R t (leftRotate h w t).1
  rightRotate : ∀ w t, R t (rightRotate h w t).1

variable {h : Hooks α ω} {R : RbTree α → RbTree α → Prop}

section

variable (hR : h.Respects R)
include hR

theorem Hooks.Respects.setColor (c : RbColor) (t : RbTree α) : R t (t.setColor c) := by
  cases t with
  | nil => exact hR.refl nil
  | node c' l v r => exact hR.node c' c v (hR.refl l) (hR.refl r)

variable {t t' : RbTree α}

theorem Hooks.Respects.fill (f : RbFrame α) (ht : R t t') : R (t.fill f) (t'.fill f) := by
  cases f with
  | left c v r => exact hR.node c c v ht (hR.refl r)
  | right c l v => exact hR.node c c v (hR.refl l) ht

theorem Hooks.Respects.plug (ctx : List (RbFrame α))
    (ht : R t t') : R (plug ctx t) (plug ctx t') := by
  induction ctx generalizing t t' with
  | nil => exact ht
  | cons f ctx ih => exact ih (hR.fill f ht)

theorem Hooks.Respects.plug_black (ctx : List (RbFrame α))
    (ht : R t t') : R (RbTree.plug ctx t) ((RbTree.plug ctx t').setColor .black) :=
  hR.trans (hR.plug ctx ht) (hR.setColor .black _)

theorem Hooks.Respects.insertFixup (w : ω) (ctx : List (RbFrame α))
    (x : RbTree α) : R (RbTree.plug ctx x) (insertFixup h w ctx x).1 := by
  induction ctx, x using insertFixup.induct h w with
  | case1 p pr _ g y rest x huncle ih =>
    rw [RbTree.insertFixup, if_pos huncle]
    refine hR.trans (hR.plug rest ?_) ih
    exact hR.node _ _ g (hR.node _ _ p (hR.refl x) (hR.refl pr)) (hR.setColor .black y)
  | case2 p pr _ g y rest x huncle =>
    rw [RbTree.insertFixup, if_neg huncle]
    refine hR.plug_black rest (hR.trans ?_ (hR.rightRotate w _))
    exact hR.node _ _ g (hR.node _ _ p (hR.refl x) (hR.refl pr)) (hR.refl y)
  | case3 pl p _ g y rest x huncle ih =>
    rw [RbTree.insertFixup, if_pos huncle]
    refine hR.trans (hR.plug rest ?_) ih
    exact hR.node _ _ g (hR.node _ _ p (hR.refl pl) (hR.refl x)) (hR.setColor .black y)
  | case4 pl p _ g y rest x huncle =>
    rw [RbTree.insertFixup, if_neg huncle]
    refine hR.plug_black rest (hR.trans ?_ (hR.rightRotate _ _))
    refine hR.node _ _ g (hR.trans ?_ (hR.setColor .black _)) (hR.refl y)
    exact hR.leftRotate w _
  | case5 pl p _ y g rest x huncle ih =>
    rw [RbTree.insertFixup, if_pos huncle]
    refine hR.trans (hR.plug rest ?_) ih
    exact hR.node _ _ g (hR.setColor .black y) (hR.node _ _ p (hR.refl pl) (hR.refl x))
  | case6 pl p _ y g rest x huncle =>
    rw [RbTree.insertFixup, if_neg huncle]
    refine hR.plug_black rest (hR.trans ?_ (hR.leftRotate w _))
    exact hR.node _ _ g (hR.refl y) (hR.node _ _ p (hR.refl pl) (hR.refl x))
  | case7 p pr _ y g rest x huncle ih =>
    rw [RbTree.insertFixup, if_pos huncle]
    refine hR.trans (hR.plug rest ?_) ih
    exact hR.node _ _ g (hR.setColor .black y) (hR.node _ _ p (hR.refl x) (hR.refl pr))
  | case8 p pr _ y g rest x huncle =>
    rw [RbTree.insertFixup, if_neg huncle]
    refine hR.plug_black rest (hR.trans ?_ (hR.leftRotate _ _))
    refine hR.node _ _ g (hR.refl y) (hR.trans ?_ (hR.setColor .black _))
    exact hR.rightRotate w _
  | case9 ctx x hll hrl hrr hlr =>
    rw [RbTree.insertFixup.eq_5 h w ctx x hll hrl hrr hlr]
    exact hR.setColor .black _

end

/-- What a round of the repair after a deletion keeps. -/
def FixStep.Keeps (R : RbTree α → RbTree α → Prop) (t : RbTree α) : FixStep α ω → Prop
  | .done t' _ => R t t'
  | .up t' => R t t'

theorem Hooks.Respects.fixLeft (hR : h.Respects R) (w : ω) (c : RbColor) (x : RbTree α) (p : α)
    (s : RbTree α) : FixStep.Keeps R (.node c x p s) (fixLeft h w c x p s) := by
  -- The end of the round, at a sibling with a red right child.
  have hlast : ∀ (w : ω) (cs : RbColor) (a : RbTree α) (v : α) (b : RbTree α),
      R s (.node cs a v b) → R (.node c x p s)
        (RbTree.leftRotate h w (.node .black x p (.node c a v (b.setColor .black)))).1 := by
    intro w cs a v b hs
    refine hR.trans (hR.node c .black p (hR.refl x) (hR.trans hs ?_)) (hR.leftRotate w _)
    exact hR.node cs c v (hR.refl a) (hR.setColor .black b)
  cases s with
  | nil => exact hR.refl _
  | node cs a v b =>
    simp only [RbTree.fixLeft]
    split_ifs with hboth hinner
    · exact hR.node c c p (hR.refl x) (hR.node cs .red v (hR.refl a) (hR.refl b))
    · have hrot : R (.node cs a v b)
          (RbTree.rightRotate h w (.node .red (a.setColor .black) v b)).1 :=
        hR.trans (hR.node cs .red v (hR.setColor .black a) (hR.refl b)) (hR.rightRotate w _)
      generalize RbTree.rightRotate h w (.node .red (a.setColor .black) v b) = s' at hrot ⊢
      obtain ⟨_ | ⟨cs', a', v', b'⟩, w'⟩ := s'
      · exact hR.node c c p (hR.refl x) hrot
      · exact hlast w' cs' a' v' b' hrot
    · exact hlast w cs a v b (hR.refl _)

theorem Hooks.Respects.fixRight (hR : h.Respects R) (w : ω) (c : RbColor) (x : RbTree α) (p : α)
    (s : RbTree α) : FixStep.Keeps R (.node c s p x) (fixRight h w c s p x) := by
  have hlast : ∀ (w : ω) (cs : RbColor) (a : RbTree α) (v : α) (b : RbTree α),
      R s (.node cs a v b) → R (.node c s p x)
        (RbTree.rightRotate h w (.node .black (.node c (a.setColor .black) v b) p x)).1 := by
    intro w cs a v b hs
    refine hR.trans (hR.node c .black p (hR.trans hs ?_) (hR.refl x)) (hR.rightRotate w _)
    exact hR.node cs c v (hR.setColor .black a) (hR.refl b)
  cases s with
  | nil => exact hR.refl _
  | node cs a v b =>
    simp only [RbTree.fixRight]
    split_ifs with hboth hinner
    · exact hR.node c c p (hR.node cs .red v (hR.refl a) (hR.refl b)) (hR.refl x)
    · have hrot : R (.node cs a v b)
          (RbTree.leftRotate h w (.node .red a v (b.setColor .black))).1 :=
        hR.trans (hR.node cs .red v (hR.refl a) (hR.setColor .black b)) (hR.leftRotate w _)
      generalize RbTree.leftRotate h w (.node .red a v (b.setColor .black)) = s' at hrot ⊢
      obtain ⟨_ | ⟨cs', a', v', b'⟩, w'⟩ := s'
      · exact hR.node c c p hrot (hR.refl x)
      · exact hlast w' cs' a' v' b' hrot
    · exact hlast w cs a v b (hR.refl _)

theorem Hooks.Respects.deleteFixup (hR : h.Respects R) (w : ω) (ctx : List (RbFrame α))
    (x : RbTree α) : R (RbTree.plug ctx x) (deleteFixup h w ctx x).1 := by
  induction ctx generalizing x with
  | nil => exact hR.setColor .black x
  | cons f ctx ih =>
    by_cases hred : x.color = .red
    · rw [deleteFixup_of_red h w f ctx hred]
      exact hR.plug (f :: ctx) (hR.setColor .black x)
    · have hblack : x.color = .black := by
        cases hc : x.color with
        | red => exact absurd hc hred
        | black => rfl
      rcases f with ⟨c, p, s⟩ | ⟨c, s, p⟩
      · by_cases hs : s.color = .black
        · rw [deleteFixup_left_black h w c p ctx hblack hs]
          have hstep := hR.fixLeft w c x p s
          cases hfix : RbTree.fixLeft h w c x p s with
          | done t w' =>
            rw [hfix] at hstep
            exact hR.plug_black ctx hstep
          | up t =>
            rw [hfix] at hstep
            exact hR.trans (hR.plug ctx hstep) (ih t)
        · rcases s with _ | ⟨_ | _, a, v, b⟩
          · exact absurd rfl hs
          · rw [deleteFixup_left_red h w c p v a b ctx hblack]
            have hrot : R (.node .red x p (.node .black a v b))
                (.node .black (.node .red x (h.left w x p a v b).1 a) (h.left w x p a v b).2.1 b) :=
              hR.leftRotate w (.node .red x p (.node .black a v b))
            generalize h.left w x p a v b = vals at hrot ⊢
            have hup : R (.node c x p (.node .red a v b))
                (.node .black (.node .red x vals.1 a) vals.2.1 b) :=
              hR.trans (hR.node c .red p (hR.refl x) (hR.node .red .black v (hR.refl a) (hR.refl b)))
                hrot
            have hstep := hR.fixLeft vals.2.2 .red x vals.1 a
            cases hfix : RbTree.fixLeft h vals.2.2 .red x vals.1 a with
            | done t w' =>
              rw [hfix] at hstep
              refine hR.plug_black ctx (hR.trans hup ?_)
              exact hR.fill (.left .black vals.2.1 b) hstep
            | up t =>
              rw [hfix] at hstep
              refine hR.plug ctx (hR.trans hup ?_)
              exact hR.fill (.left .black vals.2.1 b) (hR.trans hstep (hR.setColor .black t))
          · exact absurd rfl hs
      · by_cases hs : s.color = .black
        · rw [deleteFixup_right_black h w c p ctx hblack hs]
          have hstep := hR.fixRight w c x p s
          cases hfix : RbTree.fixRight h w c s p x with
          | done t w' =>
            rw [hfix] at hstep
            exact hR.plug_black ctx hstep
          | up t =>
            rw [hfix] at hstep
            exact hR.trans (hR.plug ctx hstep) (ih t)
        · rcases s with _ | ⟨_ | _, a, v, b⟩
          · exact absurd rfl hs
          · rw [deleteFixup_right_red h w c p v a b ctx hblack]
            have hrot : R (.node .red (.node .black a v b) p x)
                (.node .black a (h.right w a v b p x).1 (.node .red b (h.right w a v b p x).2.1 x)) :=
              hR.rightRotate w (.node .red (.node .black a v b) p x)
            generalize h.right w a v b p x = vals at hrot ⊢
            have hup : R (.node c (.node .red a v b) p x)
                (.node .black a vals.1 (.node .red b vals.2.1 x)) :=
              hR.trans (hR.node c .red p (hR.node .red .black v (hR.refl a) (hR.refl b)) (hR.refl x))
                hrot
            have hstep := hR.fixRight vals.2.2 .red x vals.2.1 b
            cases hfix : RbTree.fixRight h vals.2.2 .red b vals.2.1 x with
            | done t w' =>
              rw [hfix] at hstep
              refine hR.plug_black ctx (hR.trans hup ?_)
              exact hR.fill (.right .black a vals.1) hstep
            | up t =>
              rw [hfix] at hstep
              refine hR.plug ctx (hR.trans hup ?_)
              exact hR.fill (.right .black a vals.1) (hR.trans hstep (hR.setColor .black t))
          · exact absurd rfl hs

end RbTree
