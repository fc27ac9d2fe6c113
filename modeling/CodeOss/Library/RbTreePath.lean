import CodeOss.Library.RbTree

/-! Paths and the in-order list.
A path cuts the list of a tree into what stands before and after the subtree at its lower
end. Finding a node, its neighbours and the ends of a spine are moves along paths. -/

universe u v

namespace RbTree

variable {α : Type u} {β : Type v}

/-- What a path leaves in front of its subtree. -/
def before : List (RbFrame α) → List α
  | [] => []
  | .left _ _ _ :: ctx => before ctx
  | .right _ l v :: ctx => before ctx ++ (l.toList ++ [v])

def after : List (RbFrame α) → List α
  | [] => []
  | .left _ v r :: ctx => v :: r.toList ++ after ctx
  | .right _ _ _ :: ctx => after ctx

theorem toList_plug (ctx : List (RbFrame α)) (t : RbTree α) :
    (plug ctx t).toList = before ctx ++ t.toList ++ after ctx := by
  induction ctx generalizing t with
  | nil => simp [plug, before, after]
  | cons f ctx ih =>
    cases f with
    | left c v r => simp [plug, fill, ih, toList, before, after]
    | right c l v => simp [plug, fill, ih, toList, before, after]

theorem plug_append (ctx ctx' : List (RbFrame α)) (t : RbTree α) :
    plug (ctx ++ ctx') t = plug ctx' (plug ctx t) := by
  induction ctx generalizing t with
  | nil => rfl
  | cons f ctx ih => exact ih (t.fill f)

theorem before_append (ctx ctx' : List (RbFrame α)) :
    before (ctx ++ ctx') = before ctx' ++ before ctx := by
  induction ctx with
  | nil => simp [before]
  | cons f ctx ih => cases f <;> simp [before, ih]

theorem after_append (ctx ctx' : List (RbFrame α)) :
    after (ctx ++ ctx') = after ctx ++ after ctx' := by
  induction ctx with
  | nil => simp [after]
  | cons f ctx ih => cases f <;> simp [after, ih]

variable {ctx : List (RbFrame α)} {t : RbTree α} {c : RbColor} {n : Nat} {cy : RbColor} {y : α}
  {x : RbTree α}

theorem focus_spec {p : α → Bool} {ctx' : List (RbFrame α)} {l r : RbTree α} {v : α}
    (h : focus p ctx t = some (ctx', c, l, v, r)) :
    p v ∧ plug ctx' (node c l v r) = plug ctx t := by
  induction t generalizing ctx with
  | nil => cases h
  | node c' l' v' r' ihl ihr =>
    rw [focus] at h
    cases hl : focus p (.left c' v' r' :: ctx) l' with
    | some found =>
      rw [hl] at h
      cases h
      exact ihl hl
    | none =>
      rw [hl] at h
      simp only at h
      split_ifs at h with hp
      · cases h
        exact ⟨hp, rfl⟩
      · exact ihr h

theorem focus_isSome {p : α → Bool} (ctx : List (RbFrame α)) (h : ∃ v ∈ t.toList, p v) :
    (focus p ctx t).isSome := by
  induction t generalizing ctx with
  | nil => simp [toList] at h
  | node c l v r ihl ihr =>
    obtain ⟨w, hw, hpw⟩ := h
    simp only [toList, List.mem_append, List.mem_cons] at hw
    rw [focus]
    cases hl : focus p (.left c v r :: ctx) l with
    | some found => rfl
    | none =>
      simp only
      split_ifs with hp
      · rfl
      · rcases hw with hw | rfl | hw
        · have hfound := ihl (.left c v r :: ctx) ⟨w, hw, hpw⟩
          rw [hl] at hfound
          cases hfound
        · exact absurd hpw hp
        · exact ihr (.right c l v :: ctx) ⟨w, hw, hpw⟩

theorem leftest_spec (ctx : List (RbFrame α)) (c : RbColor) (l : RbTree α) (v : α) (r : RbTree α) :
    plug (leftest ctx c l v r).1
    (node (leftest ctx c l v r).2.1 nil (leftest ctx c l v r).2.2.1 (leftest ctx c l v r).2.2.2) =
    plug ctx (node c l v r) ∧ before (leftest ctx c l v r).1 = before ctx := by
  induction l generalizing ctx c v r with
  | nil => exact ⟨rfl, rfl⟩
  | node c' l' v' r' ihl _ => exact ihl (.left c v r :: ctx) c' v' r'

theorem righttest_spec (ctx : List (RbFrame α)) (c : RbColor) (l : RbTree α)
    (v : α) (r : RbTree α) : plug (righttest ctx c l v r).1 (node (righttest ctx c l v r).2.1
    (righttest ctx c l v r).2.2.1 (righttest ctx c l v r).2.2.2 nil) = plug ctx (node c l v r) ∧
    after (righttest ctx c l v r).1 = after ctx := by
  induction r generalizing ctx c l v with
  | nil => exact ⟨rfl, rfl⟩
  | node c' l' v' r' _ ihr => exact ihr (.right c l v :: ctx) c' l' v'

/-- The nearest ancestor of which the path is in the left subtree. -/
def nextParent : List (RbFrame α) → Option α
  | [] => none
  | .left _ v _ :: _ => some v
  | .right _ _ _ :: ctx => nextParent ctx

def prevParent : List (RbFrame α) → Option α
  | [] => none
  | .left _ _ _ :: ctx => prevParent ctx
  | .right _ _ v :: _ => some v

/-- The node after the one at the end of `ctx` with right subtree `r`. -/
def next (ctx : List (RbFrame α)) : RbTree α → Option α
  | nil => nextParent ctx
  | node c l v r => some (leftest [] c l v r).2.2.1

def prev (ctx : List (RbFrame α)) : RbTree α → Option α
  | nil => prevParent ctx
  | node c l v r => some (righttest [] c l v r).2.2.2

theorem nextParent_eq (ctx : List (RbFrame α)) : nextParent ctx = (after ctx).head? := by
  induction ctx with
  | nil => rfl
  | cons f ctx ih =>
    cases f with
    | left c v r => rfl
    | right c l v => exact ih

theorem prevParent_eq (ctx : List (RbFrame α)) : prevParent ctx = (before ctx).getLast? := by
  induction ctx with
  | nil => rfl
  | cons f ctx ih =>
    cases f with
    | left c v r => exact ih
    | right c l v => simp [prevParent, before]

theorem next_eq (ctx : List (RbFrame α)) (r : RbTree α) :
    next ctx r = (r.toList ++ after ctx).head? := by
  cases r with
  | nil => exact nextParent_eq ctx
  | node c l v r =>
    obtain ⟨hplug, hbefore⟩ := leftest_spec [] c l v r
    have hlist := congrArg toList hplug
    rw [toList_plug, hbefore] at hlist
    have hlist' : (node c l v r).toList = (leftest [] c l v r).2.2.1 ::
        ((leftest [] c l v r).2.2.2.toList ++ after (leftest [] c l v r).1) := by
      simpa [before, toList, plug] using hlist.symm
    rw [hlist']
    rfl

theorem prev_eq (ctx : List (RbFrame α)) (l : RbTree α) :
    prev ctx l = (before ctx ++ l.toList).getLast? := by
  cases l with
  | nil =>
    rw [prev, toList, List.append_nil]
    exact prevParent_eq ctx
  | node c l v r =>
    obtain ⟨hplug, hafter⟩ := righttest_spec [] c l v r
    have hlist := congrArg toList hplug
    rw [toList_plug, hafter] at hlist
    have hlist' : (node c l v r).toList = before (righttest [] c l v r).1 ++
        ((righttest [] c l v r).2.2.1.toList ++ [(righttest [] c l v r).2.2.2]) := by
      simpa [after, toList, plug] using hlist.symm
    rw [hlist', prev]
    simp

/-- The tree and the path with other values in the same places. -/
def map (f : α → β) : RbTree α → RbTree β
  | nil => nil
  | node c l v r => node c (l.map f) (f v) (r.map f)

def mapFrame (f : α → β) : RbFrame α → RbFrame β
  | .left c v r => .left c (f v) (r.map f)
  | .right c l v => .right c (l.map f) (f v)

theorem toList_map (f : α → β) (t : RbTree α) : (t.map f).toList = t.toList.map f := by
  induction t with
  | nil => rfl
  | node c l v r ihl ihr => simp [map, toList, ihl, ihr]

theorem balanced_map {f : α → β} : Balanced (t.map f) c n ↔ Balanced t c n := by
  constructor
  · intro h
    induction t generalizing c n with
    | nil => cases h; exact .nil
    | node c' l v r ihl ihr =>
      cases h with
      | red hl hr => exact .red (ihl hl) (ihr hr)
      | black hl hr => exact .black (ihl hl) (ihr hr)
  · intro h
    induction h with
    | nil => exact .nil
    | red _ _ ihl ihr => exact .red ihl ihr
    | black _ _ ihl ihr => exact .black ihl ihr

theorem map_plug (f : α → β) (ctx : List (RbFrame α)) (t : RbTree α) :
    (plug ctx t).map f = plug (ctx.map (mapFrame f)) (t.map f) := by
  induction ctx generalizing t with
  | nil => rfl
  | cons g ctx ih =>
    cases g with
    | left c v r => exact ih _
    | right c l v => exact ih _

theorem map_map {γ : Type*} (g : β → γ) (f : α → β) (t : RbTree α) :
    (t.map f).map g = t.map (g ∘ f) := by
  induction t with
  | nil => rfl
  | node c l v r ihl ihr => simp [map, ihl, ihr]

theorem hole_map {f : α → β} : Hole (ctx.map (mapFrame f)) c n ↔ Hole ctx c n := by
  constructor
  · intro h
    induction ctx generalizing c n with
    | nil => cases h; exact .root n
    | cons g ctx ih =>
      cases g with
      | left cg v r =>
        cases h with
        | leftRed hr h => exact .leftRed (balanced_map.1 hr) (ih h)
        | leftBlack _ hr h => exact .leftBlack c (balanced_map.1 hr) (ih h)
      | right cg l v =>
        cases h with
        | rightRed hl h => exact .rightRed (balanced_map.1 hl) (ih h)
        | rightBlack _ hl h => exact .rightBlack c (balanced_map.1 hl) (ih h)
  · intro h
    induction h with
    | root n => exact .root n
    | leftRed hr _ ih => exact .leftRed (balanced_map.2 hr) ih
    | leftBlack c hr _ ih => exact .leftBlack c (balanced_map.2 hr) ih
    | rightRed hl _ ih => exact .rightRed (balanced_map.2 hl) ih
    | rightBlack c hl _ ih => exact .rightBlack c (balanced_map.2 hl) ih

theorem Hole.congr {f : α → β} {ctx ctx' : List (RbFrame α)} {c : RbColor} {n : Nat}
    (hctx : ctx'.map (mapFrame f) = ctx.map (mapFrame f)) (h : Hole ctx c n) : Hole ctx' c n :=
  hole_map.1 (hctx ▸ hole_map.2 h)

theorem Hole.removeLeftless (h : Hole ctx c n) (hy : Balanced (node cy nil y x) c n) :
    (cy = .red → RedBlack (plug ctx x)) ∧ (cy = .black → ∃ n, Hole ctx .black (n + 1) ∧
    Short x n) := by
  cases hy with
  | red hl hr => exact ⟨fun _ => (h.of_red .black).plug_balanced hr, by simp⟩
  | black hl hr => exact ⟨by simp, fun _ => ⟨_, h, hr.short⟩⟩

theorem Hole.removeRightless (h : Hole ctx c n) (hy : Balanced (node cy x y nil) c n) :
    (cy = .red → RedBlack (plug ctx x)) ∧ (cy = .black → ∃ n, Hole ctx .black (n + 1) ∧
    Short x n) := by
  cases hy with
  | red hl hr => exact ⟨fun _ => (h.of_red .black).plug_balanced hl, by simp⟩
  | black hl hr => exact ⟨by simp, fun _ => ⟨_, h, hl.short⟩⟩

theorem Hole.insertLeaf (h : Hole ctx c n) (ht : Balanced t c n) (hnil : t = nil) (v : α) :
    Hole ctx .black 0 ∧ Balanced (node .red nil v nil) .red 0 := by
  subst hnil
  cases ht
  exact ⟨h, .red .nil .nil⟩

end RbTree
