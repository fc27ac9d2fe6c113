import CodeOss.PieceTree.RbTreeBase

/-! The sums in the tree are right after every operation.
`MetaOK` says so of a tree; `PathOK ctx s` says it of the ancestors of a subtree that they
take to sum up to `s`, which during a deletion may be out of date. -/

namespace CodeOss

/-- Length and line feed count, summed up together. -/
abbrev Extent := Int × Int

def Piece.extent (p : Piece) : Extent := (p.length, p.lineFeedCnt)

def TreeNode.sums (v : TreeNode) : Extent := (v.sizeLeft, v.lfLeft)

abbrev Cell := NodeId × Piece

def TreeNode.cell (v : TreeNode) : Cell := (v.id, v.piece)

namespace PieceNodes

open RbTree

def extentOf (cs : List Cell) : Extent := (cs.map fun c => c.2.extent).sum

@[simp] theorem extentOf_nil : extentOf [] = 0 := rfl

@[simp] theorem extentOf_cons (c : Cell) (cs : List Cell) :
    extentOf (c :: cs) = c.2.extent + extentOf cs := by
  simp [extentOf]

@[simp] theorem extentOf_append (cs ds : List Cell) :
    extentOf (cs ++ ds) = extentOf cs + extentOf ds := by
  simp [extentOf]

theorem cells_eq_map (t : PieceNodes) : cells t = t.toList.map TreeNode.cell := rfl

@[simp] theorem cells_nil : cells (RbTree.nil : PieceNodes) = [] := rfl

@[simp] theorem cells_node (c : RbColor) (l r : PieceNodes) (v : TreeNode) :
    cells (.node c l v r) = cells l ++ v.cell :: cells r := by
  simp [cells_eq_map, toList]

@[simp] theorem cell_addLeft (v : TreeNode) (d e : Int) : (v.addLeft d e).cell = v.cell := rfl

theorem sums_addLeft (v : TreeNode) (d e : Int) : (v.addLeft d e).sums = v.sums + (d, e) := rfl

/-- Every node sums up its left subtree. -/
def MetaOK : PieceNodes → Prop
  | .nil => True
  | .node _ l v r => MetaOK l ∧ MetaOK r ∧ v.sums = extentOf (cells l)

/-- The sum a tree claims, read along its right spine. -/
def claimed (t : PieceNodes) : Extent := (calculateSize t, calculateLF t)

@[simp] theorem claimed_nil : claimed (RbTree.nil : PieceNodes) = 0 := rfl

@[simp] theorem claimed_node (c : RbColor) (l r : PieceNodes) (v : TreeNode) :
    claimed (.node c l v r) = v.sums + v.piece.extent + claimed r := rfl

variable {t : PieceNodes} {ctx ctx' : PiecePath} {s : Extent} {x : PieceNodes}

theorem MetaOK.claimed_eq (h : MetaOK t) : claimed t = extentOf (cells t) := by
  induction t with
  | nil => rfl
  | node c l v r _ ihr =>
    obtain ⟨-, hr, hv⟩ := h
    rw [claimed_node, cells_node, extentOf_append, extentOf_cons, ihr hr, hv, add_assoc]
    rfl

/-- The ancestors of a subtree sum up right, if that subtree sums up to `s`. -/
def PathOK : PiecePath → Extent → Prop
  | [], _ => True
  | .left _ v r :: ctx, s =>
    v.sums = s ∧ MetaOK r ∧ PathOK ctx (s + v.piece.extent + extentOf (cells r))
  | .right _ l v :: ctx, s =>
    MetaOK l ∧ v.sums = extentOf (cells l) ∧ PathOK ctx (extentOf (cells l) + v.piece.extent + s)

theorem metaOK_plug : MetaOK (plug ctx t) ↔ PathOK ctx (extentOf (cells t)) ∧ MetaOK t := by
  induction ctx generalizing t with
  | nil => simp [plug, PathOK]
  | cons f ctx ih =>
    cases f with
    | left c v r =>
      simp only [plug, fill, ih, PathOK, MetaOK, cells_node, extentOf_append, extentOf_cons,
        TreeNode.cell, add_assoc]
      tauto
    | right c l v =>
      simp only [plug, fill, ih, PathOK, MetaOK, cells_node, extentOf_append, extentOf_cons,
        TreeNode.cell, add_assoc]
      tauto

/-- Trees with the same nodes in the same order, the second right if the first is. -/
def Same (t t' : PieceNodes) : Prop := cells t' = cells t ∧ (MetaOK t → MetaOK t')

theorem same_leftRotate (w : Unit) (t : PieceNodes) : Same t (leftRotate rotation w t).1 := by
  match t with
  | .node cx a x (.node cy b y d) =>
    refine ⟨by simp [leftRotate, rotation, TreeNode.cell, TreeNode.addLeft], ?_⟩
    rintro ⟨ha, ⟨hb, hd, hy⟩, hx⟩
    refine ⟨⟨ha, hb, hx⟩, hd, ?_⟩
    rw [sums_addLeft, hy, cells_node, extentOf_append, extentOf_cons, ← hx, add_comm, ← add_assoc]
    rfl
  | .nil => exact ⟨rfl, id⟩
  | .node _ _ _ .nil => exact ⟨rfl, id⟩

theorem same_rightRotate (w : Unit) (t : PieceNodes) : Same t (rightRotate rotation w t).1 := by
  match t with
  | .node cy (.node cx a x b) y d =>
    refine ⟨by simp [rightRotate, rotation, TreeNode.cell, TreeNode.addLeft], ?_⟩
    rintro ⟨⟨ha, hb, hx⟩, hd, hy⟩
    refine ⟨ha, ⟨hb, hd, ?_⟩, hx⟩
    rw [sums_addLeft, hy, cells_node, extentOf_append, extentOf_cons, ← hx]
    change x.sums + (x.piece.extent + extentOf (cells b)) + -(x.sums + x.piece.extent) = _
    abel
  | .nil => exact ⟨rfl, id⟩
  | .node _ .nil _ _ => exact ⟨rfl, id⟩

theorem rotation_respects : rotation.Respects Same where
  refl _ := ⟨rfl, id⟩
  trans h h' := ⟨h'.1.trans h.1, h'.2 ∘ h.2⟩
  node c c' v hl hr := by
    refine ⟨by rw [cells_node, cells_node, hl.1, hr.1], ?_⟩
    rintro ⟨hml, hmr, hv⟩
    exact ⟨hl.2 hml, hr.2 hmr, by rw [hv, hl.1]⟩
  leftRotate := same_leftRotate
  rightRotate := same_rightRotate

def SamePath (ctx ctx' : PiecePath) : Prop :=
  ctx'.map (mapFrame TreeNode.cell) = ctx.map (mapFrame TreeNode.cell)

theorem SamePath.cells_plug (h : SamePath ctx ctx') (t : PieceNodes) :
    cells (plug ctx' t) = cells (plug ctx t) := by
  simp only [cells_eq_map, ← toList_map, map_plug]
  rw [h]

theorem SamePath.hole (h : SamePath ctx ctx') {c : RbColor} {n : Nat} (hctx : Hole ctx c n) :
    Hole ctx' c n :=
  hctx.congr h

theorem samePath_updateTreeMetadata (ctx : PiecePath) (d e : Int) :
    SamePath ctx (updateTreeMetadata ctx d e) := by
  induction ctx with
  | nil => rfl
  | cons f ctx ih =>
    cases f with
    | left c v r => exact congrArg (List.cons _) ih
    | right c l v => exact congrArg (List.cons _) ih

theorem samePath_recomputeTreeMetadata (ctx : PiecePath) (x : PieceNodes) :
    SamePath ctx (recomputeTreeMetadata ctx x) := by
  induction ctx generalizing x with
  | nil => rfl
  | cons f ctx ih =>
    cases f with
    | left c v r =>
      rw [recomputeTreeMetadata]
      split_ifs
      · exact congrArg (List.cons _) (ih _)
      · exact congrArg (List.cons _) (samePath_updateTreeMetadata ctx _ _)
    | right c l v => exact congrArg (List.cons _) (ih _)

theorem samePath_repairParent (ctx : PiecePath) (x : PieceNodes) :
    SamePath ctx (repairParent ctx x) := by
  cases ctx with
  | nil => rfl
  | cons f ctx =>
    cases f with
    | left c v r => exact congrArg (List.cons _) (samePath_updateTreeMetadata ctx _ _)
    | right c l v =>
      rw [repairParent]
      split_ifs
      · exact congrArg (List.cons _) (samePath_updateTreeMetadata ctx _ _)
      · rfl

theorem PathOK.update (h : PathOK ctx s) (d e : Int) :
    PathOK (updateTreeMetadata ctx d e) (s + (d, e)) := by
  induction ctx generalizing s with
  | nil => trivial
  | cons f ctx ih =>
    cases f with
    | left c v r =>
      obtain ⟨hv, hr, hctx⟩ := h
      have hsum : s + v.piece.extent + extentOf (cells r) + (d, e) =
          s + (d, e) + v.piece.extent + extentOf (cells r) := by abel
      exact ⟨by rw [sums_addLeft, hv], hr, hsum ▸ ih hctx⟩
    | right c l v =>
      obtain ⟨hl, hv, hctx⟩ := h
      exact ⟨hl, hv, add_assoc _ s (d, e) ▸ ih hctx⟩

theorem updateTreeMetadata_zero (ctx : PiecePath) : updateTreeMetadata ctx 0 0 = ctx := by
  induction ctx with
  | nil => rfl
  | cons f ctx ih =>
    cases f with
    | left c v r =>
      refine congrArg₂ List.cons ?_ ih
      simp [TreeNode.addLeft]
    | right c l v => exact congrArg (List.cons _) ih

theorem delta_eq {v : TreeNode} (hv : v.sums = s) :
    s + (calculateSize x - v.sizeLeft, calculateLF x - v.lfLeft) = claimed x := by
  subst hv
  simp [TreeNode.sums, claimed]

theorem recompute_consistent (h : PathOK ctx (claimed x)) : recomputeTreeMetadata ctx x = ctx := by
  induction ctx generalizing x with
  | nil => rfl
  | cons f ctx ih =>
    cases f with
    | left c v r =>
      obtain ⟨hv, hr, hctx⟩ := h
      rw [recomputeTreeMetadata]
      split_ifs with hnil
      · refine congrArg (List.cons _) (ih ?_)
        convert hctx using 1
        rw [claimed_node, hv, ← hr.claimed_eq]
      · have hsize : calculateSize x - v.sizeLeft = 0 := by
          have := congrArg Prod.fst hv
          simp only [TreeNode.sums, claimed] at this
          omega
        have hlf : calculateLF x - v.lfLeft = 0 := by
          have := congrArg Prod.snd hv
          simp only [TreeNode.sums, claimed] at this
          omega
        simp only [hsize, hlf, updateTreeMetadata_zero]
        simp [TreeNode.addLeft]
    | right c l v =>
      obtain ⟨hl, hv, hctx⟩ := h
      refine congrArg (List.cons _) (ih ?_)
      convert hctx using 1
      rw [claimed_node, hv]

/-- `x === x.parent.right` although `x` is the left child. -/
def Ambiguous (ctx : PiecePath) (x : PieceNodes) : Prop :=
  x = .nil ∧ ∃ c v ctx', ctx = .left c v .nil :: ctx'

theorem PathOK.recompute (h : PathOK ctx s) (hx : ¬Ambiguous ctx x) :
    PathOK (recomputeTreeMetadata ctx x) (claimed x) := by
  induction ctx generalizing s x with
  | nil => trivial
  | cons f ctx ih =>
    cases f with
    | left c v r =>
      obtain ⟨hv, hr, hctx⟩ := h
      have hnil : ¬(x = .nil ∧ r = .nil) := by
        rintro ⟨rfl, rfl⟩
        exact hx ⟨rfl, c, v, ctx, rfl⟩
      rw [recomputeTreeMetadata, if_neg hnil]
      have hdelta := delta_eq hv (x := x)
      refine ⟨by rw [sums_addLeft, hv, hdelta], hr, ?_⟩
      have hrest := hctx.update (calculateSize x - v.sizeLeft) (calculateLF x - v.lfLeft)
      convert hrest using 1
      change claimed x + v.piece.extent + _ = _
      rw [← hdelta]
      abel
    | right c l v =>
      obtain ⟨hl, hv, hctx⟩ := h
      refine ⟨hl, hv, ?_⟩
      have hrest := ih hctx (x := .node c l v x) (by
        rintro ⟨h, -⟩
        cases h)
      convert hrest using 1
      rw [claimed_node, hv]

theorem recompute_ambiguous (h : PathOK ctx s) (hx : Ambiguous ctx x) :
    recomputeTreeMetadata ctx x = ctx := by
  obtain ⟨rfl, c, v, ctx, rfl⟩ := hx
  obtain ⟨hv, -, hctx⟩ := h
  rw [recomputeTreeMetadata, if_pos ⟨rfl, rfl⟩]
  refine congrArg (List.cons _) (recompute_consistent ?_)
  convert hctx using 1
  rw [claimed_node, hv]
  rfl

/-- A tree that is red-black, with right sums. -/
structure Sound (t : PieceNodes) : Prop where
  redBlack : RedBlack t
  metaOK : MetaOK t

theorem SamePath.redBlack (h : SamePath ctx ctx') (ht : RedBlack (plug ctx t)) :
    RedBlack (plug ctx' t) := by
  obtain ⟨n, hn⟩ := ht
  refine ⟨n, (balanced_map (f := TreeNode.cell)).1 ?_⟩
  rw [map_plug, h, ← map_plug]
  exact balanced_map.2 hn

theorem PathOK.repairParent (h : PathOK ctx s)
    (hx : s = claimed x ∨ ∃ c v r ctx', ctx = .left c v r :: ctx') :
    PathOK (repairParent ctx x) (claimed x) := by
  cases ctx with
  | nil => trivial
  | cons f ctx =>
    cases f with
    | left c v r =>
      obtain ⟨hv, hr, hctx⟩ := h
      have hdelta := delta_eq hv (x := x)
      have hsum : s + v.piece.extent + extentOf (cells r) +
          (calculateSize x - v.sizeLeft, calculateLF x - v.lfLeft) =
          claimed x + v.piece.extent + extentOf (cells r) := by
        rw [← hdelta]
        abel
      exact ⟨by rw [sums_addLeft, hv, hdelta], hr, hsum ▸ hctx.update _ _⟩
    | right c l v =>
      have hs : s = claimed x := by
        rcases hx with hs | ⟨_, _, _, _, heq⟩
        · exact hs
        · cases heq
      subst hs
      rw [PieceNodes.repairParent]
      split_ifs with hnil
      · obtain ⟨-, hl⟩ := hnil
        subst hl
        obtain ⟨hl, hv, hctx⟩ := h
        have hsize : v.sizeLeft = 0 := congrArg Prod.fst hv
        have hlf : v.lfLeft = 0 := congrArg Prod.snd hv
        rw [hsize, hlf, neg_zero, updateTreeMetadata_zero]
        exact ⟨hl, by rw [sums_addLeft, hv]; rfl, hctx⟩
      · exact h

theorem recomputeParent_consistent (h : PathOK ctx (claimed x)) : recomputeParent ctx x = ctx := by
  cases ctx with
  | nil => rfl
  | cons f ctx =>
    refine congrArg (List.cons f) (recompute_consistent ?_)
    cases f with
    | left c v r =>
      obtain ⟨hv, hr, hctx⟩ := h
      rw [fill, claimed_node, hv, hr.claimed_eq]
      exact hctx
    | right c l v =>
      obtain ⟨-, hv, hctx⟩ := h
      rw [fill, claimed_node, hv]
      exact hctx

theorem finishDelete_spec {yColor : RbColor} (hctx : PathOK ctx s)
    (hs : s = claimed x ∨ ∃ c v r ctx', ctx = .left c v r :: ctx') (hx : MetaOK x)
    (hred : yColor = .red → RedBlack (plug ctx x))
    (hblack : yColor = .black → ∃ n, Hole ctx .black (n + 1) ∧ Short x n) :
    cells (finishDelete ctx x yColor) = cells (plug ctx x) ∧ Sound (finishDelete ctx x yColor) := by
  have hpath := hctx.repairParent hs
  have hsame := samePath_repairParent ctx x
  have hmeta : MetaOK (plug (repairParent ctx x) x) :=
    metaOK_plug.2 ⟨hx.claimed_eq ▸ hpath, hx⟩
  rw [finishDelete, recomputeParent_consistent hpath]
  split_ifs with hcolor
  · exact ⟨hsame.cells_plug x, hsame.redBlack (hred hcolor), hmeta⟩
  · have hcolor' : yColor = .black := by
      cases yColor with
      | red => exact absurd rfl hcolor
      | black => rfl
    obtain ⟨n, hhole, hshort⟩ := hblack hcolor'
    have hfix := rotation_respects.deleteFixup () (repairParent ctx x) x
    exact ⟨hfix.1.trans (hsame.cells_plug x),
      deleteFixup_redBlack rotation () (hsame.hole hhole) hshort, hfix.2 hmeta⟩

theorem fixInsert_spec {z : TreeNode} (hctx : PathOK ctx 0)
    (hhole : Hole ctx .black 0) (hz : z.sums = 0) : cells (fixInsert ctx (.node .red .nil z .nil)) =
    cells (plug ctx (.node .red .nil z .nil)) ∧ Sound (fixInsert ctx (.node .red .nil z .nil)) := by
  have hleaf : MetaOK (.node .red .nil z .nil) := ⟨trivial, trivial, hz⟩
  have hpath := hctx.recompute (x := .node .red .nil z .nil) (by
    rintro ⟨h, -⟩
    cases h)
  have hsame := samePath_recomputeTreeMetadata ctx (.node .red .nil z .nil)
  have hfix := rotation_respects.insertFixup ()
    (recomputeTreeMetadata ctx (.node .red .nil z .nil)) (.node .red .nil z .nil)
  exact ⟨hfix.1.trans (hsame.cells_plug _), insertFixup_redBlack rotation () (hsame.hole hhole)
    (.red .nil .nil), hfix.2 (metaOK_plug.2 ⟨hleaf.claimed_eq ▸ hpath, hleaf⟩)⟩

end PieceNodes

end CodeOss
