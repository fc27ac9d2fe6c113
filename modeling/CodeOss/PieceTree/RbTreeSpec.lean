import CodeOss.PieceTree.RbTreeMeta

/-! What the tree operations do to the list of pieces.
Each acts at one node of the list, found by its id; the tree stays sound throughout. -/

namespace CodeOss

open TreeNode
open List hiding after

namespace PieceNodes

open RbTree

theorem cells_plug (ctx : PiecePath) (t : PieceNodes) :
    cells (plug ctx t) = (before ctx).map cell ++ cells t ++ (after ctx).map cell := by
  rw [cells_eq_map, toList_plug, map_append, map_append, cells_eq_map]

variable {ctx : PiecePath} {t : PieceNodes} {s : Extent} {c : RbColor} {ctx' : PiecePath}
  {l : PieceNodes} {z : TreeNode} {r : PieceNodes}

theorem Sound.split (h : Sound (plug ctx t)) :
    (∃ c n, Hole ctx c n ∧ Balanced t c n) ∧ PathOK ctx (extentOf (cells t)) ∧ MetaOK t :=
  ⟨h.redBlack.split, metaOK_plug.1 h.metaOK⟩

theorem recompute_left (c : RbColor) (v : TreeNode) (r x : PieceNodes) (ctx : PiecePath) :
    ∃ v' ctx', recomputeTreeMetadata (.left c v r :: ctx) x = .left c v' r :: ctx' := by
  rw [recomputeTreeMetadata]
  split_ifs
  · exact ⟨_, _, rfl⟩
  · exact ⟨_, _, rfl⟩

theorem PathOK.recompute_or (h : PathOK ctx s) (x : PieceNodes) :
    ∃ s', PathOK (recomputeTreeMetadata ctx x) s' ∧
      (s' = claimed x ∨ ∃ c v r ctx', recomputeTreeMetadata ctx x = .left c v r :: ctx') := by
  by_cases hamb : Ambiguous ctx x
  · refine ⟨s, by rwa [recompute_ambiguous h hamb], .inr ?_⟩
    obtain ⟨-, c, v, ctx, rfl⟩ := hamb
    obtain ⟨v', ctx', heq⟩ := recompute_left c v .nil x ctx
    exact ⟨c, v', .nil, ctx', heq⟩
  · exact ⟨claimed x, h.recompute hamb, .inl rfl⟩

theorem rbDeleteAt_single {x : PieceNodes} (hpath : PathOK ctx s) (hx : MetaOK x)
    (hred : c = .red → RedBlack (plug ctx x))
    (hblack : c = .black → ∃ n, Hole ctx .black (n + 1) ∧ Short x n)
    (ht : t = if ctx.isEmpty then x.setColor .black else finishDelete (recomputeTreeMetadata ctx x)
    x c)
    (hempty : ctx = [] → RedBlack (x.setColor .black)) :
    cells t = cells (plug ctx x) ∧ Sound t := by
  subst ht
  cases ctx with
  | nil =>
    have hsame := rotation_respects.setColor .black x
    exact ⟨hsame.1, hempty rfl, hsame.2 hx⟩
  | cons f ctx =>
    obtain ⟨s', hpath', hs'⟩ := hpath.recompute_or x
    have hsame := samePath_recomputeTreeMetadata (f :: ctx) x
    have hfinish := finishDelete_spec hpath' hs' hx (fun h => hsame.redBlack (hred h)) fun h => by
      obtain ⟨n, hhole, hshort⟩ := hblack h
      exact ⟨n, hsame.hole hhole, hshort⟩
    exact ⟨hfinish.1.trans (hsame.cells_plug x), hfinish.2⟩

/-- What the ancestors at the end of a path take the subtree at its start to sum up to. -/
def through : PiecePath → Extent → Extent
  | [], s => s
  | .left _ v r :: ctx, s => through ctx (s + v.piece.extent + extentOf (cells r))
  | .right _ l v :: ctx, s => through ctx (extentOf (cells l) + v.piece.extent + s)

theorem pathOK_append : PathOK (ctx ++ ctx') s ↔ PathOK ctx s ∧ PathOK ctx' (through ctx s) := by
  induction ctx generalizing s with
  | nil => simp [PathOK, through]
  | cons f ctx ih =>
    cases f with
    | left c v r => simp only [cons_append, PathOK, through, ih, and_assoc]
    | right c l v => simp only [cons_append, PathOK, through, ih, and_assoc]

def AllLeft (ctx : PiecePath) : Prop := ∀ f ∈ ctx, ∃ c v r, f = .left c v r

theorem allLeft_leftest (hctx : AllLeft ctx) (c : RbColor) (l : PieceNodes) (v : TreeNode)
    (r : PieceNodes) : AllLeft (leftest ctx c l v r).1 := by
  induction l generalizing ctx c v r with
  | nil => exact hctx
  | node c' l' v' r' ihl _ =>
    refine ihl ?_ c' v' r'
    intro f hf
    rcases mem_cons.1 hf with rfl | hf
    · exact ⟨c, v, r, rfl⟩
    · exact hctx f hf

theorem claimed_plug_allLeft (hleft : AllLeft ctx) (hne : ctx ≠ []) (h : PathOK ctx s)
    (x : PieceNodes) : claimed (plug ctx x) = through ctx s := by
  induction ctx generalizing s x with
  | nil => exact absurd rfl hne
  | cons f ctx ih =>
    obtain ⟨c, v, r, rfl⟩ := hleft f mem_cons_self
    obtain ⟨hv, hr, hctx⟩ := h
    cases ctx with
    | nil => rw [plug, plug, fill, claimed_node, hv, hr.claimed_eq]; rfl
    | cons g ctx =>
      exact ih (fun f hf => hleft f (mem_cons_of_mem _ hf)) (cons_ne_nil _ _) hctx _

theorem SamePath.allLeft (h : SamePath ctx ctx') (hctx : AllLeft ctx) : AllLeft ctx' := by
  intro f hf
  have hmem : mapFrame cell f ∈ ctx.map (mapFrame cell) :=
    h ▸ mem_map_of_mem hf
  obtain ⟨g, hg, heq⟩ := mem_map.1 hmem
  obtain ⟨c, v, r, rfl⟩ := hctx g hg
  cases f with
  | left c v r => exact ⟨c, v, r, rfl⟩
  | right c l v => cases heq

theorem SamePath.split {inner path : PiecePath} (h : SamePath (inner ++ .right c l z :: ctx) path) :
    ∃ inner' l' z' ctx', path = inner' ++ .right c l' z' :: ctx' ∧ SamePath inner inner' ∧
      l'.map cell = l.map cell ∧ SamePath ctx ctx' := by
  unfold SamePath at h
  rw [map_append, map_cons] at h
  obtain ⟨inner', rest, rfl, hinner, hrest⟩ := map_eq_append_iff.1 h
  obtain ⟨f, ctx', rfl, hf, hctx⟩ := map_eq_cons_iff.1 hrest
  cases f with
  | left c' v r => cases hf
  | right c' l' z' =>
    simp only [mapFrame, RbFrame.right.injEq] at hf
    obtain ⟨rfl, hl, -⟩ := hf
    exact ⟨inner', l', z', ctx', rfl, hinner, hl, hctx⟩

/-- The path after the next node `y` was cut out: the ancestors of `z` may be out of date, the
ones below agree with what the right subtree of `z` now claims. -/
theorem cutNext_spec {inner : PiecePath} {x : PieceNodes}
    (hpath : PathOK (inner ++ .right c l z :: ctx) s) (hleft : AllLeft inner) (hl : l ≠ .nil) :
    ∃ inner' l' z' ctx' s', cutNext inner c l z x ctx = inner' ++ .right c l' z' :: ctx' ∧
    SamePath inner inner' ∧ l'.map cell = l.map cell ∧ SamePath ctx ctx' ∧ PathOK inner' s' ∧
    claimed (plug inner' x) = through inner' s' ∧ (s' = claimed x ∨ inner' ≠ []) ∧
    MetaOK l' ∧ z'.sums = extentOf (cells l') ∧ ∃ s'', PathOK ctx' s'' := by
  cases inner with
  | nil =>
    obtain ⟨hmeta, hz, hctx⟩ := hpath
    have hsize : calculateSize l - z.sizeLeft = 0 := by
      have := congrArg Prod.fst (hz.trans hmeta.claimed_eq.symm)
      simp only [sums, claimed] at this
      omega
    have hlf : calculateLF l - z.lfLeft = 0 := by
      have := congrArg Prod.snd (hz.trans hmeta.claimed_eq.symm)
      simp only [sums, claimed] at this
      omega
    refine ⟨[], l, z, ctx, claimed x, ?_, rfl, rfl, rfl, trivial, rfl, .inl rfl, hmeta, hz, _, hctx⟩
    simp only [cutNext, recomputeTreeMetadata, hl, false_and, if_false, hsize, hlf,
      updateTreeMetadata_zero, nil_append]
    simp [addLeft]
  | cons f inner =>
    obtain ⟨s', hpath', hs'⟩ := hpath.recompute_or x
    obtain ⟨inner', l', z', ctx', heq, hinner, hl', hctx'⟩ :=
      (samePath_recomputeTreeMetadata (f :: inner ++ .right c l z :: ctx) x).split
    have hne : inner' ≠ [] := by
      rintro rfl
      cases hinner
    rw [heq, pathOK_append] at hpath'
    obtain ⟨hin, hml, hz, hout⟩ := hpath'
    exact ⟨inner', l', z', ctx', s', heq, hinner, hl', hctx', hin,
      claimed_plug_allLeft (hinner.allLeft hleft) hne hin x, .inr hne, hml, hz, _, hout⟩

theorem SamePath.length_eq (h : SamePath ctx ctx') : ctx'.length = ctx.length := by
  simpa using congrArg List.length h

theorem rbDeleteAt_double {cr : RbColor} {rl rr : PieceNodes} {rv : TreeNode}
    (h : Sound (plug ctx (.node c l z (.node cr rl rv rr)))) (hl : l ≠ .nil) :
    let t := rbDeleteAt ctx c l z (.node cr rl rv rr)
    cells t = (before ctx).map cell ++ cells l ++ cells (.node cr rl rv rr) ++
      (after ctx).map cell ∧ Sound t := by
  obtain ⟨hspine, hbefore⟩ := leftest_spec [] cr rl rv rr
  have hleft : AllLeft (leftest [] cr rl rv rr).1 := allLeft_leftest (by simp [AllLeft]) cr rl rv rr
  have hdef : rbDeleteAt ctx c l z (.node cr rl rv rr) =
      let y := leftest [] cr rl rv rr
      let path := cutNext y.1 c l z y.2.2.2 ctx
      finishDelete (replaceBy y.2.2.1 (path.take y.1.length) y.2.2.2 (path.drop y.1.length))
        y.2.2.2 y.2.1 := by
    cases l with
    | nil => exact absurd rfl hl
    | node cl ll lv lr => rfl
  rw [hdef]
  generalize leftest [] cr rl rv rr = found at hspine hbefore hleft ⊢
  obtain ⟨inner, cy, y, x⟩ := found
  simp only at hspine hbefore hleft ⊢
  rw [plug] at hspine
  have hfull : plug (inner ++ .right c l z :: ctx) (.node cy .nil y x) =
      plug ctx (.node c l z (.node cr rl rv rr)) := by
    rw [plug_append, hspine]
    rfl
  rw [← hfull] at h
  obtain ⟨⟨ch, n, hhole, hbal⟩, hpath, -, hx, hy⟩ := h.split
  obtain ⟨inner', l', z', ctx', s', hcut, hinner, hl', hctx', hin, hclaim, hs', hml, hz, s'', hout⟩ :=
    cutNext_spec (x := x) hpath hleft hl
  have hlen := hinner.length_eq
  rw [hcut, ← hlen, take_left, drop_left, replaceBy]
  set y' : TreeNode := { y with sizeLeft := z'.sizeLeft, lfLeft := z'.lfLeft } with hy'
  have hy'sums : y'.sums = extentOf (cells l') := hz
  have hnode : ¬Ambiguous ctx' (.node c l' y' (plug inner' x)) := by
    rintro ⟨hnil, -⟩
    cases hnil
  have hout' := hout.recompute hnode
  rw [claimed_node, hy'sums, hclaim] at hout'
  have hsame : SamePath (inner ++ .right c l y :: ctx)
      (inner' ++ .right c l' y' :: recomputeTreeMetadata ctx' (.node c l' y' (plug inner' x))) := by
    have hrec := (samePath_recomputeTreeMetadata ctx' (.node c l' y' (plug inner' x))).trans hctx'
    unfold SamePath at hinner hrec ⊢
    rw [map_append, map_append, map_cons, map_cons, hinner, hrec]
    simp only [mapFrame, hl']
    rfl
  have hhole' : Hole (inner ++ .right c l y :: ctx) ch n := by
    refine Hole.congr (f := fun _ => ()) ?_ hhole
    simp [mapFrame]
  have hremove := hhole'.removeLeftless hbal
  have hpath' : PathOK (inner' ++ .right c l' y' ::
      recomputeTreeMetadata ctx' (.node c l' y' (plug inner' x))) s' :=
    pathOK_append.2 ⟨hin, hml, hy'sums, hout'⟩
  have hfinish := finishDelete_spec hpath'
    (by
      rcases hs' with hs' | hne
      · exact .inl hs'
      · cases inner' with
        | nil => exact absurd rfl hne
        | cons f rest =>
          obtain ⟨c, v, r, rfl⟩ := hinner.allLeft hleft f mem_cons_self
          exact .inr ⟨c, v, r, _, rfl⟩)
    hx (fun hred => hsame.redBlack (hremove.1 hred)) fun hblack => by
      obtain ⟨m, hm, hshort⟩ := hremove.2 hblack
      exact ⟨m, hsame.hole hm, hshort⟩
  refine ⟨?_, hfinish.2⟩
  have hcells : cells (.node cr rl rv rr) = y.cell :: (cells x ++ (after inner).map cell) := by
    rw [← hspine, cells_plug, hbefore]
    simp [before]
  rw [hfinish.1, hsame.cells_plug, cells_plug, hcells, before_append, after_append, hbefore]
  simp [before, after, cells_eq_map]

theorem rbDeleteAt_spec (h : Sound (plug ctx (.node c l z r))) :
    cells (rbDeleteAt ctx c l z r) = (before ctx).map cell ++ cells l ++ cells r ++
      (after ctx).map cell ∧ Sound (rbDeleteAt ctx c l z r) := by
  obtain ⟨⟨ch, n, hhole, hbal⟩, hpath, hml, hmr, -⟩ := h.split
  by_cases hl : l = .nil
  · subst hl
    have hremove := hhole.removeLeftless hbal
    have hsingle := rbDeleteAt_single (t := rbDeleteAt ctx c .nil z r) hpath hmr hremove.1 hremove.2
      rfl fun _ => by
        cases hbal with
        | red _ hr => exact hr.setBlack
        | black _ hr => exact hr.setBlack
    refine ⟨?_, hsingle.2⟩
    rw [hsingle.1, cells_plug, cells_nil, append_nil]
  · by_cases hr : r = .nil
    · subst hr
      have hremove := hhole.removeRightless hbal
      have hdef : rbDeleteAt ctx c l z .nil = if ctx.isEmpty then l.setColor .black
          else finishDelete (recomputeTreeMetadata ctx l) l c := by
        cases l with
        | nil => exact absurd rfl hl
        | node cl ll lv lr => rfl
      have hsingle := rbDeleteAt_single hpath hml hremove.1 hremove.2 hdef fun _ => by
        cases hbal with
        | red hl _ => exact hl.setBlack
        | black hl _ => exact hl.setBlack
      refine ⟨?_, hsingle.2⟩
      rw [hsingle.1, cells_plug, cells_nil, append_nil]
    · cases r with
      | nil => exact absurd rfl hr
      | node cr rl rv rr => exact rbDeleteAt_double h hl

theorem insertAt_spec (ctx : PiecePath) (h : Sound (plug ctx .nil)) (hz : z.sums = 0) :
    cells (fixInsert ctx (.node .red .nil z .nil)) = (before ctx).map cell ++
    z.cell :: (after ctx).map cell ∧ Sound (fixInsert ctx (.node .red .nil z .nil)) := by
  obtain ⟨⟨c, n, hhole, hbal⟩, hpath, -⟩ := h.split
  obtain ⟨hhole', -⟩ := hhole.insertLeaf hbal rfl z
  have hfix := fixInsert_spec (z := z) hpath hhole' hz
  refine ⟨?_, hfix.2⟩
  rw [hfix.1, cells_plug]
  simp

theorem rbInsertRightAt_spec {v : TreeNode} (h : Sound (plug ctx (.node c l v r)))
    (hz : z.sums = 0) :
    cells (rbInsertRightAt ctx c l v r z) = (before ctx).map cell ++ cells l ++
      v.cell :: z.cell :: (cells r ++ (after ctx).map cell) ∧
      Sound (rbInsertRightAt ctx c l v r z) := by
  cases r with
  | nil =>
    have hins := insertAt_spec (.right c l v :: ctx) (z := z) h hz
    refine ⟨?_, hins.2⟩
    rw [rbInsertRightAt, hins.1]
    simp [before, after, cells_eq_map, toList]
  | node cr rl rv rr =>
    obtain ⟨hspine, hbefore⟩ := leftest_spec (.right c l v :: ctx) cr rl rv rr
    have hlist := hspine
    rw [rbInsertRightAt]
    generalize leftest (.right c l v :: ctx) cr rl rv rr = found at hspine hbefore hlist ⊢
    obtain ⟨path, cn, next, nr⟩ := found
    simp only at hspine hbefore hlist ⊢
    have hsound : Sound (plug (.left cn next nr :: path) .nil) := by
      rw [plug, fill, hspine]
      exact h
    have hins := insertAt_spec _ (z := z) hsound hz
    refine ⟨?_, hins.2⟩
    rw [hins.1]
    -- Both sides list the tree from its left spine.
    have hcells := congrArg cells hlist
    rw [cells_plug, cells_plug, hbefore] at hcells
    have hrest : next.cell :: (cells nr ++ (after path).map cell) =
        cells (.node cr rl rv rr) ++ (after ctx).map cell := by
      simpa [after] using hcells
    rw [before, hbefore, after, ← hrest]
    simp [before, cells_eq_map]

theorem rbInsertLeftAt_spec {v : TreeNode} (h : Sound (plug ctx (.node c l v r)))
    (hz : z.sums = 0) :
    cells (rbInsertLeftAt ctx c v r l z) = (before ctx).map cell ++ cells l ++
      z.cell :: v.cell :: (cells r ++ (after ctx).map cell) ∧
      Sound (rbInsertLeftAt ctx c v r l z) := by
  cases l with
  | nil =>
    have hins := insertAt_spec (.left c v r :: ctx) (z := z) h hz
    refine ⟨?_, hins.2⟩
    rw [rbInsertLeftAt, hins.1]
    simp [before, after, cells_eq_map, toList]
  | node cl ll lv lr =>
    obtain ⟨hspine, hafter⟩ := righttest_spec (.left c v r :: ctx) cl ll lv lr
    have hlist := hspine
    rw [rbInsertLeftAt]
    generalize righttest (.left c v r :: ctx) cl ll lv lr = found at hspine hafter hlist ⊢
    obtain ⟨path, cp, pl, prev⟩ := found
    simp only at hspine hafter hlist ⊢
    have hsound : Sound (plug (.right cp pl prev :: path) .nil) := by
      rw [plug, fill, hspine]
      exact h
    have hins := insertAt_spec _ (z := z) hsound hz
    refine ⟨?_, hins.2⟩
    rw [hins.1]
    have hcells := congrArg cells hlist
    rw [cells_plug, cells_plug, hafter] at hcells
    have hrest : (before path).map cell ++ (cells pl ++ [prev.cell]) =
        (before ctx).map cell ++ cells (.node cl ll lv lr) := by
      simpa [before, ← append_assoc] using hcells
    rw [before, after, hafter, ← hrest]
    simp [after, cells_eq_map]

def UniqueIds (cs : List Cell) : Prop := (cs.map Prod.fst).Nodup

theorem split_unique {xs ys xs' ys' : List Cell} {id : NodeId} {p p' : Piece}
    (hn : UniqueIds (xs ++ (id, p) :: ys)) (h : xs ++ (id, p) :: ys = xs' ++ (id, p') :: ys') :
    xs = xs' ∧ p = p' ∧ ys = ys' := by
  induction xs generalizing xs' with
  | nil =>
    cases xs' with
    | nil => simpa using h
    | cons c xs' =>
      simp only [nil_append, cons_append, List.cons.injEq] at h
      obtain ⟨rfl, rfl⟩ := h
      simp [UniqueIds] at hn
  | cons c xs ih =>
    cases xs' with
    | nil =>
      simp only [nil_append, cons_append, List.cons.injEq] at h
      obtain ⟨rfl, rfl⟩ := h
      simp [UniqueIds] at hn
    | cons d xs' =>
      simp only [cons_append, List.cons.injEq] at h
      obtain ⟨rfl, h⟩ := h
      obtain ⟨rfl, hrest⟩ := ih (nodup_cons.1 hn).2 h
      exact ⟨rfl, hrest⟩

theorem find_spec {xs ys : List Cell} {id : NodeId} {p : Piece} (hn : UniqueIds (cells t))
    (h : cells t = xs ++ (id, p) :: ys) : ∃ ctx c l v r, find t id = some (ctx, c, l, v, r) ∧
    v.cell = (id, p) ∧ plug ctx (.node c l v r) = t ∧
    (before ctx).map cell ++ cells l = xs ∧ cells r ++ (after ctx).map cell = ys := by
  have hmem : ∃ v ∈ t.toList, decide (v.id = id) = true := by
    have hcell : (id, p) ∈ t.toList.map cell := by
      rw [← cells_eq_map, h]
      simp
    obtain ⟨v, hv, heq⟩ := mem_map.1 hcell
    exact ⟨v, hv, decide_eq_true (congrArg Prod.fst heq)⟩
  have hsome := focus_isSome (p := fun v : TreeNode => v.id = id) [] hmem
  obtain ⟨⟨ctx, c, l, v, r⟩, hfound⟩ := Option.isSome_iff_exists.1 hsome
  obtain ⟨hid, hplug⟩ := focus_spec hfound
  rw [plug] at hplug
  have hid' : v.id = id := by simpa using hid
  have hcells : cells t = ((before ctx).map cell ++ cells l) ++
      (id, v.piece) :: (cells r ++ (after ctx).map cell) := by
    rw [← hplug, cells_plug, cells_node, ← hid']
    simp [cell]
  obtain ⟨hxs, hp, hys⟩ := split_unique (h ▸ hn) (h.symm.trans hcells)
  exact ⟨ctx, c, l, v, r, hfound, by rw [hp, ← hid']; rfl, hplug, hxs.symm, hys.symm⟩

section Operations

variable {t : PieceNodes} {xs ys : List Cell} {id : NodeId} {p : Piece}
  (hn : UniqueIds (cells t)) (h : cells t = xs ++ (id, p) :: ys)
include hn h

theorem get?_spec : ∃ v, get? t id = some v ∧ v.cell = (id, p) := by
  obtain ⟨ctx, c, l, v, r, hfound, hcell, -⟩ := find_spec hn h
  exact ⟨v, by rw [get?, hfound]; rfl, hcell⟩

theorem next_spec : (next t id).map cell = ys.head? := by
  obtain ⟨ctx, c, l, v, r, hfound, -, -, -, hys⟩ := find_spec hn h
  rw [next, hfound, Option.bind_some]
  change (RbTree.next ctx r).map cell = _
  rw [next_eq, ← hys, cells_eq_map, ← map_append, head?_map]

theorem prev_spec : (prev t id).map cell = xs.getLast? := by
  obtain ⟨ctx, c, l, v, r, hfound, -, -, hxs, -⟩ := find_spec hn h
  rw [prev, hfound, Option.bind_some]
  change (RbTree.prev ctx l).map cell = _
  rw [prev_eq, ← hxs, cells_eq_map, ← map_append, getLast?_map]

theorem rbDelete_spec (hs : Sound t) :
    cells (rbDelete t id) = xs ++ ys ∧ Sound (rbDelete t id) := by
  obtain ⟨ctx, c, l, v, r, hfound, hcell, rfl, rfl, rfl⟩ := find_spec hn h
  have hdelete := rbDeleteAt_spec hs
  rw [rbDelete, hfound]
  refine ⟨?_, hdelete.2⟩
  simp only [hdelete.1, append_assoc]

theorem rbInsertRight_spec {z : TreeNode} (hs : Sound t) (hz : z.sums = 0) :
    cells (rbInsertRight t id z) =
    xs ++ (id, p) :: z.cell :: ys ∧ Sound (rbInsertRight t id z) := by
  obtain ⟨ctx, c, l, v, r, hfound, hcell, rfl, rfl, rfl⟩ := find_spec hn h
  have hinsert := rbInsertRightAt_spec (z := z) hs hz
  rw [rbInsertRight, hfound]
  refine ⟨?_, hinsert.2⟩
  simp only [hinsert.1, hcell]

theorem rbInsertLeft_spec {z : TreeNode} (hs : Sound t) (hz : z.sums = 0) :
    cells (rbInsertLeft t id z) = xs ++ z.cell :: (id, p) :: ys ∧ Sound (rbInsertLeft t id z) := by
  obtain ⟨ctx, c, l, v, r, hfound, hcell, rfl, rfl, rfl⟩ := find_spec hn h
  have hinsert := rbInsertLeftAt_spec (z := z) hs hz
  rw [rbInsertLeft, hfound]
  refine ⟨?_, hinsert.2⟩
  simp only [hinsert.1, hcell]

theorem setPiece_spec {p' : Piece} {d e : Int} (hs : Sound t)
    (hp : p'.extent = p.extent + (d, e)) :
    cells (setPiece t id p' d e) = xs ++ (id, p') :: ys ∧ Sound (setPiece t id p' d e) := by
  obtain ⟨ctx, c, l, v, r, hfound, hcell, rfl, rfl, rfl⟩ := find_spec hn h
  obtain ⟨⟨ch, n, hhole, hbal⟩, hpath, hml, hmr, hv⟩ := hs.split
  have hsame := samePath_updateTreeMetadata ctx d e
  rw [setPiece, hfound]
  have hid : ({ v with piece := p' } : TreeNode).cell = (id, p') := by
    rw [cell]
    exact congrArg (·, p') (congrArg Prod.fst hcell)
  have hextent : extentOf (cells (.node c l v r)) + (d, e) =
      extentOf (cells (.node c l { v with piece := p' } r)) := by
    rw [cells_node, cells_node, extentOf_append, extentOf_append, extentOf_cons, extentOf_cons, hid,
      hcell, hp]
    abel
  refine ⟨?_, hsame.redBlack ?_, ?_⟩
  · simp only [hsame.cells_plug, cells_plug, cells_node, hid, append_assoc, cons_append]
  · refine hhole.plug_balanced ?_
    cases hbal with
    | red hl hr => exact .red hl hr
    | black hl hr => exact .black hl hr
  · exact metaOK_plug.2 ⟨hextent ▸ hpath.update d e, hml, hmr, hv⟩

end Operations

end PieceNodes

end CodeOss
