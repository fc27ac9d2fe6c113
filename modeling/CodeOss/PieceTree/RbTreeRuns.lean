import CodeOss.Base.JsString
import CodeOss.PieceTree.RbTreeSpec

/-! The tree through any sequence of the operations `PieceTreeBase` does on it. -/

namespace CodeOss

open List

structure StringBuffer where
  buffer : JsString
  lineStarts : List Int

namespace StringBuffer

variable (b : StringBuffer)

def lineStart (line : Int) : Int := b.lineStarts.getD line.toNat 0

def offsetInBuffer (cursor : BufferCursor) : Int :=
  b.lineStart cursor.line + cursor.column

def getLineFeedCnt (start stop : BufferCursor) : Int :=
  if stop.column = 0 then stop.line - start.line
  else if stop.line = b.lineStarts.length - 1 then stop.line - start.line
  else
    let nextLineStartOffset := b.lineStart (stop.line + 1)
    let endOffset := b.lineStart stop.line + stop.column
    if nextLineStartOffset > endOffset + 1 then stop.line - start.line
    else if b.buffer.charCodeAt (endOffset - 1) = some CharCode.CarriageReturn then
      stop.line - start.line + 1
    else stop.line - start.line

theorem getLineFeedCnt_next (start stop : BufferCursor) (column : Int) :
    b.getLineFeedCnt ⟨start.line + 1, column⟩ stop = b.getLineFeedCnt start stop - 1 := by
  simp only [getLineFeedCnt]
  split_ifs <;> omega

end StringBuffer

/-- The ways a piece shrinks or grows in its node: `fixCRLF` drops the carriage return of one piece
and, as `insertContentToNodeLeft` and `adjustCarriageReturnFromNext` do, the line feed of the
next. -/
inductive PieceChange
  | deleteNodeTail (pos : BufferCursor)
  | deleteNodeHead (pos : BufferCursor)
  | shrinkNode (start : BufferCursor)
  | appendToNode (newEnd : BufferCursor) (length : Int)
  | dropCarriageReturn (newEnd : BufferCursor)
  | dropLineFeed

namespace PieceChange

/-- The new piece in its buffer, and what `updateTreeMetadata` is told of the change. -/
def apply (b : StringBuffer) (piece : Piece) : PieceChange → Piece × Extent
  | deleteNodeTail pos =>
    let newLineFeedCnt := b.getLineFeedCnt piece.start pos
    let sizeDelta := b.offsetInBuffer pos - b.offsetInBuffer piece.stop
    ({ piece with stop := pos, lineFeedCnt := newLineFeedCnt, length := piece.length + sizeDelta },
      sizeDelta, newLineFeedCnt - piece.lineFeedCnt)
  | deleteNodeHead pos =>
    let newLineFeedCnt := b.getLineFeedCnt pos piece.stop
    let sizeDelta := b.offsetInBuffer piece.start - b.offsetInBuffer pos
    ({ piece with start := pos, lineFeedCnt := newLineFeedCnt, length := piece.length + sizeDelta },
      sizeDelta, newLineFeedCnt - piece.lineFeedCnt)
  | shrinkNode start =>
    let newLineFeedCnt := b.getLineFeedCnt piece.start start
    let newLength := b.offsetInBuffer start - b.offsetInBuffer piece.start
    ({ piece with stop := start, lineFeedCnt := newLineFeedCnt, length := newLength },
      newLength - piece.length, newLineFeedCnt - piece.lineFeedCnt)
  | appendToNode newEnd length =>
    let newLineFeedCnt := b.getLineFeedCnt piece.start newEnd
    ({ piece with stop := newEnd, lineFeedCnt := newLineFeedCnt, length := piece.length + length },
      length, newLineFeedCnt - piece.lineFeedCnt)
  | dropCarriageReturn newEnd =>
    ({ piece with
        stop := newEnd, lineFeedCnt := piece.lineFeedCnt - 1, length := piece.length - 1 }, -1, -1)
  | dropLineFeed =>
    let newStart := ⟨piece.start.line + 1, 0⟩
    let newLineFeedCnt := b.getLineFeedCnt newStart piece.stop
    ({ piece with start := newStart, lineFeedCnt := newLineFeedCnt, length := piece.length - 1 },
      -1, -1)

/-- A line feed is dropped from a piece whose count is that of its buffer. -/
def Meets (b : StringBuffer) (piece : Piece) : PieceChange → Prop
  | dropLineFeed => piece.lineFeedCnt = b.getLineFeedCnt piece.start piece.stop
  | _ => True

theorem apply_extent {b : StringBuffer} {piece : Piece} {change : PieceChange}
    (h : change.Meets b piece) :
    (change.apply b piece).1.extent = piece.extent + (change.apply b piece).2 := by
  cases change with
  | dropLineFeed =>
    have hcount : piece.lineFeedCnt = b.getLineFeedCnt piece.start piece.stop := h
    simp only [apply, Piece.extent, Prod.mk_add_mk, StringBuffer.getLineFeedCnt_next, ← hcount]
    rfl
  | _ =>
    simp only [apply, Piece.extent, Prod.ext_iff, Prod.fst_add, Prod.snd_add, true_and]
    omega

end PieceChange

structure PieceTree where
  root : PieceNodes
  nextId : NodeId

inductive TreeOperation
  | rbInsertRight (node : Option NodeId) (p : Piece)
  | rbInsertLeft (node : Option NodeId) (p : Piece)
  | rbDelete (node : NodeId)
  | changePiece (node : NodeId) (b : StringBuffer) (change : PieceChange)

namespace PieceTree

def empty : PieceTree := ⟨.nil, 0⟩

/-- What `rbInsertRight` and `rbInsertLeft` share: a new node, alone in the tree or put next to
`node!`. -/
def insert (place : PieceNodes → NodeId → TreeNode → PieceNodes) (s : PieceTree)
    (node : Option NodeId) (p : Piece) : Option PieceTree :=
  let z : TreeNode := ⟨s.nextId, p, 0, 0⟩
  match s.root with
  | .nil => some ⟨PieceNodes.fixInsert [] (.node .black .nil z .nil), s.nextId + 1⟩
  | root => node.map fun id => ⟨place root id z, s.nextId + 1⟩

def step (s : PieceTree) : TreeOperation → Option PieceTree
  | .rbInsertRight node p => s.insert PieceNodes.rbInsertRight node p
  | .rbInsertLeft node p => s.insert PieceNodes.rbInsertLeft node p
  | .rbDelete node => some { s with root := s.root.rbDelete node }
  | .changePiece node b change => do
    let v ← s.root.get? node
    let (piece, delta, lineFeedCntDelta) := change.apply b v.piece
    some { s with root := s.root.setPiece node piece delta lineFeedCntDelta }

def run (s : PieceTree) : List TreeOperation → Option PieceTree
  | [] => some s
  | op :: ops => (s.step op).bind fun s => s.run ops

end PieceTree

namespace TreeOperation

def insertAfter (id : NodeId) (c : Cell) : List Cell → List Cell
  | [] => [c]
  | d :: cs => if d.1 = id then d :: c :: cs else d :: insertAfter id c cs

def insertBefore (id : NodeId) (c : Cell) : List Cell → List Cell
  | [] => [c]
  | d :: cs => if d.1 = id then c :: d :: cs else d :: insertBefore id c cs

/-- The operation on a list of pieces, each with its reference. -/
def onList (nextId : NodeId) (cs : List Cell) : TreeOperation → List Cell
  | rbInsertRight node p => insertAfter (node.getD 0) (nextId, p) cs
  | rbInsertLeft node p => insertBefore (node.getD 0) (nextId, p) cs
  | rbDelete node => cs.filter fun c => c.1 ≠ node
  | changePiece node b change =>
    cs.map fun c => if c.1 = node then (c.1, (change.apply b c.2).1) else c

def nextId (n : NodeId) : TreeOperation → NodeId
  | rbInsertRight .. | rbInsertLeft .. => n + 1
  | _ => n

def Meets (cs : List Cell) : TreeOperation → Prop
  | rbInsertRight node _ | rbInsertLeft node _ => cs = [] ∨ ∃ id ∈ node, id ∈ cs.map Prod.fst
  | rbDelete node => node ∈ cs.map Prod.fst
  | changePiece node b change => ∃ piece, (node, piece) ∈ cs ∧ change.Meets b piece

end TreeOperation

/-- The list after the operations, with the next reference. -/
def piecesAfter (n : NodeId) (cs : List Cell) : List TreeOperation → List Cell
  | [] => cs
  | op :: ops => piecesAfter (op.nextId n) (op.onList n cs) ops

def AllMeet (n : NodeId) (cs : List Cell) : List TreeOperation → Prop
  | [] => True
  | op :: ops => op.Meets cs ∧ AllMeet (op.nextId n) (op.onList n cs) ops

section Lists

variable {xs ys : List Cell} {id n : NodeId} {p : Piece} {c : Cell}

open PieceNodes TreeOperation

theorem not_mem_of_unique (h : UniqueIds (xs ++ (id, p) :: ys)) :
    (∀ x ∈ xs, x.1 ≠ id) ∧ ∀ y ∈ ys, y.1 ≠ id := by
  rw [UniqueIds, map_append, map_cons, nodup_append, nodup_cons] at h
  obtain ⟨-, ⟨hys, -⟩, hxs⟩ := h
  exact ⟨fun x hx => hxs x.1 (mem_map_of_mem hx) id mem_cons_self,
    fun y hy heq => hys (mem_map.mpr ⟨y, hy, heq⟩)⟩

theorem insertAfter_eq (c : Cell) (hxs : ∀ x ∈ xs, x.1 ≠ id) :
    insertAfter id c (xs ++ (id, p) :: ys) = xs ++ (id, p) :: c :: ys := by
  induction xs with
  | nil => rw [nil_append, insertAfter, if_pos rfl]; rfl
  | cons x xs ih =>
    obtain ⟨hx, hxs⟩ := forall_mem_cons.mp hxs
    rw [cons_append, insertAfter, if_neg hx, ih hxs]
    rfl

theorem insertBefore_eq (c : Cell) (hxs : ∀ x ∈ xs, x.1 ≠ id) :
    insertBefore id c (xs ++ (id, p) :: ys) = xs ++ c :: (id, p) :: ys := by
  induction xs with
  | nil => rw [nil_append, insertBefore, if_pos rfl]; rfl
  | cons x xs ih =>
    obtain ⟨hx, hxs⟩ := forall_mem_cons.mp hxs
    rw [cons_append, insertBefore, if_neg hx, ih hxs]
    rfl

theorem exists_split (h : id ∈ (xs.map Prod.fst)) : ∃ as p bs, xs = as ++ (id, p) :: bs := by
  obtain ⟨⟨id, p⟩, hmem, rfl⟩ := mem_map.mp h
  obtain ⟨as, bs, rfl⟩ := append_of_mem hmem
  exact ⟨as, p, bs, rfl⟩

end Lists

namespace PieceTree

open PieceNodes

variable {s : PieceTree} {n : NodeId} {cs : List Cell} {op : TreeOperation} {p : Piece}

/-- The tree is sound and its pieces are those of the list, under references given before. -/
structure Holds (s : PieceTree) (n : NodeId) (cs : List Cell) : Prop where
  sound : Sound s.root
  cells : cells s.root = cs
  unique : UniqueIds cs
  given : ∀ c ∈ cs, c.1 < n
  next : s.nextId = n

theorem Holds.root_ne_nil (h : s.Holds n cs) (hcs : cs ≠ []) : s.root ≠ .nil := by
  intro hroot
  apply hcs
  rw [← h.cells, hroot]
  rfl

theorem unique_insert {xs ys : List Cell} (hn : UniqueIds (xs ++ ys))
    (h : ∀ c ∈ xs ++ ys, c.1 < n) :
    UniqueIds (xs ++ (n, p) :: ys) ∧ ∀ c ∈ xs ++ (n, p) :: ys, c.1 < n + 1 := by
  constructor
  · unfold UniqueIds at hn ⊢
    rw [map_append, map_cons, nodup_middle, nodup_cons, ← map_append]
    refine ⟨fun hmem => ?_, hn⟩
    obtain ⟨c, hc, heq⟩ := mem_map.1 hmem
    exact (h c hc).ne heq
  · intro c hc
    rcases mem_cons.mp (perm_middle.mem_iff.mp hc) with rfl | hc
    · exact Nat.lt_succ_self n
    · exact (h c hc).trans (Nat.lt_succ_self n)

variable {place : PieceNodes → NodeId → TreeNode → PieceNodes}

theorem Holds.insertFirst (h : s.Holds n [])
    (node : Option NodeId) : ∃ s', s.insert place node p = some s' ∧ s'.Holds (n + 1) [(n, p)] := by
  have hroot : s.root = .nil := by
    cases hroot : s.root with
    | nil => rfl
    | node c l v r =>
      have hcells := h.cells
      rw [hroot, cells_node] at hcells
      simp at hcells
  have hids := @unique_insert n p [] [] h.unique h.given
  have hnext : s.nextId = n := h.next
  have hleaf : fixInsert [] (.node .black .nil ⟨n, p, 0, 0⟩ .nil) =
      .node .black .nil ⟨n, p, 0, 0⟩ .nil := by
    rw [fixInsert, recomputeTreeMetadata, RbTree.insertFixup.eq_def]
    rfl
  refine ⟨⟨.node .black .nil ⟨n, p, 0, 0⟩ .nil, n + 1⟩, ?_, ?_⟩
  · rw [PieceTree.insert, hroot]
    simp only [hnext, hleaf]
  · exact ⟨⟨⟨1, .black .nil .nil⟩, trivial, trivial, rfl⟩, rfl, hids.1, hids.2, rfl⟩

theorem Holds.insertNext {id : NodeId}
    {xs ys : List Cell} (h : s.Holds n cs) (hcs : cs ≠ []) (hxs : xs ++ ys = cs)
    (hcells : PieceNodes.cells (place s.root id ⟨n, p, 0, 0⟩) = xs ++ (n, p) :: ys)
    (hsound : Sound (place s.root id ⟨n, p, 0, 0⟩)) :
    ∃ s', s.insert place (some id) p = some s' ∧ s'.Holds (n + 1) (xs ++ (n, p) :: ys) := by
  have hids := unique_insert (p := p) (hxs ▸ h.unique) (hxs ▸ h.given)
  refine ⟨⟨place s.root id ⟨n, p, 0, 0⟩, n + 1⟩, ?_, ⟨hsound, hcells, hids.1, hids.2, rfl⟩⟩
  have hroot := h.root_ne_nil hcs
  have hnext : s.nextId = n := h.next
  rw [PieceTree.insert, hnext]
  cases hs : s.root with
  | nil => exact absurd hs hroot
  | node c l v r => rfl

theorem Holds.step (h : s.Holds n cs) (hop : op.Meets cs) :
    ∃ s', s.step op = some s' ∧ s'.Holds (op.nextId n) (op.onList n cs) := by
  cases op with
  | rbInsertRight node p =>
    by_cases hcs : cs = []
    · subst hcs
      exact h.insertFirst node
    obtain ⟨id, hid, hmem⟩ := hop.resolve_left hcs
    obtain rfl := Option.mem_def.mp hid
    obtain ⟨xs, q, ys, rfl⟩ := exists_split hmem
    have hlist := @insertAfter_eq _ ys _ q (n, p) (not_mem_of_unique h.unique).1
    obtain ⟨hcells, hsound⟩ := rbInsertRight_spec (z := ⟨n, p, 0, 0⟩) (h.cells ▸ h.unique)
      h.cells h.sound rfl
    have hplace := h.insertNext hcs (append_assoc xs [(id, q)] ys)
      (hcells.trans (append_assoc xs [(id, q)] ((n, p) :: ys)).symm) hsound
    simp only [TreeOperation.onList, Option.getD_some, hlist]
    rw [append_assoc, singleton_append] at hplace
    exact hplace
  | rbInsertLeft node p =>
    by_cases hcs : cs = []
    · subst hcs
      exact h.insertFirst node
    obtain ⟨id, hid, hmem⟩ := hop.resolve_left hcs
    obtain rfl := Option.mem_def.mp hid
    obtain ⟨xs, q, ys, rfl⟩ := exists_split hmem
    have hlist := @insertBefore_eq _ ys _ q (n, p) (not_mem_of_unique h.unique).1
    obtain ⟨hcells, hsound⟩ := rbInsertLeft_spec (z := ⟨n, p, 0, 0⟩) (h.cells ▸ h.unique)
      h.cells h.sound rfl
    simp only [TreeOperation.onList, Option.getD_some, hlist]
    exact h.insertNext hcs rfl hcells hsound
  | rbDelete node =>
    obtain ⟨xs, q, ys, rfl⟩ := exists_split hop
    obtain ⟨hxs, hys⟩ := not_mem_of_unique h.unique
    obtain ⟨hcells, hsound⟩ := rbDelete_spec (h.cells ▸ h.unique) h.cells h.sound
    have hlist : (xs ++ (node, q) :: ys).filter (fun c => c.1 ≠ node) = xs ++ ys := by
      rw [filter_append, filter_cons_of_neg (by simp),
        filter_eq_self.mpr (by simpa using hxs), filter_eq_self.mpr (by simpa using hys)]
    have hsub : (xs ++ ys).Sublist (xs ++ (node, q) :: ys) :=
      (List.Sublist.refl xs).append (sublist_cons_self _ _)
    rw [TreeOperation.onList, hlist]
    exact ⟨_, rfl, hsound, hcells, h.unique.sublist (hsub.map _),
      fun c hc => h.given c (hsub.subset hc), h.next⟩
  | changePiece node b change =>
    obtain ⟨q, hmem, hchange⟩ := hop
    obtain ⟨xs, ys, rfl⟩ := append_of_mem hmem
    obtain ⟨hxs, hys⟩ := not_mem_of_unique h.unique
    obtain ⟨v, hv, hcell⟩ := get?_spec (h.cells ▸ h.unique) h.cells
    obtain rfl : v.piece = q := congrArg Prod.snd hcell
    obtain ⟨hcells, hsound⟩ := setPiece_spec (h.cells ▸ h.unique) h.cells h.sound
      (PieceChange.apply_extent hchange)
    have hlist : (xs ++ (node, v.piece) :: ys).map
          (fun c => if c.1 = node then (c.1, (change.apply b c.2).1) else c) =
        xs ++ (node, (change.apply b v.piece).1) :: ys := by
      have hsame : ∀ zs : List Cell, (∀ z ∈ zs, z.1 ≠ node) →
          zs.map (fun c => if c.1 = node then (c.1, (change.apply b c.2).1) else c) = zs :=
        fun zs hzs => (map_congr_left fun z hz => if_neg (hzs z hz)).trans (map_id zs)
      rw [map_append, map_cons, hsame xs hxs, hsame ys hys, if_pos rfl]
    rw [TreeOperation.onList, hlist]
    have hstep : s.step (.changePiece node b change) = some { s with
        root := s.root.setPiece node (change.apply b v.piece).1 (change.apply b v.piece).2.1
          (change.apply b v.piece).2.2 } := by
      rw [PieceTree.step, hv]
      rfl
    refine ⟨_, hstep, hsound, hcells, ?_, ?_, h.next⟩
    · have hn := h.unique
      unfold UniqueIds at hn ⊢
      simpa using hn
    · intro c hc
      have hcell : c.1 ∈ (xs ++ (node, v.piece) :: ys).map Prod.fst := by
        have := mem_map_of_mem (f := Prod.fst) hc
        simpa using this
      obtain ⟨d, hd, heq⟩ := mem_map.mp hcell
      exact heq ▸ h.given d hd

theorem Holds.run {ops : List TreeOperation} (h : s.Holds n cs) (hops : AllMeet n cs ops) :
    ∃ s' m, s.run ops = some s' ∧ s'.Holds m (piecesAfter n cs ops) := by
  induction ops generalizing s n cs with
  | nil => exact ⟨s, n, rfl, h⟩
  | cons op ops ih =>
    obtain ⟨hop, hops⟩ := hops
    obtain ⟨s', hstep, hs'⟩ := h.step hop
    obtain ⟨t, m, hrun, ht⟩ := ih hs' hops
    exact ⟨t, m, by rw [PieceTree.run, hstep]; exact hrun, ht⟩

theorem empty_holds : empty.Holds 0 [] :=
  ⟨⟨⟨0, .nil⟩, trivial⟩, rfl, nodup_nil, fun _ h => absurd h not_mem_nil, rfl⟩

/-- The tree stays low, so that the loops of `nodeAt` and `offsetOfNode`, and those that repair it,
are short. -/
theorem run_height_le (ops : List TreeOperation) (h : AllMeet 0 [] ops) :
    ∃ s, empty.run ops = some s ∧
      s.root.height ≤ 2 * Nat.log 2 ((piecesAfter 0 [] ops).length + 1) := by
  obtain ⟨s, n, hrun, hs⟩ := empty_holds.run h
  have hlength : (piecesAfter 0 [] ops).length = s.root.toList.length := by
    rw [← hs.cells, cells_eq_map, List.length_map]
  exact ⟨s, hrun, hlength ▸ hs.sound.1.height_le⟩

/-- Two pieces. -/
theorem run_height_le_two : ∃ s, empty.run [.rbInsertRight none ⟨1, ⟨0, 0⟩, ⟨0, 2⟩, 0, 2⟩,
    .rbInsertRight (some 0) ⟨1, ⟨0, 2⟩, ⟨0, 4⟩, 0, 2⟩] = some s ∧ s.root.height ≤ 2 :=
  run_height_le _ ⟨Or.inl rfl, Or.inr ⟨0, rfl, List.mem_singleton.mpr rfl⟩, trivial⟩

end PieceTree

structure NodePosition where
  node : NodeId
  remainder : Int
  nodeStartOffset : Int

namespace PieceNodes

open RbTree

variable {t : PieceNodes} {xs ys : List Cell} {id : NodeId} {p : Piece} {ctx : PiecePath}
  {s : Extent} {offset : Int}

/-- `get` of a `PieceTreeSearchCache`, whose entries are nodes with their starts. -/
def cached (t : PieceNodes) (cache : List (NodeId × Int)) (offset : Int) : Option (NodeId × Int) :=
  cache.reverse.find? fun nodePos =>
    nodePos.2 ≤ offset && (t.get? nodePos.1).any fun node => nodePos.2 + node.piece.length ≥ offset

/-- The loop of `nodeAt`. -/
def descend : PieceNodes → Int → Int → Option NodePosition
  | .nil, _, _ => none
  | .node _ l x r, offset, nodeStartOffset =>
    if x.sizeLeft > offset then descend l offset nodeStartOffset
    else if x.sizeLeft + x.piece.length ≥ offset then
      some ⟨x.id, offset - x.sizeLeft, nodeStartOffset + x.sizeLeft⟩
    else descend r (offset - (x.sizeLeft + x.piece.length))
      (nodeStartOffset + (x.sizeLeft + x.piece.length))

/-- `nodeAt` with a cache of `limit` entries; `none` is `null`. -/
def nodeAt (limit : Nat) (t : PieceNodes) (cache : List (NodeId × Int)) (offset : Int) :
    Option NodePosition × List (NodeId × Int) :=
  match t.cached cache offset with
  | some nodePos => (some ⟨nodePos.1, offset - nodePos.2, nodePos.2⟩, cache)
  | none => match t.descend offset 0 with
    | some ret =>
      (some ret, (if cache.length ≥ limit then cache.tail else cache) ++
        [(ret.node, ret.nodeStartOffset)])
    | none => (none, cache)

/-- The loop of `offsetOfNode`, up to the root. -/
def climb : PiecePath → Int → Int
  | [], pos => pos
  | .left .. :: ctx, pos => climb ctx pos
  | .right _ _ parent :: ctx, pos => climb ctx (pos + (parent.sizeLeft + parent.piece.length))

def offsetOfNode (t : PieceNodes) (node : NodeId) : Int :=
  match t.find node with
  | none => 0
  | some (ctx, _, _, v, _) => climb ctx v.sizeLeft

theorem descend_spec (h : MetaOK t) (ht : t ≠ .nil) (start offset : Int) (h0 : 0 ≤ offset)
    (hend : offset ≤ (extentOf (cells t)).1) : ∃ xs c ys, cells t = xs ++ c :: ys ∧
    descend t offset start = some ⟨c.1, offset - (extentOf xs).1, start + (extentOf xs).1⟩ ∧
    (extentOf xs).1 ≤ offset ∧ offset ≤ (extentOf xs).1 + c.2.length := by
  induction t generalizing offset start with
  | nil => exact absurd rfl ht
  | node c l x r ihl ihr =>
    obtain ⟨hl, hr, hx⟩ := h
    have hsize : x.sizeLeft = (extentOf (cells l)).1 := congrArg Prod.fst hx
    rw [cells_node, extentOf_append, extentOf_cons] at hend
    simp only [Prod.fst_add, ← hsize, TreeNode.cell, Piece.extent] at hend
    rw [descend, cells_node]
    split_ifs with hleft hhere
    · have hne : l ≠ .nil := by
        rintro rfl
        simp at hsize
        omega
      obtain ⟨xs, d, ys, hcells, hspec⟩ := ihl hl hne start _ h0 (by omega)
      exact ⟨xs, d, ys ++ x.cell :: cells r, by simp [hcells], hspec⟩
    · refine ⟨cells l, x.cell, cells r, rfl, ?_⟩
      rw [← hsize]
      exact ⟨rfl, by omega, hhere⟩
    · have hne : r ≠ .nil := by
        rintro rfl
        simp at hend
        omega
      obtain ⟨xs, d, ys, hcells, hat, hspec⟩ := ihr hr hne (start + (x.sizeLeft + x.piece.length))
        (offset - (x.sizeLeft + x.piece.length)) (by omega) (by omega)
      refine ⟨cells l ++ x.cell :: xs, d, ys, by simp [hcells], ?_⟩
      have hxs : (extentOf (cells l ++ x.cell :: xs)).1 =
          x.sizeLeft + x.piece.length + (extentOf xs).1 := by
        rw [extentOf_append, extentOf_cons, hsize, Prod.fst_add, Prod.fst_add, ← add_assoc]
        rfl
      rw [hat, hxs]
      refine ⟨?_, by omega⟩
      congr 2 <;> omega

theorem climb_eq (h : PathOK ctx s) (pos : Int) :
    climb ctx pos = (extentOf ((before ctx).map TreeNode.cell)).1 + pos := by
  induction ctx generalizing s pos with
  | nil => simp [climb, before]
  | cons f ctx ih =>
    cases f with
    | left c v r => exact ih h.2.2 pos
    | right c l v =>
      obtain ⟨-, hv, hctx⟩ := h
      rw [climb, ih hctx, before, map_append, map_append, extentOf_append, extentOf_append,
        ← cells_eq_map, ← hv, map_singleton, extentOf_cons, extentOf_nil]
      simp only [Prod.fst_add, TreeNode.sums, TreeNode.cell, Piece.extent, Prod.fst_zero]
      omega

theorem offsetOfNode_eq (ht : MetaOK t) (hn : UniqueIds (cells t))
    (h : cells t = xs ++ (id, p) :: ys) : offsetOfNode t id = (extentOf xs).1 := by
  obtain ⟨ctx, c, l, v, r, hfound, hcell, rfl, rfl, -⟩ := find_spec hn h
  obtain ⟨hpath, hl, -, hv⟩ := metaOK_plug.1 ht
  rw [offsetOfNode, hfound, extentOf_append, ← hv]
  exact climb_eq hpath _

end PieceNodes

namespace PieceTree

open PieceNodes

/-- The entries of a cache stand where they say. -/
def CacheRight (cs : List Cell) (cache : List (NodeId × Int)) : Prop :=
  ∀ e ∈ cache, ∃ xs p ys, cs = xs ++ (e.1, p) :: ys ∧ e.2 = (extentOf xs).1

/-- After any operations, with a cache that is right, every offset is found: in a piece that
reaches over it, at the start to which the way up from its node leads. The cache stays right. -/
theorem nodeAt_finds (ops : List TreeOperation) (limit : Nat) (cache : List (NodeId × Int))
    (offset : Int) (h : AllMeet 0 [] ops) (hne : piecesAfter 0 [] ops ≠ [])
    (hcache : CacheRight (piecesAfter 0 [] ops) cache) (h0 : 0 ≤ offset)
    (hend : offset ≤ (extentOf (piecesAfter 0 [] ops)).1) :
    ∃ s, empty.run ops = some s ∧ ∃ xs c ys, piecesAfter 0 [] ops = xs ++ c :: ys ∧
      let start := (extentOf xs).1
      start ≤ offset ∧ offset ≤ start + c.2.length ∧ s.root.offsetOfNode c.1 = start ∧
      (s.root.nodeAt limit cache offset).1 = some ⟨c.1, offset - start, start⟩ ∧
      CacheRight (piecesAfter 0 [] ops) (s.root.nodeAt limit cache offset).2 := by
  obtain ⟨s, n, hrun, hs⟩ := empty_holds.run h
  have hn := hs.cells.symm ▸ hs.unique
  rw [← hs.cells] at hcache hend ⊢
  refine ⟨s, hrun, ?_⟩
  rw [nodeAt]
  cases hget : s.root.cached cache offset with
  | some nodePos =>
    have hfits := find?_some hget
    obtain ⟨xs, p, ys, hcells, hstart⟩ := hcache _ (mem_reverse.1 (mem_of_find?_eq_some hget))
    obtain ⟨v, hv, hcell⟩ := get?_spec hn hcells
    obtain rfl : v.piece = p := congrArg Prod.snd hcell
    simp only [hv, Option.any_some, Bool.and_eq_true, decide_eq_true_eq, hstart] at hfits
    refine ⟨xs, _, ys, hcells, hfits.1, hfits.2, offsetOfNode_eq hs.sound.2 hn hcells, ?_, hcache⟩
    simp only [hstart]
  | none =>
    obtain ⟨xs, c, ys, hcells, hat, hspec⟩ := descend_spec hs.sound.2 (hs.root_ne_nil hne) 0 _ h0 hend
    rw [zero_add] at hat
    simp only [hat]
    refine ⟨xs, c, ys, hcells, hspec.1, hspec.2, offsetOfNode_eq hs.sound.2 hn hcells, rfl,
      fun e he => ?_⟩
    rcases mem_append.1 he with he | he
    · refine hcache e ?_
      split at he
      · exact mem_of_mem_tail he
      · exact he
    · rw [mem_singleton.1 he]
      exact ⟨xs, c.2, ys, hcells, rfl⟩

/-- `cd` behind `ab`, whose start is in the cache. -/
theorem nodeAt_finds_short : ∃ s, empty.run [.rbInsertRight none ⟨1, ⟨0, 0⟩, ⟨0, 2⟩, 0, 2⟩,
      .rbInsertRight (some 0) ⟨1, ⟨0, 2⟩, ⟨0, 4⟩, 0, 2⟩] = some s ∧
    (s.root.nodeAt 1 [(0, 0)] 3).1.isSome := by
  obtain ⟨s, hrun, xs, c, ys, -, -, -, -, hat, -⟩ := nodeAt_finds
    [.rbInsertRight none ⟨1, ⟨0, 0⟩, ⟨0, 2⟩, 0, 2⟩,
      .rbInsertRight (some 0) ⟨1, ⟨0, 2⟩, ⟨0, 4⟩, 0, 2⟩] 1 [(0, 0)] 3
    ⟨Or.inl rfl, Or.inr ⟨0, rfl, List.mem_singleton.mpr rfl⟩, trivial⟩ (by decide)
    (fun e he => by
      obtain rfl := mem_singleton.1 he
      exact ⟨[], _, _, rfl, rfl⟩) (by decide) (by decide)
  exact ⟨s, hrun, by rw [hat]; rfl⟩

end PieceTree

end CodeOss
