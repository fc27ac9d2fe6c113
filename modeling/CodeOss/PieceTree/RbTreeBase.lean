import CodeOss.Library.RbTreePath
import CodeOss.Library.RbTreeRel

/-! The tree of pieces.
A node is known by its `id`, as an object is by its reference; `none` stands for `SENTINEL`.
`sizeLeft` and `lfLeft` sum up the left subtree and are kept by hand through every change. -/

namespace CodeOss

structure BufferCursor where
  line : Int
  column : Int
deriving DecidableEq, Repr, Inhabited

structure Piece where
  bufferIndex : Int
  start : BufferCursor
  stop : BufferCursor
  lineFeedCnt : Int
  length : Int
deriving DecidableEq, Repr, Inhabited

abbrev NodeId := Nat

structure TreeNode where
  id : NodeId
  piece : Piece
  sizeLeft : Int
  lfLeft : Int
deriving DecidableEq, Repr, Inhabited

abbrev PieceNodes := RbTree TreeNode

abbrev PiecePath := List (RbFrame TreeNode)

namespace TreeNode

def addLeft (v : TreeNode) (delta lfDelta : Int) : TreeNode :=
  { v with sizeLeft := v.sizeLeft + delta, lfLeft := v.lfLeft + lfDelta }

end TreeNode

namespace PieceNodes

def calculateSize : PieceNodes → Int
  | .nil => 0
  | .node _ _ v r => v.sizeLeft + v.piece.length + calculateSize r

def calculateLF : PieceNodes → Int
  | .nil => 0
  | .node _ _ v r => v.lfLeft + v.piece.lineFeedCnt + calculateLF r

/-- What `leftRotate` and `rightRotate` do to the sums of the lower and the upper node. -/
def rotation : RbTree.Hooks TreeNode Unit where
  left w _ x _ y _ := (x, y.addLeft (x.sizeLeft + x.piece.length) (x.lfLeft + x.piece.lineFeedCnt), w)
  right w _ x _ y _ :=
    (x, y.addLeft (-(x.sizeLeft + x.piece.length)) (-(x.lfLeft + x.piece.lineFeedCnt)), w)

variable (ctx : PiecePath)

/-- The length or the line feed count of a node changed: its ancestors on the right hear of it. -/
def updateTreeMetadata (delta lineFeedCntDelta : Int) : PiecePath :=
  ctx.map fun
    | .left c v r => .left c (v.addLeft delta lineFeedCntDelta) r
    | .right c l v => .right c l v

/-- The sums above the subtree `x`. A left `SENTINEL` whose sibling is the `SENTINEL` too is
taken for a right child, so the parent is passed over. -/
def recomputeTreeMetadata : PiecePath → PieceNodes → PiecePath
  | [], _ => []
  | .right c l v :: ctx, x => .right c l v :: recomputeTreeMetadata ctx (.node c l v x)
  | .left c v r :: ctx, x =>
    if x = .nil ∧ r = .nil then .left c v r :: recomputeTreeMetadata ctx (.node c x v r)
    else
      let delta := calculateSize x - v.sizeLeft
      let lfDelta := calculateLF x - v.lfLeft
      .left c (v.addLeft delta lfDelta) r :: updateTreeMetadata ctx delta lfDelta

def fixInsert (x : PieceNodes) : PieceNodes :=
  (RbTree.insertFixup rotation () (recomputeTreeMetadata ctx x) x).1

/-- The sum of the parent of `x`, where `x` is its left child. -/
def repairParent : PiecePath → PieceNodes → PiecePath
  | [], _ => []
  | .left c v r :: ctx, x =>
    let delta := calculateSize x - v.sizeLeft
    let lfDelta := calculateLF x - v.lfLeft
    .left c (v.addLeft delta lfDelta) r :: updateTreeMetadata ctx delta lfDelta
  | .right c l v :: ctx, x =>
    -- Two `SENTINEL` children: `x` is the left one as well.
    if x = .nil ∧ l = .nil then
      .right c l (v.addLeft (-v.sizeLeft) (-v.lfLeft)) ::
        updateTreeMetadata ctx (-v.sizeLeft) (-v.lfLeft)
    else .right c l v :: ctx

def recomputeParent : PiecePath → PieceNodes → PiecePath
  | [], _ => []
  | f :: ctx, x => f :: recomputeTreeMetadata ctx (x.fill f)

/-- The last part of `rbDelete`, after `x` has taken the place of a node of color `yColor`. -/
def finishDelete (x : PieceNodes) (yColor : RbColor) : PieceNodes :=
  let ctx := recomputeParent (repairParent ctx x) x
  if yColor = .red then RbTree.plug ctx x else (RbTree.deleteFixup rotation () ctx x).1

/-- The path from `x`, after the next node `y` was cut out below `z` with path `inner`. When
`y` was the right child of `z`, the walk up already goes through `y` and ends at `z`. -/
def cutNext (inner : PiecePath) (c : RbColor) (l : PieceNodes) (z : TreeNode) (x : PieceNodes)
    (ctx : PiecePath) : PiecePath :=
  match inner with
  | [] => match recomputeTreeMetadata (.left c z x :: ctx) l with
      | .left c z _ :: outer => .right c l z :: outer
      | path => path
  | inner => recomputeTreeMetadata (inner ++ .right c l z :: ctx) x

/-- `y` takes the place of `z`, with its color and its sums. -/
def replaceBy (y : TreeNode) (inner : PiecePath) (x : PieceNodes) : PiecePath → PiecePath
  | .right c l z :: outer =>
    let y := { y with sizeLeft := z.sizeLeft, lfLeft := z.lfLeft }
    inner ++ .right c l y :: recomputeTreeMetadata outer (.node c l y (RbTree.plug inner x))
  | path => inner ++ path

/-- `rbDelete`, at the node `z` between `l` and `r`. -/
def rbDeleteAt (c : RbColor) (l : PieceNodes) (z : TreeNode) (r : PieceNodes) : PieceNodes :=
  match l, r with
  | .nil, x | x, .nil =>
    if ctx.isEmpty then x.setColor .black else finishDelete (recomputeTreeMetadata ctx x) x c
  | l, .node cr rl rv rr =>
    let (inner, yColor, y, x) := RbTree.leftest [] cr rl rv rr
    let path := cutNext inner c l z x ctx
    finishDelete (replaceBy y (path.take inner.length) x (path.drop inner.length)) x yColor

/-- `rbInsertRight(node, p)` below the node at the end of `ctx`. -/
def rbInsertRightAt (c : RbColor) (l : PieceNodes) (v : TreeNode) :
    PieceNodes → TreeNode → PieceNodes
  | .nil, z => fixInsert (.right c l v :: ctx) (.node .red .nil z .nil)
  | .node cr rl rv rr, z =>
    let (path, cn, next, nr) := RbTree.leftest (.right c l v :: ctx) cr rl rv rr
    fixInsert (.left cn next nr :: path) (.node .red .nil z .nil)

def rbInsertLeftAt (c : RbColor) (v : TreeNode) (r : PieceNodes) :
    PieceNodes → TreeNode → PieceNodes
  | .nil, z => fixInsert (.left c v r :: ctx) (.node .red .nil z .nil)
  | .node cl ll lv lr, z =>
    let (path, cp, pl, prev) := RbTree.righttest (.left c v r :: ctx) cl ll lv lr
    fixInsert (.right cp pl prev :: path) (.node .red .nil z .nil)

variable (t : PieceNodes)

def find (id : NodeId) : Option (PiecePath × RbColor × PieceNodes × TreeNode × PieceNodes) :=
  RbTree.focus (fun v => v.id = id) [] t

def rbDelete (id : NodeId) : PieceNodes :=
  match find t id with
  | some (ctx, c, l, v, r) => rbDeleteAt ctx c l v r
  | none => t

def rbInsertRight (id : NodeId) (z : TreeNode) : PieceNodes :=
  match find t id with
  | some (ctx, c, l, v, r) => rbInsertRightAt ctx c l v r z
  | none => t

def rbInsertLeft (id : NodeId) (z : TreeNode) : PieceNodes :=
  match find t id with
  | some (ctx, c, l, v, r) => rbInsertLeftAt ctx c v r l z
  | none => t

/-- `node.piece = piece` followed by `updateTreeMetadata`. -/
def setPiece (id : NodeId) (piece : Piece) (delta lfDelta : Int) : PieceNodes :=
  match find t id with
  | some (ctx, c, l, v, r) =>
    RbTree.plug (updateTreeMetadata ctx delta lfDelta) (.node c l { v with piece } r)
  | none => t

def next (id : NodeId) : Option TreeNode :=
  (find t id).bind fun (ctx, _, _, _, r) => RbTree.next ctx r

def prev (id : NodeId) : Option TreeNode :=
  (find t id).bind fun (ctx, _, l, _, _) => RbTree.prev ctx l

def get? (id : NodeId) : Option TreeNode :=
  (find t id).map fun (_, _, _, v, _) => v

/-- The nodes in order, without their sums. -/
def cells : List (NodeId × Piece) := t.toList.map fun v => (v.id, v.piece)

end PieceNodes

end CodeOss
