import CodeOss.Base.JsMap

/-! The undo stack of one resource. The elements are shared between the stacks of
several resources; what a stack writes on a workspace element lives in a table
by element id. -/

namespace CodeOss.UndoRedo

inductive UndoRedoElementType
  | Resource
  | Workspace
  deriving DecidableEq

inductive RemovedResourceReason
  | ExternalRemoval
  | NoParallelUniverses
  deriving DecidableEq

structure ResourceReasonPair where
  resourceLabel : String
  reason : RemovedResourceReason
  deriving DecidableEq

abbrev RemovedResources := JsMap String ResourceReasonPair

structure StackElement (α : Type) where
  id : Nat
  type : UndoRedoElementType
  actual : α
  deriving DecidableEq

/-- The `removedResources` field of every workspace element, by its id. -/
abbrev RemovedTable := Nat → Option RemovedResources

variable {α : Type}

variable (table : RemovedTable)

/-- `RemovedResources.has` on a field that may be `null`. -/
def isRemoved (id : Nat) (strResource : String) : Bool :=
  match table id with
  | none => false
  | some removed => removed.has strResource

def removeResource (id : Nat) (resourceLabel strResource : String)
    (reason : RemovedResourceReason) : RemovedTable :=
  let removed := (table id).getD JsMap.empty
  let removed := if removed.has strResource then removed
    else removed.set strResource ⟨resourceLabel, reason⟩
  Function.update table id (some removed)

theorem isRemoved_removeResource (id : Nat) (label str : String) (reason : RemovedResourceReason)
    (k : Nat) (s : String) : isRemoved (removeResource table id label str reason) k s =
    (decide (k = id ∧ s = str) || isRemoved table k s) := by
  by_cases hk : k = id
  · subst hk
    simp only [isRemoved, removeResource, Function.update_self]
    cases hremoved : table k with
    | none => simp [JsMap.has_set]
    | some removed =>
      by_cases hhas : removed.has str = true
      · simp only [Option.getD_some, hhas, if_true, true_and]
        by_cases hs : s = str <;> simp [hs, hhas]
      · simp [hhas, JsMap.has_set]
  · simp [isRemoved, removeResource, hk]

structure ResourceEditStack (α : Type) where
  resourceLabel : String
  strResource : String
  past : List (StackElement α)
  future : List (StackElement α)
  versionId : Nat
  deriving DecidableEq

/-- The id list of `ResourceEditStackSnapshot`, oldest element first. -/
structure ResourceEditStackSnapshot where
  elements : List Nat
  deriving DecidableEq

namespace ResourceEditStack

def new (resourceLabel strResource : String) : ResourceEditStack α :=
  { resourceLabel, strResource, past := [], future := [], versionId := 1 }

variable (stack : ResourceEditStack α)

/-- The loop body shared by the methods that give up elements: a workspace
element is told that it lost this resource. -/
def markRemoved (reason : RemovedResourceReason)
    (table : RemovedTable) (element : StackElement α) : RemovedTable :=
  if element.type = .Workspace then
    removeResource table element.id stack.resourceLabel stack.strResource reason
  else table

def pushElement (table : RemovedTable) (element : StackElement α) :
    ResourceEditStack α × RemovedTable :=
  ({ stack with
      past := stack.past ++ [element], future := [], versionId := stack.versionId + 1 },
    stack.future.foldl (stack.markRemoved .NoParallelUniverses) table)

def createSnapshot : ResourceEditStackSnapshot :=
  ⟨stack.past.map StackElement.id ++ stack.future.reverse.map StackElement.id⟩

/-- The locals of `restoreSnapshot`; `cut` stands for `removePastAfter` in the
first loop and for `removeFutureBefore` in the second, with `none` for `-1`. -/
structure RestoreLoop where
  isOK : Bool
  snapshotIndex : Nat
  cut : Option Nat
  table : RemovedTable

/-- The body of both loops, at index `i`. -/
def restoreStep (snapshot : ResourceEditStackSnapshot)
    (loop : RestoreLoop) (entry : StackElement α × Nat) : RestoreLoop :=
  let (element, i) := entry
  let mismatch := snapshot.elements.length ≤ loop.snapshotIndex ∨
    snapshot.elements[loop.snapshotIndex]? ≠ some element.id
  let stops := loop.isOK = true ∧ mismatch
  let isOK := loop.isOK && !decide stops
  { isOK
    snapshotIndex := loop.snapshotIndex + 1
    cut := if stops then some i else loop.cut
    table := if isOK then loop.table else stack.markRemoved .ExternalRemoval loop.table element }

def restoreSnapshot (table : RemovedTable)
    (snapshot : ResourceEditStackSnapshot) : ResourceEditStack α × RemovedTable :=
  let pastLoop := stack.past.zipIdx.foldl (stack.restoreStep snapshot)
    { isOK := true, snapshotIndex := 0, cut := none, table }
  let futureLoop := stack.future.zipIdx.reverse.foldl (stack.restoreStep snapshot)
    { pastLoop with cut := none }
  let past := match pastLoop.cut with
    | none => stack.past
    | some removePastAfter => stack.past.take removePastAfter
  let future := match futureLoop.cut with
    | none => stack.future
    | some removeFutureBefore => stack.future.drop (removeFutureBefore + 1)
  ({ stack with past, future, versionId := stack.versionId + 1 }, futureLoop.table)

def getClosestPastElement : Option (StackElement α) :=
  stack.past.getLast?

def getClosestFutureElement : Option (StackElement α) :=
  stack.future.getLast?

def moveBackward (element : StackElement α) : ResourceEditStack α :=
  { stack with
    past := stack.past.dropLast
    future := stack.future ++ [element]
    versionId := stack.versionId + 1 }

def moveForward (element : StackElement α) : ResourceEditStack α :=
  { stack with
    future := stack.future.dropLast
    past := stack.past ++ [element]
    versionId := stack.versionId + 1 }

def flushAllElements : ResourceEditStack α :=
  { stack with past := [], future := [], versionId := stack.versionId + 1 }

/-- The body of `splitPastWorkspaceElement` and `splitFutureWorkspaceElement`: the
last occurrence of `toRemove` is replaced by its part for this resource, or
deleted where it has none. -/
def splitLast (toRemove : Nat) (individual : Option (StackElement α)) :
    List (StackElement α) → List (StackElement α)
  | [] => []
  | element :: rest =>
    if toRemove ∈ rest.map StackElement.id then element :: splitLast toRemove individual rest
    else if element.id = toRemove then individual.toList ++ rest
    else element :: rest

def splitPastWorkspaceElement (toRemove : Nat)
    (individual : Option (StackElement α)) : ResourceEditStack α :=
  { stack with
    past := splitLast toRemove individual stack.past
    versionId := stack.versionId + 1 }

def splitFutureWorkspaceElement (toRemove : Nat)
    (individual : Option (StackElement α)) : ResourceEditStack α :=
  { stack with
    future := splitLast toRemove individual stack.future
    versionId := stack.versionId + 1 }

end ResourceEditStack

end CodeOss.UndoRedo
