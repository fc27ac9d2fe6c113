import CodeOss.UndoRedo.RestoreSnapshot

/-! Snapshots over whole runs of a stack: elements keep distinct ids whatever is
pushed, undone, redone, split or flushed, and a snapshot taken on the way is
restored to the common history exactly when the cut does not fall into the past
of a stack that still has a future. -/

namespace CodeOss.UndoRedo

open ResourceEditStack List

variable {α : Type}

/-- A stack, the marks on the elements it shares, and the global `stackElementCounter`. -/
structure World (α : Type) where
  stack : ResourceEditStack α
  table : RemovedTable
  stackElementCounter : Nat

/-- What happens to one stack. `elsewhere` is another stack giving up a shared element,
`created` an element made for other stacks only. -/
inductive Action (α : Type)
  | push (type : UndoRedoElementType) (actual : α)
  | undo
  | redo
  | splitPast (toRemove : Nat) (individual : Option α)
  | splitFuture (toRemove : Nat) (individual : Option α)
  | flush
  | restore (snapshot : ResourceEditStackSnapshot)
  | elsewhere (id : Nat) (resourceLabel strResource : String) (reason : RemovedResourceReason)
  | created

namespace World

def new (resourceLabel strResource : String) : World α :=
  { stack := .new resourceLabel strResource, table := fun _ => none, stackElementCounter := 0 }

/-- The next element, made by `new ResourceStackElement` or `new WorkspaceStackElement`. -/
def create (world : World α) (type : UndoRedoElementType) (actual : α) : StackElement α :=
  { id := world.stackElementCounter + 1, type, actual }

def step (world : World α) : Action α → World α
  | .push type actual =>
    let (stack, table) := world.stack.pushElement world.table (world.create type actual)
    { stack, table, stackElementCounter := world.stackElementCounter + 1 }
  | .undo =>
    match world.stack.getClosestPastElement with
    | none => world
    | some element => { world with stack := world.stack.moveBackward element }
  | .redo =>
    match world.stack.getClosestFutureElement with
    | none => world
    | some element => { world with stack := world.stack.moveForward element }
  | .splitPast toRemove individual =>
    { world with
      stack := world.stack.splitPastWorkspaceElement toRemove
        (individual.map (world.create .Resource))
      stackElementCounter := world.stackElementCounter + 1 }
  | .splitFuture toRemove individual =>
    { world with
      stack := world.stack.splitFutureWorkspaceElement toRemove
        (individual.map (world.create .Resource))
      stackElementCounter := world.stackElementCounter + 1 }
  | .flush => { world with stack := world.stack.flushAllElements }
  | .restore snapshot =>
    let (stack, table) := world.stack.restoreSnapshot world.table snapshot
    { world with stack, table }
  | .elsewhere id resourceLabel strResource reason =>
    { world with table := removeResource world.table id resourceLabel strResource reason }
  | .created => { world with stackElementCounter := world.stackElementCounter + 1 }

def run (world : World α) (actions : List (Action α)) : World α := actions.foldl step world

/-- No two elements of the stack share an id, and none is newer than the counter. -/
structure Distinct (world : World α) : Prop where
  nodup : (world.stack.history.map StackElement.id).Nodup
  old : ∀ element ∈ world.stack.history, element.id ≤ world.stackElementCounter

theorem Distinct.sublist {world world' : World α} (h : world.Distinct)
    (hsub : world'.stack.history.Sublist world.stack.history)
    (hcounter : world.stackElementCounter ≤ world'.stackElementCounter) : world'.Distinct :=
  ⟨h.nodup.sublist (hsub.map _), fun element he => (h.old element (hsub.subset he)).trans hcounter⟩

theorem Distinct.replace
    {world world' : World α} (h : world.Distinct) (before after : List (StackElement α))
    (element : StackElement α) {individual : Option (StackElement α)}
    (hbefore : world.stack.history = before ++ element :: after)
    (hafter : world'.stack.history = before ++ (individual.toList ++ after))
    (hid : ∀ e ∈ individual, e.id = world.stackElementCounter + 1)
    (hcounter : world'.stackElementCounter = world.stackElementCounter + 1) : world'.Distinct := by
  cases individual with
  | none =>
    refine h.sublist ?_ (by omega)
    rw [hbefore, hafter]
    exact (List.Sublist.refl before).append (sublist_cons_self element after)
  | some fresh =>
    have hfresh : fresh.id = world.stackElementCounter + 1 := hid fresh rfl
    have hsub : (before ++ after).Sublist world.stack.history := by
      rw [hbefore]
      exact (List.Sublist.refl before).append (sublist_cons_self element after)
    have hperm : world'.stack.history.Perm (fresh :: (before ++ after)) := by
      rw [hafter]
      exact perm_middle
    constructor
    · rw [(hperm.map StackElement.id).nodup_iff, map_cons, nodup_cons]
      refine ⟨?_, h.nodup.sublist (hsub.map _)⟩
      intro hmem
      obtain ⟨old, hold, heq⟩ := mem_map.1 hmem
      have hle := h.old old (hsub.subset hold)
      omega
    · intro e he
      rcases mem_cons.1 (hperm.subset he) with rfl | hold
      · omega
      · exact (h.old e (hsub.subset hold)).trans (by omega)

end World

theorem ResourceEditStack.splitLast_cases (toRemove : Nat) (individual : Option (StackElement α))
    (elements : List (StackElement α)) : splitLast toRemove individual elements =
    elements ∨ ∃ before element after, elements = before ++ element :: after ∧
    splitLast toRemove individual elements = before ++ (individual.toList ++ after) := by
  induction elements with
  | nil => exact .inl rfl
  | cons head rest ih =>
    rw [splitLast]
    split
    · rcases ih with hsame | ⟨before, element, after, hrest, hsplit⟩
      · exact .inl (by rw [hsame])
      · exact .inr ⟨head :: before, element, after, by rw [hrest]; rfl, by rw [hsplit]; rfl⟩
    · split
      · exact .inr ⟨[], head, rest, rfl, rfl⟩
      · exact .inl rfl

theorem ResourceEditStack.restoreSnapshot_sublist (stack : ResourceEditStack α)
    (table : RemovedTable) (snapshot : ResourceEditStackSnapshot) :
    (stack.restoreSnapshot table snapshot).1.history.Sublist stack.history := by
  rcases Nat.lt_or_ge (stack.agreement snapshot) stack.past.length with hlt | hge
  · rw [restoreSnapshot_mismatch_past stack snapshot table hlt]
    exact (take_sublist _ _).append (List.Sublist.refl _)
  · rw [restoreSnapshot_match_past stack snapshot table hge]
    exact (List.Sublist.refl _).append (drop_sublist _ _).reverse

namespace World

theorem create_id (world : World α) (type : UndoRedoElementType) (individual : Option α) :
    ∀ e ∈ individual.map (world.create type), e.id = world.stackElementCounter + 1 := by
  intro e he
  obtain ⟨actual, -, rfl⟩ := Option.mem_map.1 he
  rfl

theorem step_distinct {world : World α} (h : world.Distinct) (action : Action α) :
    (world.step action).Distinct := by
  cases action with
  | push type actual =>
    constructor
    · have hpast : (world.stack.past.map StackElement.id).Nodup :=
        h.nodup.sublist ((sublist_append_left _ _).map _)
      simp only [step, pushElement, ResourceEditStack.history,
        reverse_nil, append_nil, map_append, map_cons, map_nil]
      refine nodup_append.2 ⟨hpast, nodup_singleton _, ?_⟩
      intro a ha b hb hab
      obtain ⟨element, he, rfl⟩ := mem_map.1 ha
      have hle := h.old element (mem_append_left _ he)
      rw [mem_singleton] at hb
      subst hb
      simp only [create] at hab
      omega
    · intro element he
      simp only [step, pushElement, ResourceEditStack.history,
        reverse_nil, append_nil, List.mem_append, mem_singleton] at he ⊢
      rcases he with hold | rfl
      · exact (h.old element (mem_append_left _ hold)).trans (Nat.le_succ _)
      · exact le_rfl
  | undo =>
    rw [step]
    split
    · exact h
    · next element hlast =>
        have hpast : world.stack.past = world.stack.past.dropLast ++ [element] :=
          (dropLast_append_getLast? element hlast).symm
        have hhistory : (world.stack.moveBackward element).history = world.stack.history := by
          simp only [moveBackward, ResourceEditStack.history, reverse_append, reverse_singleton]
          rw [← append_assoc, ← hpast]
        exact h.sublist (hhistory ▸ List.Sublist.refl _) le_rfl
  | redo =>
    rw [step]
    split
    · exact h
    · next element hlast =>
        have hfuture : world.stack.future = world.stack.future.dropLast ++ [element] :=
          (dropLast_append_getLast? element hlast).symm
        have hhistory : (world.stack.moveForward element).history = world.stack.history := by
          simp only [moveForward, ResourceEditStack.history]
          conv_rhs => rw [hfuture]
          simp
        exact h.sublist (hhistory ▸ List.Sublist.refl _) le_rfl
  | splitPast toRemove individual =>
    rcases splitLast_cases toRemove (individual.map (world.create .Resource))
      world.stack.past with hsame | ⟨before, element, after, hpast, hsplit⟩
    · refine h.sublist ?_ (Nat.le_succ _)
      simp only [step, splitPastWorkspaceElement, ResourceEditStack.history, hsame]
      exact List.Sublist.refl _
    · refine h.replace before (after ++ world.stack.future.reverse) element
        (by simp [ResourceEditStack.history, hpast]) ?_ (create_id world .Resource individual) rfl
      simp [step, splitPastWorkspaceElement, ResourceEditStack.history, hsplit]
  | splitFuture toRemove individual =>
    rcases splitLast_cases toRemove (individual.map (world.create .Resource))
      world.stack.future with hsame | ⟨before, element, after, hfuture, hsplit⟩
    · refine h.sublist ?_ (Nat.le_succ _)
      simp only [step, splitFutureWorkspaceElement, ResourceEditStack.history, hsame]
      exact List.Sublist.refl _
    · refine h.replace (world.stack.past ++ after.reverse) before.reverse element
        (by simp [ResourceEditStack.history, hfuture]) ?_ (create_id world .Resource individual)
        rfl
      simp only [step, splitFutureWorkspaceElement, ResourceEditStack.history, hsplit]
      cases individual <;> simp
  | flush => exact h.sublist (nil_sublist _) le_rfl
  | restore snapshot =>
    exact h.sublist (world.stack.restoreSnapshot_sublist world.table snapshot) le_rfl
  | elsewhere id resourceLabel strResource reason => exact h.sublist (List.Sublist.refl _) le_rfl
  | created => exact h.sublist (List.Sublist.refl _) (Nat.le_succ _)

theorem run_distinct {world : World α} (h : world.Distinct) (actions : List (Action α)) :
    (world.run actions).Distinct := by
  induction actions generalizing world with
  | nil => exact h
  | cons action rest ih => exact ih (step_distinct h action)

theorem new_distinct (resourceLabel strResource : String) :
    (new resourceLabel strResource : World α).Distinct :=
  ⟨nodup_nil, by simp [new, ResourceEditStack.new, ResourceEditStack.history]⟩

end World

/-- The snapshot keeps the longest agreeing prefix of the history, each element on
its side, and marks this resource as removed on the workspace elements it drops
and on no other. -/
def KeepsCommonHistory (stack : ResourceEditStack α) (table : RemovedTable)
    (snapshot : ResourceEditStackSnapshot) (restored : ResourceEditStack α × RemovedTable) : Prop :=
  ∃ length, LongestAgreeing stack.history snapshot.elements length ∧
    restored.1.past = stack.past.take length ∧
    restored.1.future.reverse = stack.future.reverse.take (length - stack.past.length) ∧
    ∀ id str, isRemoved restored.2 id str = true ↔
      (str = stack.strResource ∧ ∃ element ∈ stack.history, element.type = .Workspace ∧
        element.id = id ∧ element ∉ restored.1.history) ∨ isRemoved table id str = true

namespace ResourceEditStack

variable {snapshot : ResourceEditStackSnapshot} {stack : ResourceEditStack α}

theorem longestAgreeing_unique
    {length : Nat} (h : LongestAgreeing stack.history snapshot.elements length) :
    length = stack.agreement snapshot :=
  h.unique (longestAgreeing stack.history snapshot.elements)

theorem past_prefix_iff (stack : ResourceEditStack α) (snapshot : ResourceEditStackSnapshot) :
    stack.past.map StackElement.id <+: snapshot.elements ↔
      stack.past.length ≤ stack.agreement snapshot := by
  have h := take_isPrefix_iff (stack.history.map StackElement.id) snapshot.elements
    stack.past.length (by simp [history])
  rw [agreement, ← h, history, map_append, take_left' (by simp)]

theorem mem_drop_iff {elements : List (StackElement α)}
    (hnodup : (elements.map StackElement.id).Nodup) (length : Nat) (element : StackElement α) :
    element ∈ elements ∧ element ∉ elements.take length ↔ element ∈ elements.drop length := by
  have hparts : (elements.take length ++ elements.drop length).Nodup := by
    rw [take_append_drop]
    exact hnodup.of_map _
  constructor
  · rintro ⟨hmem, hnot⟩
    rw [← take_append_drop length elements, List.mem_append] at hmem
    exact hmem.resolve_left hnot
  · intro hmem
    exact ⟨mem_of_mem_drop hmem, fun htake => hparts.disjoint htake hmem⟩

theorem keepsCommonHistory_of_take {table : RemovedTable}
    {restored : ResourceEditStack α × RemovedTable}
    (hnodup : (stack.history.map StackElement.id).Nodup)
    (hpast : restored.1.past = stack.past.take (stack.agreement snapshot))
    (hfuture : restored.1.future.reverse =
    stack.future.reverse.take (stack.agreement snapshot - stack.past.length))
    (htable : restored.2 = (stack.history.drop (stack.agreement snapshot)).foldl (stack.markRemoved
    .ExternalRemoval) table) : KeepsCommonHistory stack table snapshot restored := by
  refine ⟨_, longestAgreeing _ _, hpast, hfuture, fun id str => ?_⟩
  have hhistory : restored.1.history = stack.history.take (stack.agreement snapshot) := by
    rw [history, hpast, hfuture, history, take_append]
  rw [htable, isRemoved_markRemoved, hhistory]
  have hdropped : (∃ e ∈ stack.history, e.type = .Workspace ∧ e.id = id ∧
        e ∉ stack.history.take (stack.agreement snapshot)) ↔
      ∃ e ∈ stack.history.drop (stack.agreement snapshot), e.type = .Workspace ∧ e.id = id := by
    constructor
    · rintro ⟨e, he, htype, hid, hnot⟩
      exact ⟨e, (mem_drop_iff hnodup _ e).1 ⟨he, hnot⟩, htype, hid⟩
    · rintro ⟨e, he, htype, hid⟩
      obtain ⟨hmem, hnot⟩ := (mem_drop_iff hnodup _ e).2 he
      exact ⟨e, hmem, htype, hid, hnot⟩
  rw [hdropped]

/-- On a stack without repeated ids, restoring keeps the common history exactly when
the future is empty or the snapshot starts with the whole past. -/
theorem keepsCommonHistory_iff (stack : ResourceEditStack α) (table : RemovedTable)
    (snapshot : ResourceEditStackSnapshot) (hnodup : (stack.history.map StackElement.id).Nodup) :
    KeepsCommonHistory stack table snapshot (stack.restoreSnapshot table snapshot) ↔
      stack.future = [] ∨ stack.past.map StackElement.id <+: snapshot.elements := by
  rw [past_prefix_iff]
  rcases Nat.lt_or_ge (stack.agreement snapshot) stack.past.length with hlt | hge
  · have hsub : stack.agreement snapshot - stack.past.length = 0 := by omega
    rw [restoreSnapshot_mismatch_past stack snapshot table hlt]
    constructor
    · rintro ⟨length, hlongest, -, hfuture, -⟩
      rw [longestAgreeing_unique hlongest, hsub, take_zero] at hfuture
      exact .inl (reverse_eq_nil_iff.1 hfuture)
    · rintro (hempty | hge)
      · exact keepsCommonHistory_of_take hnodup rfl (by simp [hempty]) rfl
      · omega
  · have hle : stack.agreement snapshot ≤ stack.history.length := by
      simpa [agreement] using agreeing_le (stack.history.map StackElement.id) snapshot.elements
    have hlength : stack.history.length = stack.past.length + stack.future.length := by
      simp [history]
    refine iff_of_true ?_ (.inr hge)
    rw [restoreSnapshot_match_past stack snapshot table hge]
    refine keepsCommonHistory_of_take hnodup (take_of_length_le hge).symm ?_ rfl
    rw [reverse_drop, hlength]
    congr 1
    omega

end ResourceEditStack

namespace World

/-- A snapshot taken anywhere in a run, restored after any further steps. -/
theorem restoreSnapshot_keeps_iff (resourceLabel strResource : String)
    (before since : List (Action α)) :
    let taken := (new resourceLabel strResource : World α).run before
    let snapshot := taken.stack.createSnapshot
    let world := taken.run since
    KeepsCommonHistory world.stack world.table snapshot
        (world.stack.restoreSnapshot world.table snapshot) ↔
      world.stack.future = [] ∨ world.stack.past.map StackElement.id <+: snapshot.elements :=
  ResourceEditStack.keepsCommonHistory_iff _ _ _
    (run_distinct (run_distinct (new_distinct resourceLabel strResource) before) since).nodup

/-- One element, a snapshot, two more elements and an undo: the third element stays
redoable behind a past that no longer holds the second. -/
theorem restoreSnapshot_keeps_stale_future :
    let taken := (new "a" "a" : World Unit).run [.push .Resource ()]
    let snapshot := taken.stack.createSnapshot
    let world := taken.run [.push .Resource (), .push .Workspace (), .undo]
    ¬ KeepsCommonHistory world.stack world.table snapshot
        (world.stack.restoreSnapshot world.table snapshot) := by
  intro taken snapshot world hkeeps
  have hnodup := (run_distinct (run_distinct (new_distinct "a" "a") [.push .Resource ()])
    [.push .Resource (), .push .Workspace (), .undo]).nodup
  rcases (ResourceEditStack.keepsCommonHistory_iff _ _ _ hnodup).1 hkeeps with hempty | hprefix
  · exact absurd hempty (by decide)
  · exact absurd hprefix (by decide)

end World

end CodeOss.UndoRedo
