import CodeOss.UndoRedo.ResourceEditStack

/-! What restoring a snapshot keeps. The history of a stack is its past followed by
its future in redo order; both loops of `restoreSnapshot` walk it once and stop
trusting it at the first id the snapshot does not have. -/

namespace CodeOss.UndoRedo

open List

variable {α : Type}

namespace ResourceEditStack

/-- The past, then the future in the order redo would take it. -/
def history (stack : ResourceEditStack α) : List (StackElement α) :=
  stack.past ++ stack.future.reverse

end ResourceEditStack

def agreeing : List Nat → List Nat → Nat
  | a :: as, b :: bs => if a = b then agreeing as bs + 1 else 0
  | _, _ => 0

theorem agreeing_le (as bs : List Nat) : agreeing as bs ≤ as.length := by
  induction as generalizing bs with
  | nil => simp [agreeing]
  | cons a as ih =>
    cases bs with
    | nil => simp [agreeing]
    | cons b bs =>
      rw [agreeing]
      split
      · exact Nat.succ_le_succ (ih bs)
      · exact Nat.zero_le _

theorem take_isPrefix_iff (as bs : List Nat) (n : Nat) (hn : n ≤ as.length) :
    as.take n <+: bs ↔ n ≤ agreeing as bs := by
  induction as generalizing bs n with
  | nil => simp_all [agreeing]
  | cons a as ih =>
    cases n with
    | zero => simp
    | succ n =>
      have hn' : n ≤ as.length := Nat.le_of_succ_le_succ hn
      cases bs with
      | nil => simp [agreeing]
      | cons b bs =>
        rw [take_succ_cons, cons_prefix_cons, ih bs n hn', agreeing]
        by_cases hab : a = b
        · rw [if_pos hab]
          omega
        · rw [if_neg hab]
          omega

theorem agreeing_append (as bs cs : List Nat) :
    agreeing (as ++ bs) cs =
      if agreeing as cs = as.length then as.length + agreeing bs (cs.drop as.length)
      else agreeing as cs := by
  induction as generalizing cs with
  | nil => simp [agreeing]
  | cons a as ih =>
    cases cs with
    | nil => simp [agreeing]
    | cons c cs =>
      simp only [cons_append, agreeing, length_cons, drop_succ_cons]
      by_cases hac : a = c
      · simp only [hac, if_true, ih cs, Nat.add_right_cancel_iff]
        split <;> omega
      · simp [hac]

/-- `length` is the length of the longest prefix of `elements` whose ids the snapshot
lists first. -/
def LongestAgreeing (elements : List (StackElement α)) (ids : List Nat) (length : Nat) : Prop :=
  IsGreatest {n | n ≤ elements.length ∧ (elements.take n).map StackElement.id <+: ids} length

theorem longestAgreeing (elements : List (StackElement α)) (ids : List Nat) :
    LongestAgreeing elements ids (agreeing (elements.map StackElement.id) ids) := by
  have hle : ∀ n, n ≤ elements.length → ((elements.take n).map StackElement.id <+: ids ↔
      n ≤ agreeing (elements.map StackElement.id) ids) := by
    intro n hn
    rw [map_take, take_isPrefix_iff _ _ _ (by rwa [length_map])]
  have hbound : agreeing (elements.map StackElement.id) ids ≤ elements.length := by
    simpa using agreeing_le (elements.map StackElement.id) ids
  refine ⟨⟨hbound, (hle _ hbound).2 le_rfl⟩, ?_⟩
  rintro n ⟨hn, hprefix⟩
  exact (hle n hn).1 hprefix

namespace ResourceEditStack

variable (stack : ResourceEditStack α) (snapshot : ResourceEditStackSnapshot)

variable {loop : RestoreLoop}

theorem restoreStep_match (hOK : loop.isOK = true) {element : StackElement α}
    (hid : snapshot.elements[loop.snapshotIndex]? = some element.id) (i : Nat) :
    stack.restoreStep snapshot loop (element, i) =
      { loop with snapshotIndex := loop.snapshotIndex + 1 } := by
  obtain ⟨hlt, hget⟩ := List.getElem?_eq_some_iff.1 hid
  simp [restoreStep, hOK, hget, hlt, Nat.not_le.2 hlt]

theorem restoreStep_mismatch (hOK : loop.isOK = true) {element : StackElement α}
    (hid : snapshot.elements[loop.snapshotIndex]? ≠ some element.id) (i : Nat) :
    stack.restoreStep snapshot loop (element, i) =
      { isOK := false
        snapshotIndex := loop.snapshotIndex + 1
        cut := some i
        table := stack.markRemoved .ExternalRemoval loop.table element } := by
  simp [restoreStep, hOK, hid]

theorem restoreStep_stopped (hOK : loop.isOK = false) (entry : StackElement α × Nat) :
    stack.restoreStep snapshot loop entry =
      { isOK := false
        snapshotIndex := loop.snapshotIndex + 1
        cut := loop.cut
        table := stack.markRemoved .ExternalRemoval loop.table entry.1 } := by
  simp [restoreStep, hOK]

theorem restoreLoop_stopped (entries : List (StackElement α × Nat)) (hOK : loop.isOK = false) :
    entries.foldl (stack.restoreStep snapshot) loop =
      { isOK := false
        snapshotIndex := loop.snapshotIndex + entries.length
        cut := loop.cut
        table := (entries.map Prod.fst).foldl (stack.markRemoved .ExternalRemoval) loop.table } := by
  induction entries generalizing loop with
  | nil => simp [← hOK]
  | cons entry rest ih =>
    rw [foldl_cons, ih (by rw [restoreStep_stopped stack snapshot hOK]),
      restoreStep_stopped stack snapshot hOK]
    simp [Nat.add_assoc, Nat.add_comm 1]

/-- A loop entered without a mismatch so far: it cuts at the first id that differs. -/
theorem restoreLoop_eq (entries : List (StackElement α × Nat)) (hOK : loop.isOK = true)
    (hcut : loop.cut = none) :
    let agree := agreeing ((entries.map Prod.fst).map StackElement.id)
      (snapshot.elements.drop loop.snapshotIndex)
    entries.foldl (stack.restoreStep snapshot) loop =
      { isOK := decide (agree = entries.length)
        snapshotIndex := loop.snapshotIndex + entries.length
        cut := (entries[agree]?).map Prod.snd
        table := ((entries.map Prod.fst).drop agree).foldl
          (stack.markRemoved .ExternalRemoval) loop.table } := by
  induction entries generalizing loop with
  | nil => simp [agreeing, ← hOK, ← hcut]
  | cons entry rest ih =>
    obtain ⟨element, i⟩ := entry
    intro agree
    by_cases hid : snapshot.elements[loop.snapshotIndex]? = some element.id
    · have hdrop : snapshot.elements.drop loop.snapshotIndex =
          element.id :: snapshot.elements.drop (loop.snapshotIndex + 1) := by
        obtain ⟨hlt, hget⟩ := List.getElem?_eq_some_iff.1 hid
        rw [drop_eq_getElem_cons hlt, hget]
      have hagree : agree = agreeing ((rest.map Prod.fst).map StackElement.id)
          (snapshot.elements.drop (loop.snapshotIndex + 1)) + 1 := by
        simp only [agree, hdrop, map_cons, agreeing, if_true]
      have hrest := @ih { loop with snapshotIndex := loop.snapshotIndex + 1 } hOK hcut
      rw [foldl_cons, restoreStep_match stack snapshot hOK hid, hrest, hagree]
      simp [Nat.add_assoc, Nat.add_comm 1]
    · have hagree : agree = 0 := by
        simp only [agree, map_cons]
        cases hdrop : snapshot.elements.drop loop.snapshotIndex with
        | nil => rfl
        | cons a as =>
          have hget : snapshot.elements[loop.snapshotIndex]? = some a := by
            rw [← head?_drop, hdrop, head?_cons]
          have hne : element.id ≠ a := fun h => hid (h ▸ hget)
          rw [agreeing, if_neg hne]
      rw [foldl_cons, restoreStep_mismatch stack snapshot hOK hid,
        restoreLoop_stopped stack snapshot rest rfl, hagree]
      simp [Nat.add_assoc, Nat.add_comm 1]

/-- How much of the history the snapshot agrees with. -/
def agreement : Nat := agreeing (stack.history.map StackElement.id) snapshot.elements

/-- A mismatch in the past leaves the future alone: its loop finds `isOK` already
false and never sets `removeFutureBefore`. -/
theorem restoreSnapshot_mismatch_past (table : RemovedTable)
    (h : stack.agreement snapshot < stack.past.length) :
    stack.restoreSnapshot table snapshot =
      ({ stack with
          past := stack.past.take (stack.agreement snapshot), versionId := stack.versionId + 1 },
        (stack.history.drop (stack.agreement snapshot)).foldl
          (stack.markRemoved .ExternalRemoval) table) := by
  have hpast : agreeing (stack.past.map StackElement.id) snapshot.elements =
      stack.agreement snapshot := by
    rw [agreement, history, map_append, agreeing_append] at h ⊢
    split at h
    · simp only [length_map] at h
      omega
    · next hne => rw [if_neg hne]
  have hne : ¬ stack.agreement snapshot = stack.past.length := by omega
  simp only [restoreSnapshot, restoreLoop_eq, zipIdx_map_fst, drop_zero, hpast, length_zipIdx, hne,
    decide_false, restoreLoop_stopped, map_reverse, getElem?_zipIdx, getElem?_eq_getElem h]
  simp [history, drop_append_of_le_length h.le]

theorem restoreSnapshot_match_past (table : RemovedTable)
    (h : stack.past.length ≤ stack.agreement snapshot) :
    stack.restoreSnapshot table snapshot =
      ({ stack with
          future := stack.future.drop
            (stack.history.length - stack.agreement snapshot)
          versionId := stack.versionId + 1 },
        (stack.history.drop (stack.agreement snapshot)).foldl
          (stack.markRemoved .ExternalRemoval) table) := by
  have hpast : agreeing (stack.past.map StackElement.id) snapshot.elements = stack.past.length := by
    rw [agreement, history, map_append, agreeing_append] at h
    split at h
    · next hall => simpa using hall
    · have hle := agreeing_le (stack.past.map StackElement.id) snapshot.elements
      simp only [length_map] at hle
      omega
  have hfuture : stack.agreement snapshot = stack.past.length +
      agreeing (stack.future.reverse.map StackElement.id)
        (snapshot.elements.drop stack.past.length) := by
    rw [agreement, history, map_append, agreeing_append, length_map, if_pos hpast]
  generalize hcut : agreeing (stack.future.reverse.map StackElement.id)
    (snapshot.elements.drop stack.past.length) = cut at hfuture
  have hle : cut ≤ stack.future.length := by
    rw [← hcut]
    simpa only [length_map, length_reverse] using agreeing_le (stack.future.reverse.map
      StackElement.id) (snapshot.elements.drop stack.past.length)
  have hdrop : stack.history.drop (stack.agreement snapshot) = stack.future.reverse.drop cut := by
    rw [hfuture, history, drop_append]
    simp
  have hlength : stack.history.length - stack.agreement snapshot = stack.future.length - cut := by
    simp only [history, length_append, length_reverse]
    omega
  have hentries : stack.future.zipIdx.reverse.map Prod.fst = stack.future.reverse := by
    rw [map_reverse, zipIdx_map_fst]
  have hpastcut : stack.past.zipIdx[stack.past.length]? = none := by simp
  simp only [restoreSnapshot, restoreLoop_eq, zipIdx_map_fst, drop_zero, hpast,
    length_zipIdx, decide_true, hentries, Nat.zero_add, hcut, hdrop, hlength, hpastcut,
    Option.map_none, drop_length, foldl_nil]
  rcases Nat.lt_or_eq_of_le hle with hlt | heq
  · have hget : stack.future.zipIdx.reverse[cut]? =
        some (stack.future[stack.future.length - 1 - cut], stack.future.length - 1 - cut) := by
      rw [getElem?_reverse (by simpa using hlt), length_zipIdx, getElem?_zipIdx,
        getElem?_eq_getElem (by omega)]
      simp
    have hsucc : stack.future.length - 1 - cut + 1 = stack.future.length - cut := by omega
    simp only [hget, Option.map_some, hsucc]
  · subst heq
    have hget : stack.future.zipIdx.reverse[stack.future.length]? = none := by simp
    simp only [hget, Option.map_none, Nat.sub_self, drop_zero]

/-- Marking a list of elements touches this resource on its workspace elements only. -/
theorem isRemoved_markRemoved (reason : RemovedResourceReason)
    (elements : List (StackElement α)) (table : RemovedTable) (id : Nat) (str : String) : isRemoved
    (elements.foldl (stack.markRemoved reason) table) id str = true ↔ (str = stack.strResource ∧
    ∃ e ∈ elements, e.type = .Workspace ∧ e.id = id) ∨ isRemoved table id str = true := by
  induction elements generalizing table with
  | nil => simp
  | cons element rest ih =>
    rw [foldl_cons, ih, markRemoved]
    split
    · next htype =>
        rw [isRemoved_removeResource, Bool.or_eq_true, decide_eq_true_iff]
        simp only [mem_cons, exists_eq_or_imp, htype, true_and, eq_comm (a := id)]
        by_cases hstr : str = stack.strResource
        · simp only [hstr, true_and, and_true, or_left_comm, or_assoc]
        · simp only [hstr, false_and, and_false, false_or]
    · next htype => simp [htype]

end ResourceEditStack

end CodeOss.UndoRedo
