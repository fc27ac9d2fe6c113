import CodeOss.EditorGroup.GroupOperations

/-! Which runs of operations keep a group consistent. Opening a new editor does not, if it replaces
a preview that is active and to be selected, or that is the first editor behind the sticky ones
while the new one is put among these. -/

namespace CodeOss.EditorGroup

variable {E : Type}

inductive Operation (E : Type) where
  | openEditor (candidate : E) (options : EditorOpenOptions E)
  | closeEditor (candidate : E)
  | moveEditor (candidate : E) (toIndex : Int)
  | setActive (candidate : Option E)
  | setSelection (activeCandidate : E) (inactiveCandidates : List E)
  | pin (candidate : E)
  | unpin (candidate : E)
  | stick (candidate : E)
  | unstick (candidate : E)
  | setTransient (candidate : E) (transient : Bool)

/-- The editor that is opened, closed, moved, stuck or unstuck. -/
def Operation.subject : Operation E → List E
  | .openEditor candidate _ => [candidate]
  | .closeEditor candidate => [candidate]
  | .moveEditor candidate _ => [candidate]
  | .stick candidate => [candidate]
  | .unstick candidate => [candidate]
  | _ => []

namespace EditorGroupModel

section Steps

variable [DecidableEq E]

def apply (m : EditorGroupModel E) (settings : Settings) : Operation E → EditorGroupModel E
  | .openEditor candidate options => m.openEditor settings options candidate
  | .closeEditor candidate => m.closeEditor settings candidate
  | .moveEditor candidate toIndex => m.moveEditor candidate toIndex
  | .setActive candidate => m.setActive candidate
  | .setSelection activeCandidate inactiveCandidates =>
    m.setSelection (some activeCandidate) inactiveCandidates
  | .pin candidate => m.pin candidate
  | .unpin candidate => m.unpin settings candidate
  | .stick candidate => m.stick candidate
  | .unstick candidate => m.unstick candidate
  | .setTransient candidate transient => m.setTransient candidate transient

/-- An index is within the group, and so is the inactive selection. -/
def Allowed (m : EditorGroupModel E) : Operation E → Prop
  | .openEditor _ options =>
    (∀ index ∈ options.index, index ≤ m.editors.length) ∧
      ∀ e ∈ options.inactiveSelection, e ∈ m.editors
  | _ => True

/-- A preview that gives way to a new editor is not to be selected if it is active, and it is not
the first one that is not sticky if the new editor becomes sticky. -/
def OpensWell (m : EditorGroupModel E) : Operation E → Prop
  | .openEditor candidate options =>
    candidate ∉ m.editors → makePinned options = false → ∀ preview ∈ m.preview,
      (m.active = some preview → preview ∉ options.inactiveSelection) ∧
        (m.makeSticky options = true → indexOf (some preview) m.editors ≠ m.sticky + 1)
  | _ => True

/-- Groups after runs whose steps meet a condition, the settings being any at each step. -/
inductive Reachable (condition : EditorGroupModel E → Operation E → Prop) :
    EditorGroupModel E → Prop
  | empty : Reachable condition EditorGroupModel.empty
  | step {m : EditorGroupModel E} (settings : Settings) (operation : Operation E) :
      Reachable condition m → condition m operation →
        Reachable condition (m.apply settings operation)

end Steps

/-- No other editor becomes sticky or stops being it. -/
def StickyKept (m m' : EditorGroupModel E) (subject : List E) : Prop :=
  ∀ x ∈ m.editors, x ∈ m'.editors → x ∉ subject → (x ∈ m'.stickyEditors ↔ x ∈ m.stickyEditors)

variable {m m' : EditorGroupModel E} {e : E} {es : List E} {settings : Settings}
variable {options : EditorOpenOptions E}

theorem consistent_empty : Consistent (empty : EditorGroupModel E) :=
  ⟨⟨List.nodup_nil, .refl _⟩, ⟨List.nodup_nil, fun _ h => (List.not_mem_nil h).elim, rfl⟩,
    (fun _ h => nomatch h), fun _ h => (Finset.notMem_empty _ h).elim, le_refl _,
    neg_lt_zero.mpr one_pos⟩

theorem SameBut.stickyKept (es gone : List E) (h : SameBut (es ++ gone) m m')
    (hgone : ∀ x ∈ gone, x ∉ m'.editors) : StickyKept m m' es := by
  intro x _ hx hnot
  refine (h x fun hmem => ?_).2
  exact (List.mem_append.mp hmem).elim hnot fun hmem => hgone x hmem hx

theorem SameBut.stickyKept_of_same (h : SameBut es m m') : StickyKept m m' es := fun x _ _ hnot =>
  (h x hnot).2

variable [DecidableEq E]

theorem openEditor_consistent (h : Consistent m) (hallowed : m.Allowed (.openEditor e options))
    (hwell : m.OpensWell (.openEditor e options)) : Consistent (m.openEditor settings options e) ∧
    StickyKept m (m.openEditor settings options e) [e] := by
  rw [openEditor]
  by_cases he : e ∈ m.editors
  · simp only [findEditor_of_mem he]
    obtain ⟨h', hsame⟩ := openExistingEditor_consistent h he
    exact ⟨h', hsame.stickyKept_of_same⟩
  · simp only [findEditor_of_not_mem he]
    by_cases hinsert : makePinned options = true ∨ m.preview = none
    · obtain ⟨h', hsame⟩ := openNewEditor_of_inserts h he hallowed.1 hallowed.2 hinsert
      exact ⟨h', hsame.stickyKept_of_same⟩
    · rw [not_or, Bool.not_eq_true] at hinsert
      obtain ⟨p, hp⟩ := Option.ne_none_iff_exists'.mp hinsert.2
      obtain ⟨hselected, hfirst⟩ := hwell he hinsert.1 p hp
      obtain ⟨h', hsame, hgone⟩ := openNewEditor_of_replaces h he hallowed.1 hallowed.2 hinsert.1 hp
        hselected hfirst
      exact ⟨h', SameBut.stickyKept [e] [p] hsame (List.forall_mem_singleton.mpr hgone)⟩

theorem apply_consistent {operation : Operation E}
    (h : Consistent m) (hallowed : m.Allowed operation) (hwell : m.OpensWell operation) : Consistent
    (m.apply settings operation) ∧ StickyKept m (m.apply settings operation) operation.subject := by
  cases operation with
  | openEditor candidate options => exact openEditor_consistent h hallowed hwell
  | closeEditor candidate =>
    obtain ⟨h', hsame, -⟩ := closeEditor_consistent h
    exact ⟨h', hsame.stickyKept_of_same⟩
  | moveEditor candidate toIndex =>
    obtain ⟨h', hsame⟩ := moveEditor_consistent h
    exact ⟨h', hsame.stickyKept_of_same⟩
  | setActive candidate =>
    obtain ⟨h', hsame⟩ := setActive_consistent h
    exact ⟨h', hsame.stickyKept_of_same⟩
  | setSelection activeCandidate inactiveCandidates =>
    obtain ⟨h', hsame⟩ := setSelection_consistent h
    exact ⟨h', hsame.stickyKept_of_same⟩
  | pin candidate =>
    obtain ⟨h', heditors, hsticky⟩ := pin_consistent h
    exact ⟨h', (SameBut.of_eq heditors hsticky).stickyKept_of_same⟩
  | unpin candidate =>
    obtain ⟨h', gone, hsame, hgone⟩ := unpin_consistent h
    exact ⟨h', SameBut.stickyKept [] gone hsame hgone⟩
  | stick candidate =>
    obtain ⟨h', hsame⟩ := stick_consistent h
    exact ⟨h', hsame.stickyKept_of_same⟩
  | unstick candidate =>
    obtain ⟨h', hsame⟩ := unstick_consistent h
    exact ⟨h', hsame.stickyKept_of_same⟩
  | setTransient candidate transient =>
    obtain ⟨h', heditors, hsticky⟩ := setTransient_consistent h
    exact ⟨h', (SameBut.of_eq heditors hsticky).stickyKept_of_same⟩

theorem Reachable.consistent {condition : EditorGroupModel E → Operation E → Prop}
    (hcondition : ∀ m operation, condition m operation →
    m.Allowed operation ∧ m.OpensWell operation) (h : Reachable condition m) : Consistent m := by
  induction h with
  | empty => exact consistent_empty
  | step settings operation _ hstep ih =>
    exact (apply_consistent ih (hcondition _ _ hstep).1 (hcondition _ _ hstep).2).1

end EditorGroupModel

end CodeOss.EditorGroup
