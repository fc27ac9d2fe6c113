import CodeOss.EditorGroup.EditorGroupModel

/-! What every operation keeps of a group: its lists agree, the selection begins with the active
editor, and no other editor becomes sticky or stops being it. -/

namespace CodeOss.EditorGroup

open List List

section Arrays

variable {E : Type} {l a b : List E} {e x : E} {k : ℕ} {i : Int}

theorem spliceStart_natCast (h : k ≤ l.length) : spliceStart l (k : Int) = k := by
  rw [spliceStart, if_neg (by omega), Int.toNat_natCast, min_eq_left h]

theorem getAt_split : getAt (a ++ e :: b) a.length = some e := by
  rw [getAt, if_neg (by omega), Int.toNat_natCast]
  simp

theorem removeAt_split : removeAt (a ++ e :: b) a.length = a ++ b := by
  rw [removeAt, spliceStart_natCast (by simp), eraseIdx_append_of_length_le (le_refl _),
    Nat.sub_self, eraseIdx_cons_zero]

theorem insertAt_split : insertAt (a ++ b) a.length e = a ++ e :: b := by
  rw [insertAt, spliceStart_natCast (by simp)]
  simp

theorem exists_insertAt (h : 0 ≤ i) (hle : i ≤ l.length) (e : E) :
    ∃ a b, l = a ++ b ∧ (a.length : Int) = i ∧ insertAt l i e = a ++ e :: b := by
  obtain ⟨k, rfl⟩ := Int.eq_ofNat_of_zero_le h
  have hk : k ≤ l.length := by exact_mod_cast hle
  refine ⟨l.take k, l.drop k, (take_append_drop k l).symm, ?_, ?_⟩
  · rw [List.length_take, min_eq_left hk]
  · rw [insertAt, spliceStart_natCast hk]

theorem mem_take_around (hk : a.length ≤ k) (hx : x ≠ e) :
    x ∈ (a ++ e :: b).take (k + 1) ↔ x ∈ (a ++ b).take k := by
  rw [take_append, take_append, take_of_length_le (by omega),
    take_of_length_le hk, show k + 1 - a.length = k - a.length + 1 by omega,
    take_succ_cons, List.mem_append, List.mem_append, mem_cons]
  simp [hx]

theorem take_around (hk : k ≤ a.length) : (a ++ e :: b).take k = (a ++ b).take k := by
  rw [take_append_of_le_length hk, take_append_of_le_length hk]

variable [DecidableEq E]

theorem idxOf?_split (h : e ∉ a) : (a ++ e :: b).idxOf? e = some a.length := by
  rw [idxOf?_eq_some_iff]
  refine ⟨by simp, by simp, fun k hk heq => h ?_⟩
  rw [getElem_append_left hk] at heq
  exact heq ▸ getElem_mem hk

theorem indexOf_split (h : e ∉ a) : indexOf (some e) (a ++ e :: b) = a.length := by
  rw [indexOf, Option.bind_some, idxOf?_split h]

theorem indexOf_of_not_mem (h : e ∉ l) : indexOf (some e) l = -1 := by
  rw [indexOf, Option.bind_some, idxOf?_eq_none_iff.mpr h]

theorem getAt_of_not_mem (h : e ∉ l) : getAt l (indexOf (some e) l) = none := by
  rw [indexOf_of_not_mem h]
  rfl

theorem getAt_indexOf (h : e ∈ l) : getAt l (indexOf (some e) l) = some e := by
  obtain ⟨a, b, rfl, ha⟩ := eq_append_cons_of_mem h
  rw [indexOf_split ha, getAt_split]

theorem removeAt_indexOf (h : e ∈ l) : removeAt l (indexOf (some e) l) = l.erase e := by
  obtain ⟨a, b, rfl, ha⟩ := eq_append_cons_of_mem h
  rw [indexOf_split ha, removeAt_split, erase_append_right _ ha, erase_cons_head]

end Arrays

namespace EditorGroupModel

section Consistency

variable {E : Type}

/-- The editors are listed once, and the same by recency. -/
structure Listed (m : EditorGroupModel E) : Prop where
  nodup : m.editors.Nodup
  mru : m.mru.Perm m.editors

/-- The selection begins with the active editor, which is the most recent one. -/
structure Selected (m : EditorGroupModel E) : Prop where
  selection_nodup : m.selection.Nodup
  selection_mem : ∀ e ∈ m.selection, e ∈ m.editors
  active : m.active = m.mru.head?

structure Consistent (m : EditorGroupModel E) : Prop extends Listed m, Selected m where
  preview : ∀ e ∈ m.preview, e ∈ m.editors
  transient : ∀ e ∈ m.transient, e ∈ m.editors
  sticky_ge : -1 ≤ m.sticky
  sticky_lt : m.sticky < m.editors.length

def stickyEditors (m : EditorGroupModel E) : List E := m.editors.take (m.sticky + 1).toNat

def SameBut (es : List E) (m m' : EditorGroupModel E) : Prop :=
  ∀ x, x ∉ es → (x ∈ m'.editors ↔ x ∈ m.editors) ∧ (x ∈ m'.stickyEditors ↔ x ∈ m.stickyEditors)

variable {m m' : EditorGroupModel E} {e p : E} {index : Int}

theorem isSticky_iff : m.isSticky index = true ↔ 0 ≤ index ∧ index ≤ m.sticky := by
  rw [isSticky, Bool.and_eq_true, Bool.and_eq_true, decide_eq_true_eq, decide_eq_true_eq,
    decide_eq_true_eq]
  omega

theorem Consistent.active_mem (h : Consistent m) (hactive : m.active = some e) : e ∈ m.editors :=
  h.selection_mem e (mem_of_mem_head? hactive)

theorem Selected.active_isSome (h : Selected m) (hlisted : Listed m) (hne : m.editors ≠ []) :
    ∃ e, m.active = some e ∧ e ∈ m.editors := by
  rw [h.active]
  cases hmru : m.mru with
  | nil =>
    have hperm := hlisted.mru
    rw [hmru] at hperm
    exact (hne hperm.symm.eq_nil).elim
  | cons e rest => exact ⟨e, rfl, hlisted.mru.mem_iff.mp (hmru ▸ mem_cons_self)⟩

theorem exists_newActive {a b : List E} {settings : Settings} (hlisted : Listed m)
    (hselected : Selected m) (hsplit : m.editors = a ++ p :: b)
    (hactive : m.active = some p) (hlength : 1 < m.mru.length) :
    ∃ x, (if settings.focusRecentEditorAfterClose then m.mru[1]?
      else if (a.length : Int) = (m.editors.length : Int) - 1 then getAt m.editors (a.length - 1)
      else getAt m.editors (a.length + 1)) = some x ∧ x ∈ m.editors ∧ x ≠ p := by
  have hnodup : (a ++ p :: b).Nodup := hsplit ▸ hlisted.nodup
  have hcount := hlisted.mru.length_eq
  split
  · rw [hselected.active] at hactive
    rcases hmru : m.mru with _ | ⟨y, _ | ⟨x, rest⟩⟩
    · rw [hmru] at hlength
      simp at hlength
    · rw [hmru] at hlength
      simp at hlength
    · rw [hmru] at hactive
      obtain rfl : y = p := Option.some.inj hactive
      have hmruNodup := hlisted.mru.nodup_iff.mpr hlisted.nodup
      rw [hmru] at hmruNodup
      refine ⟨x, rfl, hlisted.mru.mem_iff.mp (by rw [hmru]; simp), ?_⟩
      rintro rfl
      exact (nodup_cons.mp hmruNodup).1 mem_cons_self
  · have hlen : m.editors.length = a.length + b.length + 1 := by
      rw [hsplit]
      simp
      omega
    split
    · -- The last one: the one before it.
      have hb : b = [] := length_eq_zero_iff.mp (by omega)
      have ha : a ≠ [] := by
        rintro rfl
        rw [hb] at hlen
        simp at hlen
        omega
      refine ⟨a.getLast ha, ?_, ?_, ?_⟩
      · have hpos := length_pos_iff.mpr ha
        rw [getAt, if_neg (by omega), hsplit,
          show ((a.length : Int) - 1).toNat = a.length - 1 by omega,
          List.getElem?_append_left (by omega), ← List.getLast?_eq_getElem?,
          List.getLast?_eq_getLast_of_ne_nil ha]
      · rw [hsplit]
        exact mem_append_left _ (getLast_mem ha)
      · rintro heq
        exact (nodup_append.mp hnodup).2.2 _ (getLast_mem ha) p mem_cons_self heq
    · -- The one behind it.
      cases b with
      | nil =>
        rename_i hnot
        exact (hnot (by rw [hlen]; simp)).elim
      | cons x b =>
        refine ⟨x, ?_, ?_, ?_⟩
        · rw [getAt, if_neg (by omega), hsplit,
            show ((a.length : Int) + 1).toNat = a.length + 1 by omega,
            List.getElem?_append_right (by omega)]
          simp
        · rw [hsplit]
          simp
        · rintro rfl
          have hback := (nodup_append.mp hnodup).2.1
          exact (nodup_cons.mp hback).1 mem_cons_self

variable [DecidableEq E]

theorem findEditor_of_mem (h : e ∈ m.editors) :
    m.findEditor (some e) = some (e, indexOf (some e) m.editors) := by
  rw [findEditor, getAt_indexOf h]
  rfl

theorem findEditor_of_not_mem (h : e ∉ m.editors) : m.findEditor (some e) = none := by
  rw [findEditor, getAt_of_not_mem h]
  rfl

theorem findEditor_isSome : (m.findEditor (some e)).isSome = true ↔ e ∈ m.editors := by
  by_cases h : e ∈ m.editors
  · rw [findEditor_of_mem h]
    exact iff_of_true rfl h
  · rw [findEditor_of_not_mem h]
    exact iff_of_false (by simp) h

section Select

variable {inactive : List E}

theorem doSetSelection_spec (h : Listed m) (he : e ∈ m.editors)
    (hnot : e ∉ inactive) (hnodup : inactive.Nodup) (hmem : ∀ x ∈ inactive, x ∈ m.editors)
    (hhead : m.active = some e → m.mru.head? = some e) : Listed
    (m.doSetSelection (some e) inactive) ∧ Selected (m.doSetSelection (some e) inactive) := by
  have hmru : e ∈ m.mru := h.mru.mem_iff.mpr he
  have hselection : (e :: inactive).Nodup := nodup_cons.mpr ⟨hnot, hnodup⟩
  have hselected : ∀ x ∈ e :: inactive, x ∈ m.editors := forall_mem_cons.mpr ⟨he, hmem⟩
  rw [doSetSelection]
  by_cases hactive : m.active = some e
  · simp only [hactive, ne_eq, not_true_eq_false, if_false]
    exact ⟨⟨h.nodup, h.mru⟩, ⟨hselection, hselected, (hhead hactive).symm⟩⟩
  · simp only [ne_eq, hactive, not_false_eq_true, if_true]
    rw [removeAt_indexOf hmru]
    exact ⟨⟨h.nodup, (perm_cons_erase hmru).symm.trans h.mru⟩, ⟨hselection, hselected, rfl⟩⟩

theorem inactiveEditors_spec (active : E) (candidates : List E) :
    (inactiveEditors active candidates).Nodup ∧ active ∉ inactiveEditors active candidates ∧
      ∀ x ∈ inactiveEditors active candidates, x ∈ candidates := by
  have hfold : ∀ (candidates set : List E), set.Nodup → active ∉ set →
      let set' := candidates.foldl
        (fun set e => if e = active ∨ e ∈ set then set else set ++ [e]) set
      set'.Nodup ∧ active ∉ set' ∧ ∀ x ∈ set', x ∈ set ∨ x ∈ candidates := by
    intro candidates
    induction candidates with
    | nil => exact fun set hnodup hnot => ⟨hnodup, hnot, fun x hx => .inl hx⟩
    | cons e candidates ih =>
      intro set hnodup hnot
      rw [foldl_cons]
      split
      · obtain ⟨hnodup', hnot', hmem⟩ := ih set hnodup hnot
        exact ⟨hnodup', hnot', fun x hx => (hmem x hx).imp_right (mem_cons_of_mem _)⟩
      · rename_i hnew
        rw [not_or] at hnew
        have hadd : (set ++ [e]).Nodup :=
          nodup_append.mpr ⟨hnodup, nodup_singleton e, fun x hx y hy heq => by
            rw [mem_singleton] at hy
            exact hnew.2 (hy ▸ heq ▸ hx)⟩
        obtain ⟨hnodup', hnot', hmem⟩ := ih (set ++ [e]) hadd (by
          rw [List.mem_append, mem_singleton]
          exact not_or.mpr ⟨hnot, fun heq => hnew.1 heq.symm⟩)
        refine ⟨hnodup', hnot', fun x hx => ?_⟩
        rcases hmem x hx with hx | hx
        · rcases List.mem_append.mp hx with hx | hx
          · exact .inl hx
          · exact .inr (mem_singleton.mp hx ▸ mem_cons_self)
        · exact .inr (mem_cons_of_mem _ hx)
  obtain ⟨hnodup, hnot, hmem⟩ := hfold candidates [] nodup_nil not_mem_nil
  exact ⟨hnodup, hnot, fun x hx => (hmem x hx).resolve_left not_mem_nil⟩

end Select

section Close

variable {a b : List E} {settings : Settings} {openNext : Bool}

/-- What closing an editor does first: another editor is made active, or it is selected no more. -/
def deselected (m : EditorGroupModel E) (settings : Settings) (editor : E) (index : Int)
    (openNext : Bool) : EditorGroupModel E :=
  if openNext ∧ m.active = some editor then
    if 1 < m.mru.length then
      let newActive :=
        if settings.focusRecentEditorAfterClose then m.mru[1]?
        else if index = (m.editors.length : Int) - 1 then getAt m.editors (index - 1)
        else getAt m.editors (index + 1)
      m.doSetSelection newActive
        (m.selection.filter fun selected => selected ≠ editor ∧ some selected ≠ newActive)
    else m.doSetSelection none []
  else if ¬ m.active = some editor ∧ editor ∈ m.selection then
    m.doSetSelection m.active
      (m.selection.filter fun selected => selected ≠ editor ∧ some selected ≠ m.active)
  else m

theorem doCloseEditor_eq (hp : p ∈ m.editors) :
    m.doCloseEditor settings p openNext =
      (let m₁ := m.deselected settings p (indexOf (some p) m.editors) openNext
      { m₁ with
        preview := if m₁.preview = some p then none else m₁.preview
        transient := m₁.transient.erase p }).spliceDelete (indexOf (some p) m.editors) := by
  rw [doCloseEditor]
  simp only [getAt_indexOf hp]
  rfl

theorem doSetSelection_rest (active : Option E) (inactive : List E) :
    (m.doSetSelection active inactive).editors = m.editors ∧
    (m.doSetSelection active inactive).sticky = m.sticky ∧ (m.doSetSelection active
    inactive).preview = m.preview ∧ (m.doSetSelection active inactive).transient = m.transient := by
  cases active <;> exact ⟨rfl, rfl, rfl, rfl⟩

theorem deselected_rest (index : Int) : (m.deselected settings p index openNext).editors =
    m.editors ∧ (m.deselected settings p index openNext).sticky = m.sticky ∧
    (m.deselected settings p index openNext).preview = m.preview ∧
    (m.deselected settings p index openNext).transient = m.transient := by
  rw [deselected]
  split
  · split
    · exact doSetSelection_rest _ _
    · exact doSetSelection_rest _ _
  · split
    · exact doSetSelection_rest _ _
    · exact ⟨rfl, rfl, rfl, rfl⟩

theorem deselected_spec (hlisted : Listed m) (hselected : Selected m)
    (hsplit : m.editors = a ++ p :: b) (hdone : openNext = true ∨ m.active ≠ some p) :
    Listed (m.deselected settings p a.length openNext) ∧ (m.deselected settings p a.length
    openNext).selection.Nodup ∧ (∀ x ∈ (m.deselected settings p a.length openNext).selection,
    x ∈ m.editors ∧ x ≠ p) ∧ (m.deselected settings p a.length openNext).active =
    ((m.deselected settings p a.length openNext).mru.erase p).head? ∧
    (m.active ≠ some p → (m.deselected settings p a.length openNext).active = m.active) := by
  have hfilter (active : E) : (m.selection.filter fun selected =>
      selected ≠ p ∧ some selected ≠ some active).Nodup ∧
        active ∉ (m.selection.filter fun selected => selected ≠ p ∧ some selected ≠ some active) ∧
        ∀ x ∈ (m.selection.filter fun selected => selected ≠ p ∧ some selected ≠ some active),
          x ∈ m.editors ∧ x ≠ p := by
    refine ⟨hselected.selection_nodup.filter _, fun hmem => ?_, fun x hx => ?_⟩
    · simp at hmem
    · obtain ⟨hx, hne⟩ := mem_filter.mp hx
      exact ⟨hselected.selection_mem x hx, (of_decide_eq_true hne).1⟩
  -- With an active editor that stays, the selection begins with it.
  have hselect {x : E} (hx : x ∈ m.editors) (hne : x ≠ p)
      (hhead : m.active = some x → m.mru.head? = some x) :
      let m₁ := m.doSetSelection (some x)
        (m.selection.filter fun selected => selected ≠ p ∧ some selected ≠ some x)
      Listed m₁ ∧ m₁.selection.Nodup ∧ (∀ y ∈ m₁.selection, y ∈ m.editors ∧ y ≠ p) ∧
        m₁.active = (m₁.mru.erase p).head? := by
    obtain ⟨hnodup, hnot, hmem⟩ := hfilter x
    obtain ⟨hlisted', hselected'⟩ :=
      doSetSelection_spec hlisted hx hnot hnodup (fun y hy => (hmem y hy).1) hhead
    refine ⟨hlisted', hselected'.selection_nodup, ?_, ?_⟩
    · exact forall_mem_cons.mpr ⟨⟨hx, hne⟩, hmem⟩
    · have hactive := hselected'.active
      rw [show (m.doSetSelection (some x) _).active = some x from rfl] at hactive ⊢
      obtain ⟨rest, hmru⟩ := List.head?_eq_some_iff.mp hactive.symm
      rw [hmru, erase_cons_tail (by simpa using hne)]
      rfl
  rw [deselected]
  split
  · rename_i hopen
    split
    · rename_i hlength
      obtain ⟨x, hnew, hx, hne⟩ :=
        @exists_newActive _ _ _ _ _ settings hlisted hselected hsplit hopen.2 hlength
      simp only [hnew]
      obtain ⟨hlisted', hnodup, hmem, hactive⟩ := hselect hx hne fun hactive => by
        rw [hopen.2] at hactive
        exact (hne (Option.some.inj hactive).symm).elim
      exact ⟨hlisted', hnodup, hmem, hactive, fun hnot => (hnot hopen.2).elim⟩
    · -- The last editor.
      rename_i hlength
      refine ⟨⟨hlisted.nodup, hlisted.mru⟩, nodup_nil, fun x hx => (not_mem_nil hx).elim,
        ?_, fun hnot => (hnot hopen.2).elim⟩
      have hp : p ∈ m.mru := hlisted.mru.mem_iff.mpr (by rw [hsplit]; simp)
      obtain ⟨y, hmru⟩ := length_eq_one_iff.mp
        (show m.mru.length = 1 from le_antisymm (not_lt.mp hlength) (length_pos_of_mem hp))
      rw [hmru, mem_singleton] at hp
      simp [doSetSelection, active, hmru, hp]
  · rename_i hopen
    have hnot : m.active ≠ some p := fun hactive => hdone.elim (fun hopenNext =>
      hopen ⟨hopenNext, hactive⟩) fun hnot => hnot hactive
    obtain ⟨x, hactive, hx⟩ := hselected.active_isSome hlisted (by rw [hsplit]; simp)
    have hne : x ≠ p := fun heq => hnot (heq ▸ hactive)
    split
    · rw [hactive]
      obtain ⟨hlisted', hnodup, hmem, hactive'⟩ := hselect hx hne fun _ =>
        hselected.active ▸ hactive
      exact ⟨hlisted', hnodup, hmem, hactive', fun _ => rfl⟩
    · rename_i hin
      have hp : p ∉ m.selection := fun hp => hin ⟨hnot, hp⟩
      refine ⟨hlisted, hselected.selection_nodup, fun y hy => ⟨hselected.selection_mem y hy, ?_⟩,
        ?_, fun _ => rfl⟩
      · rintro rfl
        exact hp hy
      · rw [hactive]
        rw [hselected.active] at hactive
        obtain ⟨rest, hmru⟩ := List.head?_eq_some_iff.mp hactive
        rw [hmru, erase_cons_tail (by simpa using hne)]
        rfl

/-- An editor is closed. If it was active and no other one is opened, the selection stays. -/
structure Closes (m m' : EditorGroupModel E) (p : E) (a b : List E) (openNext : Bool) : Prop where
  editors : m'.editors = a ++ b
  listed : Listed m'
  sticky : m'.sticky = if a.length ≤ m.sticky then m.sticky - 1 else m.sticky
  preview : m'.preview = if m.preview = some p then none else m.preview
  transient : m'.transient = m.transient.erase p
  selected : openNext = true ∨ m.active ≠ some p → Selected m'
  active : m.active ≠ some p → m'.active = m.active
  selection : openNext = false → m.active = some p → m'.selection = m.selection

theorem doCloseEditor_spec (hlisted : Listed m) (hselected : Selected m)
    (hsplit : m.editors = a ++ p :: b) :
    Closes m (m.doCloseEditor settings p openNext) p a b openNext := by
  have hnodup : (a ++ p :: b).Nodup := hsplit ▸ hlisted.nodup
  have ha : p ∉ a := fun h => (nodup_append.mp hnodup).2.2 p h p mem_cons_self rfl
  have hb : p ∉ b := (nodup_cons.mp (nodup_append.mp hnodup).2.1).1
  have hp : p ∈ m.editors := by
    rw [hsplit]
    simp
  have hindex : indexOf (some p) m.editors = a.length := by rw [hsplit, indexOf_split ha]
  have hget : getAt m.editors a.length = some p := by rw [hsplit, getAt_split]
  have hremove : removeAt m.editors a.length = a ++ b := by rw [hsplit, removeAt_split]
  rw [doCloseEditor_eq hp, hindex]
  obtain ⟨heditors, hsticky, hpreview, htransient⟩ :=
    @deselected_rest _ m p _ settings openNext a.length
  have hlisted₁ : Listed (m.deselected settings p a.length openNext) := by
    by_cases hdone : openNext = true ∨ m.active ≠ some p
    · exact (deselected_spec hlisted hselected hsplit hdone).1
    · rw [not_or, not_not, Bool.not_eq_true] at hdone
      rw [deselected, if_neg (by simp [hdone.1]), if_neg (by simp [hdone.2])]
      exact hlisted
  have hmru : p ∈ (m.deselected settings p a.length openNext).mru :=
    hlisted₁.mru.mem_iff.mpr (heditors ▸ hp)
  simp only [spliceDelete, heditors, hget, hremove, hsticky, hpreview, htransient]
  rw [removeAt_indexOf hmru]
  refine ⟨rfl, ⟨?_, ?_⟩, ?_, rfl, rfl, fun hdone => ?_, fun hactive => ?_, fun hopen hactive => ?_⟩
  · exact (nodup_append.mpr ⟨(nodup_append.mp hnodup).1,
      (nodup_cons.mp (nodup_append.mp hnodup).2.1).2, fun x hx y hy =>
        (nodup_append.mp hnodup).2.2 x hx y (mem_cons_of_mem _ hy)⟩)
  · have herase := hlisted₁.mru.erase p
    rw [heditors, hsplit, erase_append_right _ ha, erase_cons_head] at herase
    exact herase
  · rw [← hsticky]
    exact if_congr (isSticky_iff.trans ⟨fun h => h.2, fun h => ⟨by omega, h⟩⟩) rfl rfl
  · obtain ⟨-, hselection, hmem, hactive, -⟩ :=
      @deselected_spec _ m p _ a b settings openNext hlisted hselected hsplit hdone
    refine ⟨hselection, fun x hx => ?_, hactive⟩
    obtain ⟨hx, hne⟩ := hmem x hx
    rw [hsplit, List.mem_append, mem_cons] at hx
    exact List.mem_append.mpr (hx.imp_right fun h => h.resolve_left hne)
  · exact (deselected_spec hlisted hselected hsplit (.inr hactive)).2.2.2.2 hactive
  · rw [deselected, if_neg (by simp [hopen]), if_neg (by simp [hactive])]

end Close

end Consistency

end EditorGroupModel

end CodeOss.EditorGroup
