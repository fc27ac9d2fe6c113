import CodeOss.EditorGroup.GroupConsistent

/-! Moving, sticking, pinning and selecting keep a group consistent, and so does closing. Opening
does if the selection of a new editor goes through and a preview that it replaces is not the first
editor behind the sticky ones. -/

namespace CodeOss.EditorGroup.EditorGroupModel

open List List

variable {E : Type} {m m' m'' : EditorGroupModel E} {e x p : E} {es : List E}
variable {a b c d : List E} {s s' : Int} {k : ℕ}

/-- Where the boundary is after an editor is put in at an index, so that the others stay on their
side. -/
def PutIn (s s' : Int) (index : ℕ) : Prop := s' = s + 1 ∧ index ≤ s + 1 ∨ s' = s ∧ s + 1 ≤ index

theorem mem_take_of_putIn (hs : -1 ≤ s) (h : PutIn s s' a.length) (hx : x ≠ e) :
    x ∈ (a ++ e :: b).take (s' + 1).toNat ↔ x ∈ (a ++ b).take (s + 1).toNat := by
  rcases h with ⟨rfl, h⟩ | ⟨rfl, h⟩
  · rw [show (s + 1 + 1).toNat = (s + 1).toNat + 1 by omega]
    exact mem_take_around (by omega) hx
  · rw [take_around (by omega)]

/-- Where it is after one is taken out. -/
def takenOut (s : Int) (index : ℕ) : Int := if index ≤ s then s - 1 else s

theorem putIn_takenOut : PutIn (takenOut s k) s k := by
  rw [takenOut, PutIn]
  split <;> omega

theorem takenOut_ge (hs : -1 ≤ s) : -1 ≤ takenOut s k := by
  rw [takenOut]
  split <;> omega

theorem SameBut.refl : SameBut es m m := fun _ _ => ⟨Iff.rfl, Iff.rfl⟩

theorem SameBut.trans (h : SameBut es m m') (h' : SameBut es m' m'') : SameBut es m m'' :=
  fun x hx => ⟨(h' x hx).1.trans (h x hx).1, (h' x hx).2.trans (h x hx).2⟩

theorem SameBut.mono {es' : List E} (h : SameBut es m m') (hsub : ∀ x ∈ es, x ∈ es') :
    SameBut es' m m' := fun x hx => h x fun hmem => hx (hsub x hmem)

theorem SameBut.of_eq (heditors : m'.editors = m.editors) (hsticky : m'.sticky = m.sticky) :
    SameBut es m m' := fun x _ => by
  rw [stickyEditors, stickyEditors, heditors, hsticky]
  exact ⟨Iff.rfl, Iff.rfl⟩

theorem SameBut.of_moved (hs : -1 ≤ m.sticky) (hsplit : m.editors = a ++ e :: b)
    (hsplit' : m'.editors = c ++ e :: d) (hrest : c ++ d = a ++ b)
    (h : PutIn (takenOut m.sticky a.length) m'.sticky c.length) : SameBut [e] m m' := by
  intro x hx
  have hne : x ≠ e := fun heq => hx (heq ▸ mem_singleton_self x)
  constructor
  · have hmem : x ∈ c ++ d ↔ x ∈ a ++ b := by rw [hrest]
    rw [List.mem_append, List.mem_append] at hmem
    rw [hsplit, hsplit', List.mem_append, List.mem_append, mem_cons, mem_cons]
    simp only [hne, false_or]
    exact hmem
  · rw [stickyEditors, stickyEditors, hsplit, hsplit', mem_take_of_putIn (takenOut_ge hs) h hne,
      mem_take_of_putIn (takenOut_ge hs) putIn_takenOut hne, hrest]

theorem SameBut.of_closed (hs : -1 ≤ m.sticky) (hsplit : m.editors = a ++ p :: b)
    (heditors : m'.editors = a ++ b) (hsticky : m'.sticky = takenOut m.sticky a.length) :
    SameBut [p] m m' := by
  intro x hx
  have hne : x ≠ p := fun heq => hx (heq ▸ mem_singleton_self x)
  constructor
  · rw [hsplit, heditors, List.mem_append, List.mem_append, mem_cons]
    simp only [hne, false_or]
  · rw [stickyEditors, stickyEditors, hsplit, heditors, hsticky,
      mem_take_of_putIn (takenOut_ge hs) putIn_takenOut hne]

theorem SameBut.of_opened (hs : -1 ≤ m.sticky) (hsplit : m.editors = a ++ b)
    (heditors : m'.editors = a ++ e :: b) (hput : PutIn m.sticky m'.sticky a.length) :
    SameBut [e] m m' := by
  intro x hx
  have hne : x ≠ e := fun heq => hx (heq ▸ mem_singleton_self x)
  constructor
  · rw [hsplit, heditors, List.mem_append, List.mem_append, mem_cons]
    simp only [hne, false_or]
  · rw [stickyEditors, stickyEditors, hsplit, heditors, mem_take_of_putIn hs hput hne]

theorem Consistent.of_rest (h : Consistent m) (hlisted : Listed m') (hselected : Selected m')
    (hrest : m'.editors = m.editors ∧ m'.sticky = m.sticky ∧ m'.preview = m.preview ∧
      m'.transient = m.transient) : Consistent m' := by
  obtain ⟨heditors, hsticky, hpreview, htransient⟩ := hrest
  exact ⟨hlisted, hselected, by rw [hpreview, heditors]; exact h.preview,
    by rw [htransient, heditors]; exact h.transient, by rw [hsticky]; exact h.sticky_ge,
    by rw [hsticky, heditors]; exact h.sticky_lt⟩

theorem Consistent.moved (h : Consistent m) (hsplit : m.editors = a ++ e :: b)
    (hrest : c ++ d = a ++ b) (hput : PutIn (takenOut m.sticky a.length) s' c.length) :
    Consistent { m with editors := c ++ e :: d, sticky := s' } ∧
      SameBut [e] m { m with editors := c ++ e :: d, sticky := s' } := by
  refine ⟨?_, .of_moved h.sticky_ge hsplit rfl hrest hput⟩
  have hperm : (c ++ e :: d).Perm m.editors := by
    rw [hsplit]
    refine perm_middle.trans (.trans ?_ perm_middle.symm)
    rw [hrest]
  have hlength := hperm.length_eq
  have hge := h.sticky_ge
  have hlt := h.sticky_lt
  rw [hsplit, length_append, length_cons] at hlt
  rw [hsplit, @List.length_append _ a, length_cons] at hlength
  refine ⟨⟨hperm.nodup_iff.mpr h.nodup, h.mru.trans hperm.symm⟩, ⟨h.selection_nodup, fun x hx =>
    hperm.mem_iff.mpr (h.selection_mem x hx), h.active⟩, fun x hx => hperm.mem_iff.mpr
    (h.preview x hx), fun x hx => hperm.mem_iff.mpr (h.transient x hx), ?_, ?_⟩
  · show -1 ≤ s'
    rw [PutIn, takenOut] at hput
    split at hput <;> omega
  · show s' < ((c ++ e :: d).length : Int)
    rw [PutIn, takenOut] at hput
    split at hput <;> omega

section Select

variable [DecidableEq E] {candidate : Option E} {candidates : List E}

theorem setSelection_rest : (m.setSelection candidate candidates).editors = m.editors ∧
    (m.setSelection candidate candidates).sticky = m.sticky ∧
    (m.setSelection candidate candidates).preview = m.preview ∧
    (m.setSelection candidate candidates).transient = m.transient := by
  rw [setSelection]
  split
  · exact ⟨rfl, rfl, rfl, rfl⟩
  · split
    · exact doSetSelection_rest _ _
    · exact ⟨rfl, rfl, rfl, rfl⟩

theorem setSelection_spec (h : Listed m) (he : e ∈ m.editors)
    (hmem : ∀ x ∈ candidates, x ∈ m.editors) (hhead : m.active = some e → m.mru.head? = some e) :
    Listed (m.setSelection (some e) candidates) ∧
      Selected (m.setSelection (some e) candidates) := by
  obtain ⟨hnodup, hnot, hsub⟩ := inactiveEditors_spec e candidates
  have hall : (candidates.all fun e => (m.findEditor (some e)).isSome) = true :=
    all_eq_true.mpr fun x hx => findEditor_isSome.mpr (hmem x hx)
  rw [setSelection]
  simp only [findEditor_of_mem he, hall, if_true]
  exact doSetSelection_spec h he hnot hnodup (fun x hx => hmem x (hsub x hx)) hhead

theorem setSelection_consistent (h : Consistent m) : Consistent
    (m.setSelection candidate candidates) ∧ SameBut es m (m.setSelection candidate candidates) := by
  refine ⟨?_, .of_eq setSelection_rest.1 setSelection_rest.2.1⟩
  cases candidate with
  | none =>
    rw [setSelection, show m.findEditor none = none from rfl]
    exact h
  | some e =>
    by_cases he : e ∈ m.editors
    · by_cases hall : ∀ x ∈ candidates, x ∈ m.editors
      · obtain ⟨hlisted, hselected⟩ :=
          setSelection_spec h.toListed he hall fun hactive => h.active ▸ hactive
        exact h.of_rest hlisted hselected setSelection_rest
      · have hnot : ¬ (candidates.all fun e => (m.findEditor (some e)).isSome) = true := by
          rw [all_eq_true]
          exact fun hfound => hall fun x hx => findEditor_isSome.mp (hfound x hx)
        rw [setSelection]
        simp only [findEditor_of_mem he, hnot]
        exact h
    · rw [setSelection]
      simp only [findEditor_of_not_mem he]
      exact h

theorem setActive_eq (he : e ∈ m.editors) : m.setActive (some e) = m.setSelection (some e) [] := by
  rw [setActive, setSelection]
  simp only [setEditorActive, findEditor_of_mem he]
  rfl

theorem setActive_consistent (h : Consistent m) :
    Consistent (m.setActive candidate) ∧ SameBut es m (m.setActive candidate) := by
  cases candidate with
  | none => exact ⟨h, .refl⟩
  | some e =>
    by_cases he : e ∈ m.editors
    · rw [setActive_eq he]
      exact setSelection_consistent h
    · rw [setActive]
      simp only [setEditorActive, findEditor_of_not_mem he]
      exact ⟨h, .refl⟩

end Select

section Move

variable [DecidableEq E] {toIndex : Int}

theorem moveEditor_eq (hnodup : m.editors.Nodup) (hsplit : m.editors = a ++ e :: b) :
    ∃ c d s', c ++ d = a ++ b ∧ (0 ≤ toIndex ∧ toIndex < m.editors.length → c.length = toIndex) ∧
      s' = (if a.length ≤ m.sticky ∧ m.sticky < c.length then m.sticky - 1
        else if m.sticky < a.length ∧ c.length ≤ m.sticky then m.sticky + 1 else m.sticky) ∧
      m.moveEditor e toIndex = { m with editors := c ++ e :: d, sticky := s' } := by
  have ha : e ∉ a := fun h =>
    (nodup_append.mp (hsplit ▸ hnodup)).2.2 e h e mem_cons_self rfl
  have hlength : m.editors.length = (a ++ b).length + 1 := by
    rw [hsplit, length_append, length_append, length_cons, ← Nat.add_assoc]
  have hindex : indexOf (some e) m.editors = a.length := by rw [hsplit, indexOf_split ha]
  have hget : getAt m.editors a.length = some e := by rw [hsplit, getAt_split]
  have hremove : removeAt m.editors a.length = a ++ b := by rw [hsplit, removeAt_split]
  have hsticky : m.isSticky a.length ↔ a.length ≤ m.sticky :=
    isSticky_iff.trans ⟨fun h => h.2, fun h => ⟨by omega, h⟩⟩
  rw [moveEditor]
  simp only [hindex, hget, hremove, hsticky]
  generalize hto : (if (m.editors.length : Int) ≤ toIndex then (m.editors.length : Int) - 1
    else if toIndex < 0 then 0 else toIndex) = target
  have htarget : 0 ≤ target ∧ target ≤ (a ++ b).length ∧
      (0 ≤ toIndex ∧ toIndex < m.editors.length → target = toIndex) := by
    rw [← hto]
    split
    · omega
    · split <;> omega
  by_cases heq : target = a.length
  · refine ⟨a, b, m.sticky, rfl, fun h => ?_, ?_, ?_⟩
    · rw [← heq]
      exact htarget.2.2 h
    · rw [if_neg (by omega), if_neg (by omega)]
    · rw [if_pos heq, ← hsplit]
  · obtain ⟨c, d, hrest, hc, hinsert⟩ := exists_insertAt htarget.1 htarget.2.1 e
    refine ⟨c, d, _, hrest.symm, fun h => ?_, rfl, ?_⟩
    · rw [hc]
      exact htarget.2.2 h
    · rw [if_neg heq, hinsert, hc]
      simp only [not_le]

theorem moveEditor_of_not_mem (he : e ∉ m.editors) : m.moveEditor e toIndex = m := by
  rw [moveEditor]
  simp only [getAt_of_not_mem he]

theorem moveEditor_consistent (h : Consistent m) :
    Consistent (m.moveEditor e toIndex) ∧ SameBut [e] m (m.moveEditor e toIndex) := by
  by_cases he : e ∈ m.editors
  · obtain ⟨a, b, hsplit⟩ := append_of_mem he
    obtain ⟨c, d, s', hrest, -, hsticky, hmove⟩ :=
      @moveEditor_eq _ m e a b _ toIndex h.nodup hsplit
    rw [hmove]
    refine h.moved hsplit hrest ?_
    rw [hsticky, PutIn, takenOut]
    split
    · split <;> omega
    · split <;> split <;> omega
  · rw [moveEditor_of_not_mem he]
    exact ⟨h, .refl⟩

theorem mem_moveEditor (h : Consistent m) (he : e ∈ m.editors) :
    e ∈ (m.moveEditor e toIndex).editors := by
  obtain ⟨a, b, hsplit⟩ := append_of_mem he
  obtain ⟨c, d, s', -, -, -, hmove⟩ := @moveEditor_eq _ m e a b _ toIndex h.nodup hsplit
  rw [hmove]
  exact mem_append_right c mem_cons_self

theorem setTransient_consistent {transient : Bool} (h : Consistent m) :
    Consistent (m.setTransient e transient) ∧ (m.setTransient e transient).editors = m.editors ∧
    (m.setTransient e transient).sticky = m.sticky := by
  rw [setTransient]
  split
  · exact ⟨h, rfl, rfl⟩
  · by_cases he : e ∈ m.editors
    · simp only [findEditor_of_mem he]
      refine ⟨{ h with transient := fun x hx => ?_ }, rfl, rfl⟩
      cases transient with
      | false => exact h.transient x (Finset.mem_of_mem_erase hx)
      | true =>
        rcases Finset.mem_insert.mp hx with rfl | hx
        · exact he
        · exact h.transient x hx
    · simp only [findEditor_of_not_mem he]
      exact ⟨h, trivial, trivial⟩

theorem doPin_consistent (h : Consistent m) :
    Consistent (m.doPin e) ∧ (m.doPin e).editors = m.editors ∧ (m.doPin e).sticky = m.sticky := by
  rw [doPin]
  split
  · exact ⟨h, rfl, rfl⟩
  · obtain ⟨h', heditors, hsticky⟩ := @setTransient_consistent _ m e _ false h
    exact ⟨{ h' with preview := fun x hx => nomatch hx }, heditors, hsticky⟩

theorem pin_consistent (h : Consistent m) :
    Consistent (m.pin e) ∧ (m.pin e).editors = m.editors ∧ (m.pin e).sticky = m.sticky := by
  by_cases he : e ∈ m.editors
  · rw [pin]
    simp only [findEditor_of_mem he]
    exact doPin_consistent h
  · rw [pin]
    simp only [findEditor_of_not_mem he]
    exact ⟨h, trivial, trivial⟩

variable (h : Consistent m)
include h

theorem doStick_consistent (he : e ∈ m.editors) : Consistent (m.doStick e
    (indexOf (some e) m.editors)) ∧ SameBut [e] m (m.doStick e (indexOf (some e) m.editors)) := by
  rw [doStick]
  split
  · exact ⟨h, .refl⟩
  · rename_i hnot
    obtain ⟨a, b, hsplit, ha⟩ := eq_append_cons_of_mem he
    rw [isSticky_iff, hsplit, indexOf_split ha] at hnot
    obtain ⟨h', heditors, hsticky⟩ := @pin_consistent _ m e _ h
    rw [← heditors] at hsplit
    have hlength : ((m.pin e).editors.length : Int) = a.length + b.length + 1 := by
      rw [hsplit, length_append, length_cons]
      omega
    have hge := h'.sticky_ge
    obtain ⟨c, d, s', hrest, hc, hs', hmove⟩ :=
      @moveEditor_eq _ (m.pin e) e a b _ ((m.pin e).sticky + 1) h'.nodup hsplit
    have hc := hc (by omega)
    obtain ⟨hconsistent, hsame⟩ := @Consistent.moved _ (m.pin e) e a b c d (s' + 1) h' hsplit hrest
      (by
        rw [hs', PutIn, takenOut, if_neg (by omega), if_neg (by omega), if_neg (by omega)]
        omega)
    simp only [hmove]
    exact ⟨hconsistent, .trans (.of_eq heditors hsticky) hsame⟩

theorem doUnstick_consistent (he : e ∈ m.editors) : Consistent (m.doUnstick e
    (indexOf (some e) m.editors)) ∧ SameBut [e] m (m.doUnstick e (indexOf (some e) m.editors)) := by
  rw [doUnstick]
  split
  · exact ⟨h, .refl⟩
  · rename_i hsticky
    obtain ⟨a, b, hsplit, ha⟩ := eq_append_cons_of_mem he
    rw [not_not, isSticky_iff, hsplit, indexOf_split ha] at hsticky
    have hlt := h.sticky_lt
    obtain ⟨c, d, s', hrest, hc, hs', hmove⟩ := @moveEditor_eq _ m e a b _ m.sticky h.nodup hsplit
    have hc := hc (by omega)
    obtain ⟨hconsistent, hsame⟩ := @Consistent.moved _ m e a b c d (s' - 1) h hsplit hrest (by
      rw [hs', PutIn, takenOut, if_pos hsticky.2, if_neg (by omega), if_neg (by omega)]
      omega)
    simp only [hmove]
    exact ⟨hconsistent, hsame⟩

theorem stick_consistent : Consistent (m.stick e) ∧ SameBut [e] m (m.stick e) := by
  by_cases he : e ∈ m.editors
  · rw [stick]
    simp only [findEditor_of_mem he]
    exact doStick_consistent h he
  · rw [stick]
    simp only [findEditor_of_not_mem he]
    exact ⟨h, .refl⟩

theorem unstick_consistent : Consistent (m.unstick e) ∧ SameBut [e] m (m.unstick e) := by
  by_cases he : e ∈ m.editors
  · rw [unstick]
    simp only [findEditor_of_mem he]
    exact doUnstick_consistent h he
  · rw [unstick]
    simp only [findEditor_of_not_mem he]
    exact ⟨h, .refl⟩

end Move

section Close

variable [DecidableEq E] {settings : Settings} {openNext : Bool}

theorem closeEditor_consistent (h : Consistent m) : Consistent (m.closeEditor settings p) ∧
    SameBut [p] m (m.closeEditor settings p) ∧ p ∉ (m.closeEditor settings p).editors := by
  by_cases hp : p ∈ m.editors
  · obtain ⟨a, b, hsplit⟩ := append_of_mem hp
    have hcloses : Closes m (m.closeEditor settings p) p a b true :=
      doCloseEditor_spec h.toListed h.toSelected hsplit
    have hnodup : (a ++ p :: b).Nodup := hsplit ▸ h.nodup
    have hout : p ∉ a ++ b := (nodup_cons.mp (nodup_middle.mp hnodup)).1
    have hkept : ∀ x ∈ m.editors, x ≠ p → x ∈ (m.closeEditor settings p).editors := by
      intro x hx hne
      rw [hcloses.editors, List.mem_append]
      rw [hsplit, List.mem_append, mem_cons] at hx
      exact hx.imp_right fun hx => hx.resolve_left hne
    refine ⟨⟨hcloses.listed, hcloses.selected (.inl rfl), fun x hx => ?_, fun x hx => ?_, ?_, ?_⟩,
      .of_closed h.sticky_ge hsplit hcloses.editors hcloses.sticky, hcloses.editors ▸ hout⟩
    · rw [hcloses.preview] at hx
      split at hx
      · exact nomatch hx
      · rename_i hpreview
        exact hkept x (h.preview x hx) fun heq => hpreview (heq ▸ hx)
    · rw [hcloses.transient, Finset.mem_erase] at hx
      exact hkept x (h.transient x hx.2) hx.1
    · rw [hcloses.sticky]
      exact takenOut_ge h.sticky_ge
    · have hlt := h.sticky_lt
      have hge := h.sticky_ge
      rw [hcloses.sticky, hcloses.editors, length_append]
      rw [hsplit, length_append, length_cons] at hlt
      split <;> omega
  · have hclose : m.closeEditor settings p = m := by
      rw [closeEditor, doCloseEditor]
      simp only [getAt_of_not_mem hp]
    rw [hclose]
    exact ⟨h, .refl, hp⟩

theorem unpin_consistent (h : Consistent m) : Consistent (m.unpin settings e) ∧
    ∃ es, SameBut es m (m.unpin settings e) ∧ ∀ x ∈ es, x ∉ (m.unpin settings e).editors := by
  have hsame : ∃ es, SameBut es m m ∧ ∀ x ∈ es, x ∉ m.editors :=
    ⟨[], .refl, fun x hx => (not_mem_nil hx).elim⟩
  by_cases he : e ∈ m.editors
  · rw [unpin]
    simp only [findEditor_of_mem he]
    rw [doUnpin]
    split
    · exact ⟨h, hsame⟩
    · have h' : Consistent { m with preview := some e } :=
        { h with preview := fun x hx => Option.some.inj hx ▸ he }
      cases m.preview with
      | none => exact ⟨h', hsame⟩
      | some oldPreview =>
        obtain ⟨hconsistent, hsame, hnot⟩ :=
          @closeEditor_consistent _ _ oldPreview _ settings h'
        exact ⟨hconsistent, [oldPreview], hsame, forall_mem_singleton.mpr hnot⟩
  · rw [unpin]
    simp only [findEditor_of_not_mem he]
    exact ⟨h, hsame⟩

end Close

section Open

variable {settings : Settings} {options : EditorOpenOptions E} {i : Int}

theorem spliceInsert_spec (h : Listed m) (he : e ∉ m.editors)
    (hi : 0 ≤ i) (hle : i ≤ m.editors.length) : ∃ a b, m.editors = a ++ b ∧ (a.length : Int) = i ∧
    (m.spliceInsert i e).editors = a ++ e :: b ∧ Listed (m.spliceInsert i e) ∧
    ∀ x, m.mru.head? = some x → (m.spliceInsert i e).mru.head? = some x := by
  obtain ⟨a, b, hsplit, ha, hinsert⟩ := exists_insertAt hi hle e
  have hperm : (a ++ e :: b).Perm (e :: m.editors) := hsplit ▸ perm_middle
  have heditors : (m.spliceInsert i e).editors = a ++ e :: b := hinsert
  have hmru : (m.spliceInsert i e).mru.Perm (e :: m.mru) ∧
      ∀ x, m.mru.head? = some x → (m.spliceInsert i e).mru.head? = some x := by
    rw [spliceInsert]
    cases m.mru with
    | nil => exact ⟨.refl _, fun x hx => nomatch hx⟩
    | cons y rest =>
      have hsecond : insertAt (y :: rest) 1 e = y :: e :: rest := @insertAt_split _ [y] rest e
      simp only [reduceCtorEq, if_false, hsecond]
      exact ⟨.swap e y rest, fun x hx => hx⟩
  refine ⟨a, b, hsplit, ha, heditors, ⟨?_, ?_⟩, hmru.2⟩
  · rw [heditors, hperm.nodup_iff]
    exact nodup_cons.mpr ⟨he, h.nodup⟩
  · rw [heditors]
    exact (hmru.1.trans (h.mru.cons e)).trans hperm.symm

variable [DecidableEq E]

theorem targetIndex_spec (h : Consistent m) (hindex : ∀ i ∈ options.index, i ≤ m.editors.length) :
    0 ≤ m.targetIndex settings options ∧ m.targetIndex settings options ≤ m.editors.length ∧
    (m.makeSticky options = false → m.sticky + 1 ≤ m.targetIndex settings options) ∧ (m.makeSticky
    options = true → options.sticky = false → m.targetIndex settings options ≤ m.sticky) := by
  have hge := h.sticky_ge
  have hlt := h.sticky_lt
  have hbehind (j : Int) (hj : 0 ≤ j) (hle : j ≤ m.editors.length) :
      let j' := if !m.makeSticky options && m.isSticky j then m.sticky + 1 else j
      0 ≤ j' ∧ j' ≤ m.editors.length ∧ (m.makeSticky options = false → m.sticky + 1 ≤ j') := by
    dsimp only
    split
    · omega
    · rename_i hnot
      refine ⟨hj, hle, fun hsticky => ?_⟩
      rw [hsticky, Bool.not_false, Bool.true_and, isSticky_iff] at hnot
      omega
  have hnone (hoptions : options.index = none) :
      m.makeSticky options = true → options.sticky = false → False := by
    rw [makeSticky, hoptions]
    simp
  have hbefore {e : E} (he : e ∈ m.editors) : 0 ≤ indexOf (some e) m.editors ∧
      indexOf (some e) m.editors + 1 ≤ m.editors.length := by
    obtain ⟨a, b, hsplit, ha⟩ := eq_append_cons_of_mem he
    rw [hsplit, indexOf_split ha, length_append, length_cons]
    omega
  rw [targetIndex]
  cases hoptions : options.index with
  | some j =>
    have hle : j ≤ m.editors.length := hindex j hoptions
    dsimp only
    refine ⟨by simp, by exact_mod_cast hle, fun hsticky => ?_, fun hsticky hnot => ?_⟩
    · rw [makeSticky, hoptions, Option.any_some, Bool.or_eq_false_iff,
        Bool.eq_false_iff (b := m.isSticky j), ne_eq, isSticky_iff] at hsticky
      omega
    · rw [makeSticky, hoptions, hnot, Option.any_some, Bool.false_or, isSticky_iff] at hsticky
      exact hsticky.2
  | none =>
    have hadd {t : Int} (ht : 0 ≤ t ∧ t ≤ m.editors.length ∧
        (m.makeSticky options = false → m.sticky + 1 ≤ t)) :
        0 ≤ t ∧ t ≤ m.editors.length ∧ (m.makeSticky options = false → m.sticky + 1 ≤ t) ∧
          (m.makeSticky options = true → options.sticky = false → t ≤ m.sticky) :=
      ⟨ht.1, ht.2.1, ht.2.2, fun hsticky hnot => (hnone hoptions hsticky hnot).elim⟩
    cases settings.editorOpenPositioning with
    | first => exact hadd (hbehind 0 (le_refl _) (by omega))
    | last => exact hadd ⟨by dsimp only; omega, le_refl _, fun _ => by dsimp only; omega⟩
    | left =>
      dsimp only
      split
      · exact hadd (hbehind 0 (le_refl _) (by omega))
      · rename_i hnot
        rw [not_or] at hnot
        obtain ⟨e, hactive, he⟩ := h.active_isSome h.toListed hnot.2
        rw [hactive]
        exact hadd (hbehind _ (hbefore he).1 (by have := (hbefore he).2; omega))
    | right =>
      dsimp only
      cases hactive : m.active with
      | none => exact hadd (hbehind _ (by simp [indexOf]) (by simp [indexOf]))
      | some e =>
        have he := h.active_mem hactive
        exact hadd (hbehind _ (by have := (hbefore he).1; omega) (hbefore he).2)

def openSticky (m : EditorGroupModel E) (options : EditorOpenOptions E) : Int :=
  if m.makeSticky options then m.sticky + 1 else m.sticky

def openIndex (m : EditorGroupModel E) (settings : Settings) (options : EditorOpenOptions E) :
    Int :=
  if m.makeSticky options ∧ ¬ (0 ≤ m.targetIndex settings options ∧
    m.targetIndex settings options ≤ m.openSticky options) then m.openSticky options
  else m.targetIndex settings options

def openTransient (m : EditorGroupModel E) (options : EditorOpenOptions E) (e : E) : Finset E :=
  if options.transient then insert e m.transient else m.transient

theorem openNewEditor_eq :
    m.openNewEditor settings options e =
      (let m₁ := { m with sticky := m.openSticky options }
      let m₂ := if makePinned options ∨ m.preview = none then
        m₁.spliceInsert (m.openIndex settings options) e else m₁
      let m₃ := { m₂ with transient := m₂.openTransient options e }
      let m₄ :=
        if makePinned options then m₃
        else
          let m' := match m₃.preview with
            | none => m₃
            | some preview =>
              m₃.replaceEditor settings preview e
                (if indexOf (some preview) m₃.editors < m.openIndex settings options then
                  m.openIndex settings options - 1 else m.openIndex settings options)
                (!m.makeActive options)
          { m' with preview := some e }
      m₄.setSelection (if m.makeActive options then some e else m₄.active)
        options.inactiveSelection) := by
  rw [openNewEditor]
  have hsticky : (if m.makeSticky options then { m with sticky := m.sticky + 1 } else m) =
      { m with sticky := m.openSticky options } := by
    rw [openSticky]
    split <;> rfl
  have hindex : (if m.makeSticky options ∧ ¬ (0 ≤ m.targetIndex settings options ∧
      m.targetIndex settings options ≤ m.openSticky options) then m.openSticky options
    else m.targetIndex settings options) = m.openIndex settings options := rfl
  have htransient (m' : EditorGroupModel E) : (if options.transient then m'.doSetTransient e true
      else m') = { m' with transient := m'.openTransient options e } := by
    rw [openTransient]
    split <;> rfl
  simp only [hsticky, isSticky_iff, hindex, htransient]
  all_goals rfl

theorem openNewEditor_inserts (h : makePinned options = true ∨ m.preview = none) :
    m.openNewEditor settings options e =
      setSelection { m.spliceInsert (m.openIndex settings options) e with
        sticky := m.openSticky options
        transient := m.openTransient options e
        preview := if makePinned options then m.preview else some e }
        (if m.makeActive options then some e else m.active) options.inactiveSelection := by
  rw [openNewEditor_eq]
  dsimp only
  rw [if_pos h]
  cases hpinned : makePinned options with
  | true => rfl
  | false =>
    have hpreview := h.resolve_left (by rw [hpinned]; exact Bool.false_ne_true)
    simp only [spliceInsert, hpreview]
    rfl

theorem openNewEditor_replaces (h : makePinned options = false) (hp : m.preview = some p) :
    m.openNewEditor settings options e =
      (let closed := doCloseEditor { m with
          sticky := m.openSticky options
          transient := m.openTransient options e } settings p (!m.makeActive options)
      setSelection { closed.spliceInsert
          (if indexOf (some p) m.editors < m.openIndex settings options then
            m.openIndex settings options - 1 else m.openIndex settings options) e with
        preview := some e } (if m.makeActive options then some e else closed.active)
        options.inactiveSelection) := by
  rw [openNewEditor_eq]
  dsimp only
  rw [if_neg (by rw [h]; exact Bool.false_ne_true)]
  simp only [h, hp]
  rfl

theorem openIndex_spec (h : Consistent m) (hindex : ∀ i ∈ options.index, i ≤ m.editors.length) :
    let s := m.openSticky options
    let t := m.openIndex settings options
    0 ≤ t ∧ t ≤ m.editors.length ∧ (s = m.sticky + 1 ∧ t ≤ m.sticky + 1 ∨
      s = m.sticky ∧ m.sticky + 1 ≤ t) ∧
      (options.sticky = false → s = m.sticky + 1 → t ≤ m.sticky) := by
  obtain ⟨hge, hle, hnot, hsticky⟩ := @targetIndex_spec _ m settings options _ h hindex
  have hlow := h.sticky_ge
  have hhigh := h.sticky_lt
  dsimp only [openIndex, openSticky]
  generalize m.targetIndex settings options = target at *
  by_cases hmake : m.makeSticky options = true
  · have hsticky := hsticky hmake
    simp only [hmake, if_true, true_and]
    by_cases hin : 0 ≤ target ∧ target ≤ m.sticky + 1
    · rw [if_neg (not_not.mpr hin)]
      exact ⟨hge, hle, .inl hin.2, fun hoption _ => hsticky hoption⟩
    · rw [if_pos hin]
      exact ⟨by omega, by omega, .inl (le_refl _), fun hoption _ => by
        have := hsticky hoption
        omega⟩
  · have hnot := hnot (Bool.eq_false_of_not_eq_true hmake)
    simp only [hmake, Bool.false_eq_true, if_false, false_and]
    exact ⟨hge, hle, .inr ⟨trivial, hnot⟩, fun _ hadd => by omega⟩

theorem Consistent.of_setSelection {candidates : List E} (hlisted : Listed m)
    (hpreview : ∀ x ∈ m.preview, x ∈ m.editors) (htransient : ∀ x ∈ m.transient, x ∈ m.editors)
    (hge : -1 ≤ m.sticky) (hlt : m.sticky < m.editors.length) (hx : x ∈ m.editors)
    (hmem : ∀ x ∈ candidates, x ∈ m.editors) (hhead : m.active = some x → m.mru.head? = some x) :
    Consistent (m.setSelection (some x) candidates) := by
  obtain ⟨hlisted', hselected⟩ := setSelection_spec hlisted hx hmem hhead
  obtain ⟨heditors, hsticky, hpreview', htransient'⟩ :=
    @setSelection_rest _ m _ (some x) candidates
  exact ⟨hlisted', hselected, by rw [hpreview', heditors]; exact hpreview,
    by rw [htransient', heditors]; exact htransient, by rw [hsticky]; exact hge,
    by rw [hsticky, heditors]; exact hlt⟩

theorem openTransient_subset (h : Consistent m) (hx : x ∈ m.openTransient options e) :
    x = e ∨ x ∈ m.editors := by
  rw [openTransient] at hx
  split at hx
  · exact (Finset.mem_insert.mp hx).imp_right (h.transient x)
  · exact .inr (h.transient x hx)

theorem openNewEditor_of_inserts
    (h : Consistent m) (he : e ∉ m.editors) (hindex : ∀ i ∈ options.index, i ≤ m.editors.length)
    (hinactive : ∀ x ∈ options.inactiveSelection, x ∈ m.editors)
    (hinsert : makePinned options = true ∨ m.preview = none) : Consistent
    (m.openNewEditor settings options e) ∧ SameBut [e] m (m.openNewEditor settings options e) := by
  obtain ⟨hge, hle, hput, -⟩ := @openIndex_spec _ m settings options _ h hindex
  obtain ⟨a, b, hsplit, ha, heditors, hlisted, hhead⟩ := spliceInsert_spec h.toListed he hge hle
  have hlow := h.sticky_ge
  have hhigh := h.sticky_lt
  rw [openNewEditor_inserts hinsert]
  have hmem {x : E} (hx : x = e ∨ x ∈ m.editors) :
      x ∈ (m.spliceInsert (m.openIndex settings options) e).editors := by
    rw [heditors, List.mem_append, mem_cons]
    rw [hsplit, List.mem_append] at hx
    tauto
  constructor
  · have hnew {x : E} (hx : m.active = some x) : x ≠ e := fun heq => he (heq ▸ h.active_mem hx)
    have hselect {x : E} (hx : x = e ∨ m.active = some x) : Consistent (setSelection
        { m.spliceInsert (m.openIndex settings options) e with
          sticky := m.openSticky options
          transient := m.openTransient options e
          preview := if makePinned options then m.preview else some e }
        (some x) options.inactiveSelection) := by
      refine .of_setSelection ⟨hlisted.nodup, hlisted.mru⟩ (fun y hy => hmem ?_)
        (fun y hy => hmem (openTransient_subset h hy)) ?_ ?_
        (hmem (hx.imp_right h.active_mem)) (fun y hy => hmem (.inr (hinactive y hy)))
        fun hactive => hhead x ?_
      · dsimp only at hy
        split at hy
        · exact .inr (h.preview y hy)
        · exact .inl (Option.some.inj hy).symm
      · dsimp only
        omega
      · dsimp only
        rw [heditors, length_append, length_cons]
        rw [hsplit, length_append] at hhigh hle
        omega
      · rw [← h.active]
        exact hactive
    cases hmake : m.makeActive options with
    | true => exact hselect (.inl rfl)
    | false =>
      cases hactive : m.active with
      | none => simp [makeActive, hactive] at hmake
      | some x => exact hselect (.inr hactive)
  · refine .trans ?_ (.of_eq setSelection_rest.1 setSelection_rest.2.1)
    refine .of_opened h.sticky_ge hsplit heditors ?_
    rw [PutIn, ha]
    exact hput

/-- A new editor takes the place of the preview. The selection is the old one if the preview was
active and no other editor is opened. -/
structure Replaces (m m' : EditorGroupModel E) (e p : E) (c d : List E) (openNext : Bool) : Prop
    where
  editors : m'.editors = c ++ e :: d
  listed : Listed m'
  preview : m'.preview = some e
  transient : ∀ x ∈ m'.transient, x ∈ m'.editors
  selected : m.active ≠ some p → Selected m'
  active : openNext = false → m.active = some p → m'.active = some p

theorem replaceEditor_spec {T : Finset E} {openNext : Bool} (h : Consistent m) (he : e ∉ m.editors)
    (hsplit : m.editors = a ++ p :: b) (hT : ∀ x ∈ T, x = e ∨ x ∈ m.editors) (hge : 0 ≤ i)
    (hle : i ≤ (a ++ b).length) :
    let closed := doCloseEditor { m with sticky := s, transient := T } settings p openNext
    ∃ c d, c ++ d = a ++ b ∧ (c.length : Int) = i ∧ closed.sticky = takenOut s a.length ∧
      Replaces m { closed.spliceInsert i e with preview := some e } e p c d openNext := by
  have hcloses : Closes { m with sticky := s, transient := T }
      (doCloseEditor { m with sticky := s, transient := T } settings p openNext) p a b openNext :=
    doCloseEditor_spec ⟨h.nodup, h.mru⟩ ⟨h.selection_nodup, h.selection_mem, h.active⟩ hsplit
  intro closed
  have hold {x : E} (hx : x ∈ closed.editors) : x ∈ m.editors := by
    rw [hcloses.editors, List.mem_append] at hx
    rw [hsplit, List.mem_append, mem_cons]
    tauto
  obtain ⟨c, d, hsplit', hc, heditors, hlisted, hhead⟩ :=
    spliceInsert_spec hcloses.listed (fun hx => he (hold hx)) hge (hcloses.editors ▸ hle)
  have hmem {x : E} (hx : x = e ∨ x ∈ closed.editors) : x ∈ (closed.spliceInsert i e).editors := by
    rw [heditors, List.mem_append, mem_cons]
    rw [hsplit', List.mem_append] at hx
    tauto
  refine ⟨c, d, hsplit'.symm.trans hcloses.editors, hc, hcloses.sticky, heditors, ⟨hlisted.nodup,
    hlisted.mru⟩, rfl, fun x hx => hmem ?_, fun hactive => ?_, fun hopen hactive => ?_⟩
  · replace hx : x ∈ closed.transient := hx
    rw [hcloses.transient, Finset.mem_erase] at hx
    refine (hT x hx.2).imp_right fun hin => ?_
    rw [hcloses.editors, List.mem_append]
    rw [hsplit, List.mem_append, mem_cons] at hin
    tauto
  · have hselected := hcloses.selected (.inr hactive)
    obtain ⟨x, hx, -⟩ := h.active_isSome h.toListed (by rw [hsplit]; simp)
    have hx : closed.active = some x := (hcloses.active hactive).trans hx
    refine ⟨hselected.selection_nodup, fun y hy => hmem (.inr (hselected.selection_mem y hy)), ?_⟩
    exact hx.trans (hhead x (hselected.active.symm.trans hx)).symm
  · exact (congrArg List.head? (hcloses.selection hopen hactive)).trans hactive

theorem openNewEditor_of_replaces
    (h : Consistent m) (he : e ∉ m.editors) (hindex : ∀ i ∈ options.index, i ≤ m.editors.length)
    (hinactive : ∀ x ∈ options.inactiveSelection, x ∈ m.editors)
    (hpinned : makePinned options = false)
    (hp : m.preview = some p) (hselected : m.active = some p → p ∉ options.inactiveSelection)
    (hfirst : m.makeSticky options = true → indexOf (some p) m.editors ≠ m.sticky + 1) :
    Consistent (m.openNewEditor settings options e) ∧ SameBut [e, p] m
    (m.openNewEditor settings options e) ∧ p ∉ (m.openNewEditor settings options e).editors := by
  obtain ⟨hge, hle, hput, hbefore⟩ := @openIndex_spec _ m settings options _ h hindex
  have hbefore := hbefore (Bool.or_eq_false_iff.mp hpinned).2
  have hlow := h.sticky_ge
  have hhigh := h.sticky_lt
  obtain ⟨a, b, hsplit, ha⟩ := eq_append_cons_of_mem (h.preview p hp)
  have hlength : m.editors.length = (a ++ b).length + 1 := by
    rw [hsplit, length_append, length_append, length_cons, ← Nat.add_assoc]
  have hsticky : m.openSticky options = m.sticky + 1 → (a.length : Int) ≠ m.sticky + 1 := by
    rw [openSticky]
    split
    · rename_i hmake
      rw [hsplit, indexOf_split ha] at hfirst
      exact fun _ => hfirst hmake
    · omega
  rw [openNewEditor_replaces hpinned hp]
  dsimp only
  rw [show indexOf (some p) m.editors = a.length by rw [hsplit, indexOf_split ha]]
  generalize m.openIndex settings options = t at hge hle hput hbefore
  obtain ⟨i, hi, hige, hile⟩ : ∃ i : Int, (if (a.length : Int) < t then t - 1 else t) = i ∧
      0 ≤ i ∧ i ≤ (a ++ b).length := by
    refine ⟨_, rfl, ?_⟩
    rw [length_append] at hlength ⊢
    split <;> omega
  obtain ⟨c, d, hrest, hc, hclosedSticky, hreplaces⟩ :=
    @replaceEditor_spec _ m e p a b (m.openSticky options) settings i _
      (m.openTransient options e) (!m.makeActive options) h he hsplit
      (fun x hx => openTransient_subset h hx) hige hile
  rw [hi]
  generalize doCloseEditor { m with
    sticky := m.openSticky options
    transient := m.openTransient options e } settings p (!m.makeActive options) = closed at *
  have hout : p ∉ c ++ d := hrest ▸ (nodup_cons.mp (nodup_middle.mp (hsplit ▸ h.nodup))).1
  have hput' : PutIn (takenOut m.sticky a.length) closed.sticky c.length := by
    rw [hclosedSticky, PutIn, hc, ← hi, takenOut, takenOut]
    rcases hput with ⟨hadd, -⟩ | ⟨heq, ht⟩
    · have hne := hsticky hadd
      have ht := hbefore hadd
      rw [hadd]
      split <;> split <;> split <;> omega
    · rw [heq]
      split <;> split <;> omega
  have hsame : SameBut [e, p] m { closed.spliceInsert i e with preview := some e } := by
    have hclosed : SameBut [p] m { m with
        editors := a ++ b
        sticky := takenOut m.sticky a.length } := .of_closed hlow hsplit rfl rfl
    have hopened : SameBut [e] { m with
        editors := a ++ b
        sticky := takenOut m.sticky a.length } { closed.spliceInsert i e with preview := some e } :=
      .of_opened (takenOut_ge hlow) hrest.symm hreplaces.editors hput'
    exact (hclosed.mono (by simp)).trans (hopened.mono (by simp))
  have hbounds : -1 ≤ closed.sticky ∧ closed.sticky < (c ++ e :: d).length := by
    have hle : a.length ≤ (a ++ b).length := by simp
    rw [length_append, length_cons, ← Nat.add_assoc, ← length_append, hrest, ← hlength]
    rw [PutIn, takenOut] at hput'
    split at hput' <;> omega
  have hmem {x : E} (hx : x ∈ m.editors) (hne : x ≠ p) : x ∈ c ++ e :: d := by
    refine perm_middle.symm.subset (mem_cons_of_mem e ?_)
    rw [hrest]
    rw [hsplit] at hx
    exact (mem_cons.mp (perm_middle.subset hx)).resolve_left hne
  have hpreview : ∀ x ∈ some e, x ∈ c ++ e :: d := fun x hx => by
    rw [← Option.some.inj hx]
    simp
  have hclosedSticky' : ({ closed.spliceInsert i e with preview := some e } :
    EditorGroupModel E).sticky = closed.sticky := rfl
  generalize { closed.spliceInsert i e with preview := some e } = m' at *
  rw [← hclosedSticky', ← hreplaces.editors] at hbounds
  rw [← hreplaces.preview, ← hreplaces.editors] at hpreview
  refine ⟨?_, hsame.trans (.of_eq setSelection_rest.1 setSelection_rest.2.1), ?_⟩
  · by_cases hactive : m.active = some p
    · have hmake : m.makeActive options = true := by simp [makeActive, hpinned, hp, hactive]
      rw [hmake] at hreplaces ⊢
      have hactive' := hreplaces.active rfl hactive
      refine .of_setSelection hreplaces.listed hpreview hreplaces.transient hbounds.1 hbounds.2
        (hpreview e hreplaces.preview) (fun x hx => ?_) fun heq => ?_
      · rw [hreplaces.editors]
        exact hmem (hinactive x hx) fun heq => hselected hactive (heq ▸ hx)
      · rw [hactive'] at heq
        exact (he (Option.some.inj heq ▸ h.preview p hp)).elim
    · have hconsistent : Consistent _ := ⟨hreplaces.listed, hreplaces.selected hactive, hpreview,
        hreplaces.transient, hbounds.1, hbounds.2⟩
      exact (@setSelection_consistent _ _ [] _ _ _ hconsistent).1
  · rw [setSelection_rest.1, hreplaces.editors, List.mem_append, mem_cons]
    rw [List.mem_append] at hout
    have hne : p ≠ e := fun heq => he (heq ▸ h.preview p hp)
    exact fun hx => hout (hx.imp_right fun hx => hx.resolve_left hne)

theorem openExistingEditor_consistent (h : Consistent m) (he : e ∈ m.editors) : Consistent
    (m.openExistingEditor options e) ∧ SameBut [e] m (m.openExistingEditor options e) := by
  have h₁ : Consistent (m.doSetTransient e (options.transient && decide (e ∈ m.transient))) := by
    refine { h with transient := fun x hx => ?_ }
    rw [doSetTransient] at hx
    dsimp only at hx
    split at hx
    · rcases Finset.mem_insert.mp hx with rfl | hx
      · exact he
      · exact h.transient x hx
    · exact h.transient x (Finset.mem_of_mem_erase hx)
  rw [openExistingEditor]
  generalize hm₁ : m.doSetTransient e (options.transient && decide (e ∈ m.transient)) = m₁ at *
  have heditors₁ : m₁.editors = m.editors := hm₁ ▸ rfl
  have hsticky₁ : m₁.sticky = m.sticky := hm₁ ▸ rfl
  have h₂ : Consistent (if makePinned options then m₁.doPin e else m₁) ∧
      (if makePinned options then m₁.doPin e else m₁).editors = m₁.editors ∧
      (if makePinned options then m₁.doPin e else m₁).sticky = m₁.sticky := by
    split
    · exact doPin_consistent h₁
    · exact ⟨h₁, rfl, rfl⟩
  generalize (if makePinned options then m₁.doPin e else m₁) = m₂ at *
  obtain ⟨h₃, hsame₃⟩ := @setSelection_consistent _ m₂ [e] _
    (if m.makeActive options then some e else m₂.active) options.inactiveSelection h₂.1
  have heditors₃ := (@setSelection_rest _ m₂ _ (if m.makeActive options then some e else m₂.active)
    options.inactiveSelection).1
  generalize m₂.setSelection (if m.makeActive options then some e else m₂.active)
    options.inactiveSelection = m₃ at *
  have he₃ : e ∈ m₃.editors := by
    rw [heditors₃, h₂.2.1, heditors₁]
    exact he
  have hsame : SameBut [e] m m₃ :=
    .trans (.of_eq (h₂.2.1.trans heditors₁) (h₂.2.2.trans hsticky₁)) hsame₃
  have hstick : ∀ m₄ : EditorGroupModel E, Consistent m₄ → SameBut [e] m m₄ → e ∈ m₄.editors →
      Consistent (if m.makeSticky options then m₄.doStick e (indexOf (some e) m₄.editors) else m₄) ∧
      SameBut [e] m
        (if m.makeSticky options then m₄.doStick e (indexOf (some e) m₄.editors) else m₄) := by
    intro m₄ h₄ hsame₄ he₄
    split
    · obtain ⟨h₅, hsame₅⟩ := doStick_consistent h₄ he₄
      exact ⟨h₅, hsame₄.trans hsame₅⟩
    · exact ⟨h₄, hsame₄⟩
  cases options.index with
  | none => exact hstick m₃ h₃ hsame he₃
  | some index =>
    obtain ⟨h₄, hsame₄⟩ := @moveEditor_consistent _ m₃ e _ index h₃
    exact hstick _ h₄ (hsame.trans hsame₄) (mem_moveEditor h₃ he₃)

end Open

end CodeOss.EditorGroup.EditorGroupModel
