import CodeOss.Ui.SplitView

/-! After each operation every view of a split view lies within its limits, and together they
fill the split view as far as the limits allow. -/

namespace CodeOss.Ui

open List

namespace ViewItem

variable {item : ViewItem} {size : ℚ}

theorem minimumSize_le (item : ViewItem) : (item.minimumSize : WithTop ℚ) ≤ item.maximumSize := by
  rw [minimumSize, maximumSize]
  split
  · exact item.view.le
  · exact le_refl _

def limits (item : ViewItem) : Limits ℚ := ⟨item.minimumSize, item.maximumSize, item.minimumSize_le⟩

theorem inLimits_clampSize : ({ item with size := item.clampSize size } : ViewItem).InLimits :=
  @Limits.clamp_mem _ _ item.limits _

theorem inLimits_cases : item.InLimits ↔ (item.visible = true → item.view.minimumSize ≤ item.size ∧
    item.size ≤ item.view.maximumSize) ∧ (item.visible = false → item.size = 0) := by
  rw [InLimits, minimumSize, maximumSize]
  cases item.visible with
  | true => simp
  | false =>
    have hzero : (item.size : WithTop ℚ) ≤ 0 ↔ item.size ≤ 0 := WithTop.coe_le_coe
    rw [if_neg Bool.false_ne_true, if_neg Bool.false_ne_true]
    exact ⟨fun h => ⟨fun htrue => absurd htrue Bool.false_ne_true,
      fun _ => le_antisymm (hzero.mp h.2) h.1⟩,
      fun h => ⟨(h.2 rfl).ge, hzero.mpr (h.2 rfl).le⟩⟩

theorem share_nonneg {rest : ℚ} (h : item.InLimits) (hrest : 0 ≤ rest) : 0 ≤ rest - (item.clampSize
    (item.size + rest) - item.size) ∧ (rest - (item.clampSize (item.size + rest) - item.size) ≠ 0 →
    (item.clampSize (item.size + rest) : WithTop ℚ) = item.maximumSize) :=
  @Limits.share_nonneg _ _ _ _ item.limits _ _ h hrest

theorem share_nonpos {rest : ℚ} (h : item.InLimits) (hrest : rest ≤ 0) :
    rest - (item.clampSize (item.size + rest) - item.size) ≤ 0 ∧ (rest - (item.clampSize
    (item.size + rest) - item.size) ≠ 0 → item.clampSize (item.size + rest) = item.minimumSize) :=
  @Limits.share_nonpos _ _ _ _ item.limits _ _ h hrest

theorem setVisible_inLimits {visible : Bool} (h : item.visible = visible → item.InLimits) :
    (item.setVisible visible none).InLimits := by
  rw [ViewItem.visible] at h
  unfold setVisible
  cases visible with
  | true =>
    cases hcached : item.cachedVisibleSize with
    | none => exact h (by rw [hcached]; rfl)
    | some cachedVisibleSize =>
      exact @Limits.clamp_mem _ _ ⟨item.view.minimumSize, item.view.maximumSize, item.view.le⟩ _
  | false =>
    cases hcached : item.cachedVisibleSize with
    | none => exact ⟨le_refl 0, le_refl 0⟩
    | some cachedVisibleSize => exact h (by rw [hcached]; rfl)

end ViewItem

section Indexes

variable {arr low high : List ℕ} {i value index length : ℕ}

theorem pushToStart_perm : (pushToStart arr value).Perm arr := by
  rw [pushToStart]
  split
  · exact (perm_cons_erase ‹_›).symm
  · exact .refl _

theorem pushToEnd_perm : (pushToEnd arr value).Perm arr := by
  rw [pushToEnd]
  split
  · exact (perm_append_singleton _ _).trans (perm_cons_erase ‹_›).symm
  · exact .refl _

theorem foldl_perm {push : List ℕ → ℕ → List ℕ} (h : ∀ arr value, (push arr value).Perm arr)
    (values : List ℕ) : (values.foldl push arr).Perm arr := by
  induction values generalizing arr with
  | nil => exact .refl _
  | cons value values ih => exact ih.trans (h arr value)

theorem mem_prioritized : i ∈ prioritized arr low high ↔ i ∈ arr :=
  ((foldl_perm (fun _ _ => pushToEnd_perm) low).trans
    (foldl_perm (fun _ _ => pushToStart_perm) high)).mem_iff

theorem mem_upFrom : i ∈ upFrom index ↔ i ≤ index := by
  rw [upFrom, mem_reverse, mem_range, Nat.lt_succ_iff]

theorem mem_downFrom : i ∈ downFrom index length ↔ index ≤ i ∧ i < length := by
  rw [downFrom, mem_range'_1]
  omega

end Indexes

section Passes

variable {items : List ViewItem} {item : ViewItem} {sizes : List ℚ} {indexes : List ℕ} {i : ℕ}
  {delta rest size : ℚ}

/-- All views but those at the indexes have the property. -/
def AllBut (P : ViewItem → Prop) (indexes : List ℕ) (items : List ViewItem) : Prop :=
  ∀ j item, items[j]? = some item → j ∉ indexes → P item

variable {P : ViewItem → Prop}

theorem allBut_nil : AllBut P [] items ↔ ∀ item ∈ items, P item := by
  constructor
  · intro h item hitem
    obtain ⟨j, hj⟩ := mem_iff_getElem?.mp hitem
    exact h j item hj not_mem_nil
  · exact fun h j item hj _ => h item (mem_of_getElem? hj)

theorem AllBut.set (h : AllBut P (i :: indexes) items) (hP : P item) :
    AllBut P indexes (items.set i item) := by
  intro j item' hj hnot
  rw [getElem?_set] at hj
  split at hj
  · split at hj
    · cases hj
      exact hP
    · cases hj
  · rename_i hne
    exact h j item' hj (not_mem_cons_of_ne_of_not_mem (Ne.symm hne) hnot)

theorem AllBut.skip (h : AllBut P (i :: indexes) items) (hi : items[i]? = none) :
    AllBut P indexes items := by
  intro j item hj hnot
  refine h j item hj (not_mem_cons_of_ne_of_not_mem (fun heq => ?_) hnot)
  rw [heq, hi] at hj
  cases hj

theorem grow_inLimits {others : List ℕ} (hsizes : items.length ≤ sizes.length)
    (h : AllBut ViewItem.InLimits (indexes ++ others) items) :
    AllBut ViewItem.InLimits others (grow sizes indexes delta items) := by
  induction indexes generalizing delta items with
  | nil => exact h
  | cons i indexes ih =>
    rw [grow]
    cases hitem : items[i]? with
    | none => exact ih hsizes (h.skip hitem)
    | some item =>
      obtain ⟨hlt, -⟩ := List.getElem?_eq_some_iff.mp hitem
      rw [getElem?_eq_getElem (hlt.trans_le hsizes)]
      exact ih (by rwa [List.length_set]) (h.set ViewItem.inLimits_clampSize)

theorem length_grow : (grow sizes indexes delta items).length = items.length := by
  induction indexes generalizing delta items with
  | nil => rfl
  | cons i indexes ih =>
    rw [grow]
    split
    · rw [ih, List.length_set]
    · exact ih

theorem contentSizeOf_set (h : items[i]? = some item) : contentSizeOf (items.set i { item with size
    }) = contentSizeOf items + (size - item.size) := by
  obtain ⟨hlt, hitem⟩ := List.getElem?_eq_some_iff.mp h
  rw [contentSizeOf, contentSizeOf, map_set, sum_set',
    dif_pos (by rwa [length_map]), getElem_map, hitem]
  ring

/-- Shares in one direction (`Sign`) leave the bound (`Bound`) only when nothing is left. -/
theorem fill_spec {Sign : ℚ → Prop} {Bound : ViewItem → Prop}
    (hshare : ∀ item rest, ViewItem.InLimits item → Sign rest →
      Sign (rest - (item.clampSize (item.size + rest) - item.size)) ∧
      (rest - (item.clampSize (item.size + rest) - item.size) ≠ 0 →
        Bound { item with size := item.clampSize (item.size + rest) }))
    (hlimits : ∀ item ∈ items, item.InLimits) (hsign : Sign rest)
    (hbound : rest = 0 ∨ AllBut Bound indexes items) :
    (∀ item ∈ fill indexes rest items, item.InLimits) ∧
    ∃ left, Sign left ∧
      contentSizeOf (fill indexes rest items) + left = contentSizeOf items + rest ∧
      (left = 0 ∨ ∀ item ∈ fill indexes rest items, Bound item) := by
  induction indexes generalizing rest items with
  | nil => exact ⟨hlimits, rest, hsign, rfl, hbound.imp_right allBut_nil.mp⟩
  | cons i indexes ih =>
    rw [fill]
    by_cases hzero : rest = 0
    · rw [if_pos hzero]
      exact ⟨hlimits, rest, hsign, rfl, .inl hzero⟩
    rw [if_neg hzero]
    have hall := hbound.resolve_left hzero
    cases hitem : items[i]? with
    | none => exact ih hlimits hsign (.inr (hall.skip hitem))
    | some item =>
      obtain ⟨hleft, hfull⟩ :=
        hshare item rest (hlimits item (List.mem_of_getElem? hitem)) hsign
      have hlimits' : ∀ item' ∈ items.set i
          { item with size := item.clampSize (item.size + rest) }, item'.InLimits := by
        intro item' hmem
        rcases List.mem_or_eq_of_mem_set hmem with hold | rfl
        · exact hlimits item' hold
        · exact ViewItem.inLimits_clampSize
      obtain ⟨hkept, left, hsign', hsum, hdone⟩ := ih hlimits' hleft
        (or_iff_not_imp_left.mpr fun hne => hall.set (hfull hne))
      refine ⟨hkept, left, hsign', ?_, hdone⟩
      rw [contentSizeOf_set hitem] at hsum
      exact hsum.trans (by ring)

theorem emptySpaceOrder_all {P : ViewItem → Prop} {low : Option ℕ} :
    AllBut P (emptySpaceOrder items low) items := by
  intro j item hj hnot
  obtain ⟨hlt, -⟩ := List.getElem?_eq_some_iff.mp hj
  refine absurd ?_ hnot
  rw [emptySpaceOrder, mem_prioritized, List.mem_reverse, List.mem_range]
  exact hlt

theorem resize_inLimits {index : ℤ} {low high : List ℕ} {minDelta : WithBot ℚ}
    {maxDelta : WithTop ℚ} (hindex : 0 ≤ index) (hlt : index < items.length)
    (hsizes : items.length ≤ sizes.length) :
    ∀ item ∈ (resize items index delta sizes low high minDelta maxDelta).1, item.InLimits := by
  rw [resize, if_neg (by omega)]
  refine allBut_nil.mp (grow_inLimits (by rwa [length_grow]) (grow_inLimits hsizes ?_))
  intro j item hj hnot
  obtain ⟨hj', -⟩ := List.getElem?_eq_some_iff.mp hj
  rw [append_nil, List.mem_append, mem_prioritized, mem_prioritized, mem_upFrom,
    mem_downFrom] at hnot
  omega

theorem length_resize {index : ℤ} {low high : List ℕ} {minDelta : WithBot ℚ}
    {maxDelta : WithTop ℚ} :
    (resize items index delta sizes low high minDelta maxDelta).1.length = items.length := by
  rw [resize]
  split
  · rfl
  · rw [length_grow, length_grow]

end Passes

namespace SplitView

variable {s s' : SplitView}

theorem LaidOut.inLimits (h : s.LaidOut) : s.InLimits := fun item hitem =>
  ViewItem.inLimits_cases.mpr ⟨h.visible item hitem, h.hidden item hitem⟩

theorem saveProportions_laidOut (h : s.LaidOut) : s.saveProportions.LaidOut := by
  rw [saveProportions]
  split
  · exact ⟨h.visible, h.hidden, h.total, h.content⟩
  · exact h

def slots (items : List ViewItem) : List (Limits ℚ × ℚ) :=
  items.map fun item => (item.limits, item.size)

theorem fill_shared {items : List ViewItem} {rest : ℚ} (h : ∀ item ∈ items, item.InLimits)
    (low : Option ℕ) : (∀ item ∈ fill (emptySpaceOrder items low) rest items, item.InLimits) ∧
    ∃ left, contentSizeOf (fill (emptySpaceOrder items low) rest items) + left = contentSizeOf
    items + rest ∧ Limits.Shared (slots (fill (emptySpaceOrder items low) rest items)) left := by
  rcases le_total 0 rest with hpos | hneg
  · obtain ⟨hlimits, left, hleft, hsum, hfull⟩ :=
      @fill_spec _ _ _ (0 ≤ ·) (fun item => (item.size : WithTop ℚ) = item.maximumSize)
        (fun item rest hitem hrest => ViewItem.share_nonneg hitem hrest) h hpos
        (.inr (@emptySpaceOrder_all _ _ low))
    refine ⟨hlimits, left, hsum, ?_⟩
    rcases hleft.eq_or_lt with hzero | hlt
    · exact .inl hzero.symm
    · refine .inr (.inl ⟨hlt, fun slot hslot => ?_⟩)
      obtain ⟨item, hitem, rfl⟩ := List.mem_map.mp hslot
      exact hfull.resolve_left hlt.ne' item hitem
  · obtain ⟨hlimits, left, hleft, hsum, hempty⟩ :=
      @fill_spec _ _ _ (· ≤ 0) (fun item => item.size = item.minimumSize)
        (fun item rest hitem hrest => ViewItem.share_nonpos hitem hrest) h hneg
        (.inr (@emptySpaceOrder_all _ _ low))
    refine ⟨hlimits, left, hsum, ?_⟩
    rcases hleft.eq_or_lt with hzero | hlt
    · exact .inl hzero
    · refine .inr (.inr ⟨hlt, fun slot hslot => ?_⟩)
      obtain ⟨item, hitem, rfl⟩ := List.mem_map.mp hslot
      exact hempty.resolve_left hlt.ne item hitem

theorem laidOut_distributeEmptySpace (h : s.InLimits) (low : Option ℕ) :
    (s.distributeEmptySpace low).layoutViews.LaidOut := by
  obtain ⟨hlimits, left, hsum, hshared⟩ :=
    @fill_shared _ (s.size - contentSizeOf s.viewItems) h low
  refine ⟨fun item hitem => (ViewItem.inLimits_cases.mp (hlimits item hitem)).1,
    fun item hitem => (ViewItem.inLimits_cases.mp (hlimits item hitem)).2, fun _ => ?_, rfl⟩
  have htotal := Limits.sum_eq_clamp (fun slot hslot => by
    obtain ⟨item, hitem, rfl⟩ := mem_map.mp hslot
    exact hlimits item hitem) hshared
  simp only [slots, List.map_map, Function.comp_def] at htotal
  rw [add_sub_cancel] at hsum
  rw [contentSizeOf] at hsum
  rw [hsum] at htotal
  exact htotal

variable {items : List ViewItem} {delta : ℚ} {index : ℤ}

theorem inLimits_resizeAll {low high : List ℕ} : (s.resizeAll delta low high).InLimits := by
  intro item hitem
  rw [resizeAll] at hitem
  by_cases hempty : s.viewItems = []
  · rw [hempty] at hitem
    cases hitem
  · have hpos := length_pos_iff.mpr hempty
    exact resize_inLimits (by omega) (by omega) (by rw [sizes, length_map]) item hitem

theorem relayout_laidOut (low high : List ℕ) : (s.relayout low high).LaidOut :=
  saveProportions_laidOut (laidOut_distributeEmptySpace inLimits_resizeAll none)

theorem distributeViewSizes_laidOut : s.distributeViewSizes.LaidOut := relayout_laidOut _ _

theorem layout_laidOut (size : ℚ) (h : ∀ item ∈ s.leftByLayout, item.InLimits) :
    (s.layout size).LaidOut := by
  refine laidOut_distributeEmptySpace ?_ none
  rw [leftByLayout] at h
  cases hproportions : s.proportions with
  | none => exact inLimits_resizeAll
  | some proportions =>
    rw [hproportions] at h
    intro item hitem
    obtain ⟨entry, hentry, rfl⟩ := mem_map.mp hitem
    have hleft : entry.2.isNone = true ∨
        ((withProportions s.viewItems proportions).filterMap Prod.snd).sum ≤ 0 →
        entry.1.InLimits := fun hor =>
      h entry.1 (mem_map.mpr ⟨entry, mem_filter.mpr ⟨hentry, by simpa using hor⟩, rfl⟩)
    unfold proportioned
    cases hproportion : entry.2 with
    | none => exact hleft (.inl (by rw [hproportion]; rfl))
    | some proportion =>
      simp only
      split
      · exact ViewItem.inLimits_clampSize
      · exact hleft (.inr (not_lt.mp ‹_›))

theorem resizeView_laidOut (size : ℚ) (h : s.item? index = none → s.LaidOut) :
    (s.resizeView index size).LaidOut := by
  rw [resizeView]
  cases hitem : s.item? index with
  | none => exact h hitem
  | some item => exact relayout_laidOut _ _

theorem addView_laidOut (view : View) (sizing : Sizing) (index : ℤ) :
    (s.addView view sizing index).LaidOut := by
  unfold addView
  cases s.resolveAuto sizing with
  | distribute => exact distributeViewSizes_laidOut
  | _ => exact relayout_laidOut _ _

theorem removeView_laidOut {index : ℤ} {sizing : Option Sizing} {view : View}
    (h : s.removeView index sizing = some (view, s')) : s'.LaidOut := by
  unfold removeView at h
  split at h
  · cases h
  · obtain ⟨-, rfl⟩ := Prod.mk.inj (Option.some.inj h)
    split
    · exact distributeViewSizes_laidOut
    · exact relayout_laidOut _ _

theorem moveView_laidOut {source target : ℤ} (h : s.item? source = none → s.LaidOut) :
    (s.moveView source target).LaidOut := by
  rw [moveView]
  cases hitem : s.item? source with
  | none => exact h hitem
  | some item =>
    cases hremove : s.removeView source none with
    | none =>
      unfold removeView at hremove
      rw [hitem] at hremove
      cases hremove
    | some r => exact addView_laidOut _ _ _

theorem swapViews_laidOut {source target : ℤ} (h : s.item? (max source target) = none → s.LaidOut) :
    (s.swapViews source target).LaidOut := by
  cases hhigh : s.removeView (max source target) none with
  | none =>
    simp only [swapViews, hhigh]
    unfold removeView at hhigh
    split at hhigh
    · exact h ‹_›
    · cases hhigh
  | some r =>
    cases hlow : r.2.removeView (min source target) none with
    | none =>
      simp only [swapViews, hhigh, hlow]
      exact @removeView_laidOut _ r.2 _ _ r.1 hhigh
    | some r' =>
      simp only [swapViews, hhigh, hlow]
      exact addView_laidOut _ _ _

theorem getElem?_of_item? {item : ViewItem} (h : s.item? index = some item) :
    s.viewItems[index.toNat]? = some item := by
  rw [item?] at h
  split at h
  · cases h
  · exact h

theorem setViewVisible_laidOut {visible : Bool} (h : s.item? index = none → s.LaidOut)
    (hleft : ∀ item ∈ s.leftBySetViewVisible index visible, item.InLimits) :
    (s.setViewVisible index visible).LaidOut := by
  rw [setViewVisible]
  cases hitem : s.item? index with
  | none => exact h hitem
  | some item =>
    refine saveProportions_laidOut (laidOut_distributeEmptySpace (fun item' hmem => ?_) _)
    obtain ⟨j, hj⟩ := mem_iff_getElem?.mp hmem
    rw [leftBySetViewVisible, hitem, Option.any_some] at hleft
    rw [getElem?_set] at hj
    split at hj
    · split at hj
      · cases hj
        refine ViewItem.setVisible_inLimits fun hsame => ?_
        rw [if_pos (by simpa using hsame)] at hleft
        exact hleft item (mem_of_getElem? (getElem?_of_item? hitem))
      · cases hj
    · rename_i hne
      refine hleft item' ?_
      split
      · exact mem_of_getElem? hj
      · exact mem_eraseIdx_iff_getElem?.mpr ⟨j, fun heq => hne heq.symm, hj⟩

theorem onViewChange_laidOut {index : ℕ} (view : View) (size : Option ℚ)
    (h : s.viewItems[index]? = none → s.LaidOut) : (s.onViewChange index view size).LaidOut := by
  rw [onViewChange]
  cases hitem : s.viewItems[index]? with
  | none => exact h hitem
  | some item =>
    simp only
    split
    · rename_i hinverse
      obtain ⟨hlt, -⟩ := List.getElem?_eq_some_iff.mp hitem
      refine laidOut_distributeEmptySpace (fun item' hmem => ?_) none
      refine resize_inLimits ?_ ?_ ?_ item' hmem
      · omega
      · rw [List.length_set]
        omega
      · rw [sizes, length_map]
    · exact relayout_laidOut _ _

theorem length_snapTo {state : SashDragSnapState} {visible : Bool} {r : List ViewItem × Bool}
    (h : snapTo items state visible = some r) : r.1.length = items.length := by
  obtain ⟨item, -, rfl⟩ := Option.map_eq_some_iff.mp h
  exact List.length_set

theorem length_snapAfterTo {items' : List ViewItem} {snapAfter : Option SashDragSnapState}
    (h : snapAfterTo items delta snapAfter = some items') : items'.length = items.length := by
  cases snapAfter with
  | none =>
    cases h
    rfl
  | some state =>
    obtain ⟨r, hr, rfl⟩ := Option.map_eq_some_iff.mp h
    exact length_snapTo hr

theorem length_snap {items' : List ViewItem} {snapBefore snapAfter : Option SashDragSnapState}
    (h : snap items delta snapBefore snapAfter = some items') : items'.length = items.length := by
  cases snapBefore with
  | none => exact length_snapAfterTo h
  | some state =>
    rw [snap] at h
    split at h
    · cases h
    · rename_i hsnap
      split at h
      · cases h
        exact length_snapTo hsnap
      · rw [length_snapAfterTo h]
        exact length_snapTo hsnap

theorem resizeAlt_inLimits {index : ℕ} {newDelta : ℚ} {viewItem : ViewItem} (h : s.InLimits)
    (hlt : s.altIndex index < s.viewItems.length) :
    (s.resizeAlt index newDelta viewItem).InLimits := by
  intro item hitem
  rw [altIndex] at hlt
  simp only [resizeAlt] at hitem
  split at hlt
  · rename_i hlast
    rw [if_pos hlast] at hitem
    by_cases hzero : index = 0
    · rw [resize, if_pos (.inl (by omega))] at hitem
      exact h item hitem
    · exact resize_inLimits (by omega) (by omega) (by rw [sizes, length_map]) item hitem
  · rename_i hlast
    rw [if_neg hlast] at hitem
    exact resize_inLimits (by omega) (by omega) (by rw [sizes, length_map]) item hitem

theorem finishChange_laidOut {d : SashDragState} {newDelta : ℚ} (h : s.InLimits)
    (hgone : d.alt = true → s.viewItems.length ≤ s.altIndex d.index → s.LaidOut) :
    (s.finishChange d newDelta).LaidOut := by
  rw [finishChange]
  split
  · rename_i halt
    split
    · rename_i hnone
      exact hgone halt (List.getElem?_eq_none_iff.mp hnone)
    · rename_i viewItem hsome
      obtain ⟨hlt, -⟩ := List.getElem?_eq_some_iff.mp hsome
      exact laidOut_distributeEmptySpace (resizeAlt_inLimits h hlt) none
  · exact laidOut_distributeEmptySpace h none

theorem onSashChange_laidOut {current : ℚ} (h : s.LaidOut)
    (hdrag : s.dragsOn (.sashChange current) = true) :
    ∃ s', s.onSashChange current = some s' ∧ s'.LaidOut := by
  rw [onSashChange]
  cases hd : s.sashDragState with
  | none => exact ⟨s, rfl, h⟩
  | some d =>
    simp only
    by_cases hlt : d.index < s.viewItems.length
    · rw [dragsOn, hd] at hdrag
      obtain ⟨hsizes, halt⟩ := of_decide_eq_true hdrag hlt
      rw [if_pos hlt]
      cases hsnap : snap s.viewItems (current - d.start) d.snapBefore d.snapAfter with
      | none => exact ⟨_, rfl, ⟨h.visible, h.hidden, h.total, h.content⟩⟩
      | some items =>
        have hlength : items.length = s.viewItems.length := length_snap hsnap
        simp only
        rw [if_neg (by omega)]
        refine ⟨_, rfl, finishChange_laidOut ?_ fun hd' hge => ?_⟩
        · exact resize_inLimits (by omega) (by omega) (by omega)
        · have hlt' := halt hd'
          rw [altIndex, sashCount] at hlt' hge
          rw [length_resize] at hge
          rw [hlength] at hge
          omega
    · rw [if_neg hlt]
      simp only
      rw [if_neg (by omega)]
      have hsame : resize s.viewItems d.index (current - d.start) d.sizes [] [] d.minDelta
          d.maxDelta = (s.viewItems, 0) := by
        rw [resize, if_pos (.inr (by omega))]
      rw [hsame]
      exact ⟨_, rfl, finishChange_laidOut h.inLimits
        fun _ _ => ⟨h.visible, h.hidden, h.total, h.content⟩⟩

theorem laidOut_drag (h : s.LaidOut) {d : SashDragState} :
    { s with sashDragState := some d }.LaidOut :=
  ⟨h.visible, h.hidden, h.total, h.content⟩

theorem begins_of_laidOut (h : s.LaidOut) (a : Action) : s.Begins a := by
  cases a with
  | layout size =>
    intro item hitem
    rw [leftByLayout] at hitem
    split at hitem
    · cases hitem
    · obtain ⟨entry, hentry, rfl⟩ := mem_map.mp hitem
      exact h.inLimits entry.1 (of_mem_zip (mem_of_mem_filter hentry)).1
  | setViewVisible index visible =>
    refine ⟨fun _ => h, fun item hitem => h.inLimits item ?_⟩
    rw [leftBySetViewVisible] at hitem
    split at hitem
    · exact hitem
    · exact mem_of_mem_eraseIdx hitem
  | addView | distributeViewSizes => trivial
  | removeView | moveView | swapViews | resizeView | viewChange => exact fun _ => h
  | sashStart | sashKey | sashChange | sashEnd => exact h

theorem step_laidOut {a : Action} (hbegins : s.Begins a) (hdrag : s.dragsOn a = true) :
    ∃ s', s.step a = some s' ∧ s'.LaidOut := by
  cases a with
  | layout size => exact ⟨_, rfl, layout_laidOut size hbegins⟩
  | addView view sizing index => exact ⟨_, rfl, addView_laidOut view sizing index⟩
  | removeView index sizing =>
    refine ⟨_, rfl, ?_⟩
    cases hremove : s.removeView index sizing with
    | none =>
      unfold removeView at hremove
      split at hremove
      · exact hbegins ‹_›
      · cases hremove
    | some r => exact @removeView_laidOut _ r.2 _ _ r.1 hremove
  | moveView source target => exact ⟨_, rfl, moveView_laidOut hbegins⟩
  | swapViews source target => exact ⟨_, rfl, swapViews_laidOut hbegins⟩
  | setViewVisible index visible =>
    exact ⟨_, rfl, setViewVisible_laidOut hbegins.1 hbegins.2⟩
  | resizeView index size => exact ⟨_, rfl, resizeView_laidOut size hbegins⟩
  | distributeViewSizes => exact ⟨_, rfl, distributeViewSizes_laidOut⟩
  | viewChange index view size => exact ⟨_, rfl, onViewChange_laidOut view size hbegins⟩
  | sashStart index start alt =>
    refine ⟨_, rfl, ?_⟩
    rw [onSashStart]
    split
    · split
      · exact hbegins
      · exact laidOut_drag hbegins
    · exact hbegins
  | sashKey alt =>
    refine ⟨_, rfl, ?_⟩
    rw [onSashKey]
    split
    · exact hbegins
    · split
      · exact hbegins
      · exact laidOut_drag hbegins
  | sashChange current => exact onSashChange_laidOut hbegins hdrag
  | sashEnd => exact ⟨_, rfl, saveProportions_laidOut hbegins⟩

theorem dragsOn_of_cons {a : Action} {actions : List Action}
    (h : s.allDragsOn (a :: actions) = true) :
    s.dragsOn a = true ∧ ∀ s', s.step a = some s' → s'.allDragsOn actions = true := by
  rw [allDragsOn, Bool.and_eq_true] at h
  refine ⟨h.1, fun s' hstep => ?_⟩
  have hrest := h.2
  rw [hstep] at hrest
  exact hrest

theorem run_laidOut {actions : List Action} (h : s.LaidOut)
    (hdrags : s.allDragsOn actions = true) : ∃ s', s.run actions = some s' ∧ s'.LaidOut := by
  induction actions generalizing s with
  | nil => exact ⟨s, rfl, h⟩
  | cons a actions ih =>
    obtain ⟨hdrag, hrest⟩ := dragsOn_of_cons hdrags
    obtain ⟨s', hstep, hlaid⟩ := step_laidOut (begins_of_laidOut h a) hdrag
    obtain ⟨s'', hrun, hlaid'⟩ := ih hlaid (hrest s' hstep)
    exact ⟨s'', by rw [run, hstep, Option.bind_some, hrun], hlaid'⟩

def panel : View := ⟨20, (60 : ℚ), .Normal, false, true, by norm_num, by norm_cast⟩

def panels : List Action :=
  [.layout 90, .addView panel .distribute 0, .addView panel (.fixed 30) 1, .sashStart 0 0 false,
    .sashChange 20, .sashEnd]

/-- The panel is described as larger than it can be. -/
def wide : Options := ⟨false, true, some (100, [⟨panel, 100, true⟩])⟩

end SplitView

end CodeOss.Ui
