import CodeOss.Library.PrefixMap
import CodeOss.SearchTree.Setting

/-! `delete` and `deleteSuperstr` take entries out of the map, as long as they stay clear
of what the code forgets: the siblings of a node whose children it drops, the middle child
of a successor it moves up, and the levels that are left without an entry. -/

namespace CodeOss

open SearchCell List Option

open KeyedCells TernarySearchTreeNode TernarySearchTree

variable {K V σ β : Type}

/-- What is known of the node that a deletion is about. `deleteSuperstr` needs it to be
without siblings below it and its value to be truthy, if there is one; `delete` of a full
node without middle child needs its successor to be without one too, if that has a key. -/
def Removable [JsTruthy V] (superStr : Bool) : TernarySearchTreeNode K V → Prop
  | .undefined => True
  | .node _ _ v _ l m r =>
    if superStr then l.isUndefined = true ∧ r.isUndefined = true ∧
      (v = none ∨ Undef.truthy v = true)
    else m.isUndefined = true → l.isUndefined = false → r.isUndefined = false →
      r.min.key ≠ none → r.min.mid.isUndefined = true

def removedKeys (superStr : Bool) (n : TernarySearchTreeNode K V) : List (Option K) :=
  if superStr then n.mid.entries.map Prod.fst else [n.key]

/-- The node is the only one of its level and leaves the level with its entries. -/
def Alone (it : IKeyIterator K σ) (superStr : Bool) (c : σ) : TernarySearchTreeNode K V → Prop
  | .undefined => True
  | .node _ s _ _ l m r =>
    it.cmp c s = 0 ∧ it.hasNext c = false ∧ l.isUndefined = true ∧ r.isUndefined = true ∧
      (superStr = true ∨ m.isUndefined = true)

/-- Each level on the way keeps an entry, or vanishes with the node. -/
def Keeps (it : IKeyIterator K σ) (superStr : Bool) (c : σ) : TernarySearchTreeNode K V → Prop
  | .undefined => True
  | .node _ s _ _ l m r =>
    if it.cmp c s > 0 then Keeps it superStr c l
    else if it.cmp c s < 0 then Keeps it superStr c r
    else if it.hasNext c then
      (Alone it superStr (it.next c) m ∨
        ∃ e ∈ m.entries, e.1 ∉ removedKeys superStr (getNodeAt it (it.next c) m)) ∧
      Keeps it superStr (it.next c) m
    else True

section Decide

variable [DecidableEq K] [JsTruthy V] (it : IKeyIterator K σ) (superStr : Bool)

instance : (t : TernarySearchTreeNode K V) → Decidable (Removable superStr t)
  | .undefined => .isTrue trivial
  | .node _ _ v _ l m r =>
    inferInstanceAs (Decidable (if superStr = true then
      l.isUndefined = true ∧ r.isUndefined = true ∧ (v = none ∨ Undef.truthy v = true)
    else m.isUndefined = true → l.isUndefined = false → r.isUndefined = false →
      r.min.key ≠ none → r.min.mid.isUndefined = true))

instance (c : σ) : (t : TernarySearchTreeNode K V) → Decidable (Alone it superStr c t)
  | .undefined => .isTrue trivial
  | .node _ s _ _ l m r =>
    inferInstanceAs (Decidable (it.cmp c s = 0 ∧ it.hasNext c = false ∧
      l.isUndefined = true ∧ r.isUndefined = true ∧
        (superStr = true ∨ m.isUndefined = true)))

def decideKeeps (c : σ) : (t : TernarySearchTreeNode K V) → Decidable (Keeps it superStr c t)
  | .undefined => .isTrue trivial
  | .node _ s _ _ l m r =>
    have := decideKeeps c l
    have := decideKeeps c r
    have := decideKeeps (it.next c) m
    inferInstanceAs (Decidable (if it.cmp c s > 0 then Keeps it superStr c l
      else if it.cmp c s < 0 then Keeps it superStr c r
      else if it.hasNext c then
        (Alone it superStr (it.next c) m ∨
          ∃ e ∈ m.entries, e.1 ∉ removedKeys superStr (getNodeAt it (it.next c) m)) ∧
        Keeps it superStr (it.next c) m
      else True))

instance (c : σ) (t : TernarySearchTreeNode K V) : Decidable (Keeps it superStr c t) :=
  decideKeeps it superStr c t

end Decide

theorem removeMin_spec {t : TernarySearchTreeNode K V} (hne : t.isUndefined = false)
    (hb : t.level.Balanced) : ∃ cell t', t.min.cell = some cell ∧ t.removeMin = some t' ∧
    t.cells = cell :: t'.cells ∧ t'.level.Balanced ∧ AvlTree.Shrunk t.level t'.level := by
  induction t with
  | undefined => cases hne
  | node h s v k l m r ihl ihm ihr =>
    cases l with
    | undefined =>
      refine ⟨⟨s, v, k, m⟩, r, rfl, rfl, rfl, hb.2.2.2.2, ?_⟩
      obtain ⟨hh, hlr, hrl, -⟩ := hb
      simp only [height_level, height] at hh hlr hrl
      simp only [AvlTree.Shrunk, height_level, height]
      omega
    | node h' s' v' k' l' m' r' =>
      obtain ⟨cell, l₂, hmin, hrem, hcells, hbal, hshrunk⟩ := ihl rfl hb.2.2.2.1
      obtain ⟨t, ht, htb, htcells, hts⟩ := balanceByStack_left s v k hb hbal hshrunk
      refine ⟨cell, t, hmin, ?_, ?_, htb, hts⟩
      · rw [removeMin]
        · rw [hrem]
          exact ht
        · intro hc
          cases hc
      · rw [htcells, cells_node, cells_node (s := s), hcells]
        rfl

section Level

variable [JsTruthy K] [JsTruthy V]

theorem removeNode_spec
    {h : Nat} {s : JsString} {v : Undef.Stored V} {k : Option K} {l m r : TernarySearchTreeNode K V}
    (hb : (node h s v k l m r).level.Balanced) (hrem : Removable false (node h s v k l m r)) :
    ∃ t' o, removeNode (node h s none none l m r) = some t' ∧
    t'.level.Balanced ∧ AvlTree.Shrunk (node h s v k l m r).level t'.level ∧ t'.cells = l.cells ++
    (o.toList ++ r.cells) ∧ (o = some ⟨s, none, none, m⟩ ∨ m = undefined ∧ o = none) := by
  have hstay : removeNode (node h s none none l m r) = some (node h s none none l m r) →
      ∃ t' o, removeNode (node h s none none l m r) = some t' ∧ t'.level.Balanced ∧
        AvlTree.Shrunk (node h s v k l m r).level t'.level ∧
        t'.cells = l.cells ++ (o.toList ++ r.cells) ∧
        (o = some ⟨s, none, none, m⟩ ∨ m = undefined ∧ o = none) := fun heq =>
    ⟨_, some ⟨s, none, none, m⟩, heq, balanced_replace hb s none none m,
      AvlTree.Shrunk.refl _, rfl, .inl rfl⟩
  cases m with
  | node h' s' v' k' l' m' r' => exact hstay (by simp [removeNode])
  | undefined =>
    obtain ⟨hh, hlr, hrl, hbl, hbr⟩ := hb
    simp only [height_level] at hh hlr hrl
    cases hl : l.isUndefined with
    | true =>
      obtain rfl : l = undefined := isUndefined_iff.mp hl
      refine ⟨r, none, by simp [removeNode, Undef.truthy], hbr, ?_, rfl,
        .inr ⟨rfl, rfl⟩⟩
      simp only [AvlTree.Shrunk, height_level, height] at hh hlr hrl ⊢
      omega
    | false =>
      cases hr : r.isUndefined with
      | true =>
        obtain rfl : r = undefined := isUndefined_iff.mp hr
        refine ⟨l, none, by simp [removeNode, Undef.truthy, hl], hbl, ?_,
          by simp, .inr ⟨rfl, rfl⟩⟩
        simp only [AvlTree.Shrunk, height_level, height] at hh hlr hrl ⊢
        omega
      | false =>
        obtain ⟨cell, r', hmin, hremove, hcells, hbal, hshrunk⟩ := removeMin_spec hr hbr
        have hmid := hrem
        simp only [Removable, Bool.false_eq_true, if_false] at hmid
        cases hn : r.min with
        | undefined => rw [hn] at hmin; cases hmin
        | node h₂ s₂ v₂ k₂ l₂ m₂ r₂ =>
          have hcell : cell = ⟨s₂, v₂, k₂, m₂⟩ := by
            rw [hn] at hmin
            exact (some_inj.mp hmin).symm
          cases k₂ with
          | none => exact hstay (by simp [removeNode, Undef.truthy, hl, hr, hn])
          | some key =>
            by_cases htruthy : JsTruthy.truthy key = true
            · have hm₂ : m₂ = undefined := by
                have := hmid rfl hl hr (by rw [hn]; simp [TernarySearchTreeNode.key])
                rw [hn] at this
                exact isUndefined_iff.mp this
              obtain ⟨t, ht, htb, htcells, hts⟩ := balanceByStack_right s₂ v₂
                (some key) ⟨by simpa using hh, by simpa using hlr, by simpa using hrl,
                  hbl, hbr⟩ hbal hshrunk
              refine ⟨t, none, ?_, htb, hts, ?_, .inr ⟨rfl, rfl⟩⟩
              · simpa [removeNode, Undef.truthy, hl, hr, hn, htruthy, hremove] using ht
              · rw [htcells, cells_node, hcells, hcell, hm₂]
                rfl
            · exact hstay (by
                simp [removeNode, Undef.truthy, hl, hr, hn, htruthy])

variable {it : IKeyIterator K σ} {rank : JsString → β}

/-- The subtree after a deletion, for a tree on which the deletion does not throw. -/
def deleteTree (it : IKeyIterator K σ) (superStr : Bool) (c : σ)
    (t : TernarySearchTreeNode K V) : TernarySearchTreeNode K V :=
  (deleteAt it superStr c t).getD undefined

/-- What a deletion may leave of the cell of the segment under the cursor. -/
inductive Leaves (it : IKeyIterator K σ) (superStr : Bool) (c : σ) :
    Option (SearchCell K V) → Option (SearchCell K V) → Prop
  | missing : Leaves it superStr c none none
  | deeper {cell : SearchCell K V} (h : it.hasNext c = true) :
      Leaves it superStr c (some cell)
        (some { cell with mid := deleteTree it superStr (it.next c) cell.mid })
  | below {cell : SearchCell K V} (h : ¬ it.hasNext c = true) (hs : superStr = true) :
      Leaves it superStr c (some cell) (some { cell with mid := undefined })
  | blank {cell : SearchCell K V} (h : ¬ it.hasNext c = true) (hs : superStr = true)
      (hv : cell.value = none) : Leaves it superStr c (some cell) none
  | cleared {cell : SearchCell K V} (h : ¬ it.hasNext c = true) (hs : superStr = false) :
      Leaves it superStr c (some cell) (some { cell with value := none, key := none })
  | removed {cell : SearchCell K V} (h : ¬ it.hasNext c = true) (hs : superStr = false)
      (hm : cell.mid = undefined) : Leaves it superStr c (some cell) none

theorem Leaves.rankOf {superStr : Bool} {c : σ} {o o' : Option (SearchCell K V)}
    (h : Leaves it superStr c o o') {x : β} (hx : ∀ cell ∈ o, cell.rankOf rank = x) :
    ∀ cell ∈ o', cell.rankOf rank = x := by
  cases h with
  | missing | blank | removed => intro _ hc; cases hc
  | deeper | below | cleared =>
    intro _ hc
    obtain rfl := some_inj.mp hc
    have hcell := hx _ rfl
    exact hcell

variable [LinearOrder β] {known : JsString → Prop}

/-- What a deletion does to a level, by induction on the level. -/
theorem deleteAt_level (superStr : Bool) {c : σ} (hapt : it.Apt rank known c)
    {t : TernarySearchTreeNode K V} (hb : t.level.Balanced) (ha : Ascending (rankOf rank) t.cells)
    (hknown : ∀ cell ∈ t.cells, known cell.segment) (hmid : it.hasNext c = true → ∀ cell ∈ t.cells,
    cell.rankOf rank = rank (it.value c) → (deleteAt it superStr (it.next c) cell.mid).isSome)
    (hrem : ¬ it.hasNext c = true → Removable superStr (getNodeAt it c t)) : ∃ t' o,
    deleteAt it superStr c t = some t' ∧ t'.level.Balanced ∧ AvlTree.Shrunk t.level t'.level ∧
    t'.cells = change (rankOf rank) (rank (it.value c)) o t.cells ∧
    Leaves it superStr c (lookup (rankOf rank) (rank (it.value c)) t.cells) o := by
  induction t with
  | undefined => exact ⟨undefined, none, rfl, trivial, AvlTree.Shrunk.refl _, rfl, .missing⟩
  | node h s v k l m r ihl ihm ihr =>
    have hsplit := ha
    rw [cells_node] at hsplit
    obtain ⟨hal, har, -, -⟩ := ascending_split.mp hsplit
    obtain ⟨hpos, hneg⟩ := hapt.2 s
      (hknown ⟨s, v, k, m⟩ (mem_append_right _ mem_cons_self))
    simp only [deleteAt, cells_node, lookup_split hsplit]
    rw [getNodeAt] at hrem
    by_cases h₁ : it.cmp c s > 0
    · have hlt : rank (it.value c) < rankOf rank (⟨s, v, k, m⟩ : SearchCell K V) :=
        hpos.mp h₁
      rw [if_pos h₁] at hrem
      obtain ⟨l', o, hdel, hbal, hshrunk, hcells, hleaves⟩ := ihl hb.2.2.2.1 hal
        (fun cell hc => hknown cell (mem_append_left _ hc))
        (fun hn cell hc => hmid hn cell (mem_append_left _ hc)) hrem
      obtain ⟨t, ht, htb, htcells, hts⟩ := balanceByStack_left s v k hb hbal hshrunk
      refine ⟨t, o, ?_, htb, hts, ?_, ?_⟩
      · simp [h₁, hdel, ht]
      · rw [htcells, cells_node, hcells, change_front hsplit hlt]
      · rw [if_pos hlt]
        exact hleaves
    · rw [if_neg h₁] at hrem
      by_cases h₂ : it.cmp c s < 0
      · have hlt : rankOf rank (⟨s, v, k, m⟩ : SearchCell K V) <
            rank (it.value c) := hneg.mp h₂
        rw [if_pos h₂] at hrem
        obtain ⟨r', o, hdel, hbal, hshrunk, hcells, hleaves⟩ := ihr hb.2.2.2.2 har
          (fun cell hc => hknown cell (mem_append_right _ (mem_cons_of_mem _ hc)))
          (fun hn cell hc => hmid hn cell (mem_append_right _ (mem_cons_of_mem _ hc))) hrem
        obtain ⟨t, ht, htb, htcells, hts⟩ := balanceByStack_right s v k hb hbal hshrunk
        refine ⟨t, o, ?_, htb, hts, ?_, ?_⟩
        · simp [h₁, h₂, hdel, ht]
        · rw [htcells, cells_node, hcells, change_back hsplit hlt]
        · rw [if_neg hlt.le.not_gt, if_pos hlt]
          exact hleaves
      · have heq : rankOf rank (⟨s, v, k, m⟩ : SearchCell K V) =
            rank (it.value c) :=
          le_antisymm (not_lt.mp fun hc => h₁ (hpos.mpr hc))
            (not_lt.mp fun hc => h₂ (hneg.mpr hc))
        rw [if_neg h₂] at hrem
        simp only [if_neg heq.ge.not_gt, if_neg heq.le.not_gt, change_here hsplit heq]
        by_cases hn : it.hasNext c = true
        · obtain ⟨m', hdel⟩ := isSome_iff_exists.mp
            (hmid hn ⟨s, v, k, m⟩ (mem_append_right _ mem_cons_self) heq)
          have hbal := balanced_replace hb s v k m'
          refine ⟨node h s v k l m' r, some ⟨s, v, k, m'⟩, ?_, hbal, AvlTree.Shrunk.refl _, rfl, ?_⟩
          · simp [h₁, h₂, hn, hdel, balanceByStack_of_balanced hbal]
          · have hmid' : m' = deleteTree it superStr (it.next c) m := by
              simp [deleteTree, hdel]
            rw [hmid']
            exact .deeper hn
        · have hrem := hrem hn
          rw [if_neg hn] at hrem
          simp only [h₁, h₂, hn, if_false, Bool.false_eq_true]
          cases superStr with
          | false =>
            obtain ⟨t', o, hremove, hbal, hshrunk, hcells, ho⟩ := removeNode_spec hb hrem
            refine ⟨t', o, hremove, hbal, hshrunk, hcells, ?_⟩
            rcases ho with rfl | ⟨rfl, rfl⟩
            · exact .cleared hn rfl
            · exact .removed hn rfl rfl
          | true =>
            obtain ⟨hl, hr, hv⟩ := hrem
            obtain rfl := isUndefined_iff.mp hl
            obtain rfl := isUndefined_iff.mp hr
            have hh : h = 1 := hb.1
            subst hh
            rcases hv with rfl | hv
            · refine ⟨undefined, none, by simp [removeNode, Undef.truthy], trivial, ?_, rfl,
                .blank hn rfl rfl⟩
              simp [AvlTree.Shrunk, height]
            · exact ⟨node 1 s v k undefined undefined undefined, some ⟨s, v, k, undefined⟩,
                by simp [removeNode, hv], balanced_replace hb s v k _,
                AvlTree.Shrunk.refl _, rfl, .below hn rfl⟩

end Level

def Gone (superStr : Bool) (path p : List β) : Prop :=
  if superStr then PrefixMap.Below path p else p = path

instance [DecidableEq β] (superStr : Bool) (path p : List β) :
    Decidable (Gone superStr path p) :=
  inferInstanceAs (Decidable (if superStr then _ else _))

theorem gone_cons {superStr : Bool} {x y : β} {path p : List β} :
    Gone superStr (x :: path) (y :: p) ↔ y = x ∧ Gone superStr path p := by
  cases superStr
  · simp [Gone]
  · simp only [Gone, if_true, PrefixMap.Below, cons_prefix_cons, ne_eq, List.cons.injEq]
    constructor
    · rintro ⟨⟨rfl, hpre⟩, hne⟩
      exact ⟨rfl, hpre, fun heq => hne ⟨rfl, heq⟩⟩
    · rintro ⟨rfl, hpre, hne⟩
      exact ⟨⟨rfl, hpre⟩, fun heq => hne heq.2⟩

theorem not_gone_nil {superStr : Bool} {path : List β} (hp : path ≠ []) :
    ¬ Gone superStr path [] := by
  cases superStr
  · exact fun hg => hp hg.symm
  · exact fun hg => hp (prefix_nil.mp hg.1)

section Path

variable [LinearOrder β] {it : IKeyIterator K σ} {rank : JsString → β} {known : JsString → Prop}
  {c : σ} {cell : SearchCell K V} {t : TernarySearchTreeNode K V}

theorem getNodeAt_next (hapt : it.Apt rank known c) (hn : it.hasNext c = true)
    (ha : Ascending (rankOf rank) t.cells) (hknown : ∀ cell ∈ t.cells, known cell.segment)
    (hcell : lookup (rankOf rank) (rank (it.value c)) t.cells = some cell) :
    getNodeAt it c t = getNodeAt it (it.next c) cell.mid ∧ ∀ superStr, Keeps it superStr c t →
    (Alone it superStr (it.next c) cell.mid ∨ ∃ e ∈ cell.mid.entries, e.1 ∉ removedKeys superStr
    (getNodeAt it (it.next c) cell.mid)) ∧ Keeps it superStr (it.next c) cell.mid := by
  induction t with
  | undefined => cases hcell
  | node h s v k l m r ihl ihm ihr =>
    rw [cells_node] at ha
    obtain ⟨hal, har, -, -⟩ := ascending_split.mp ha
    obtain ⟨hpos, hneg⟩ := hapt.2 s
      (hknown ⟨s, v, k, m⟩ (mem_append_right _ mem_cons_self))
    rw [cells_node, lookup_split ha] at hcell
    simp only [getNodeAt, Keeps]
    by_cases h₁ : it.cmp c s > 0
    · have hlt : rank (it.value c) < rankOf rank (⟨s, v, k, m⟩ : SearchCell K V) :=
        hpos.mp h₁
      rw [if_pos hlt] at hcell
      simp only [if_pos h₁]
      exact ihl hal (fun cell hc => hknown cell (mem_append_left _ hc)) hcell
    · have hle : ¬ rank (it.value c) <
          rankOf rank (⟨s, v, k, m⟩ : SearchCell K V) := fun hc => h₁ (hpos.mpr hc)
      rw [if_neg hle] at hcell
      simp only [if_neg h₁]
      by_cases h₂ : it.cmp c s < 0
      · have hlt : rankOf rank (⟨s, v, k, m⟩ : SearchCell K V) <
            rank (it.value c) := hneg.mp h₂
        rw [if_pos hlt] at hcell
        simp only [if_pos h₂]
        exact ihr har (fun cell hc => hknown cell (mem_append_right _ (mem_cons_of_mem _ hc))) hcell
      · have hge : ¬ rankOf rank (⟨s, v, k, m⟩ : SearchCell K V) <
            rank (it.value c) := fun hc => h₂ (hneg.mpr hc)
        rw [if_neg hge] at hcell
        obtain rfl := some_inj.mp hcell
        simp only [if_neg h₂, if_pos hn]
        exact ⟨trivial, fun _ hk => hk⟩

theorem look_append {p q : List β} (hp : p ≠ []) (hq : q ≠ []) (t : TernarySearchTreeNode K V) :
    t.look rank (p ++ q) = (t.findCell rank p).bind fun cell => cell.mid.look rank q := by
  induction p generalizing t with
  | nil => exact absurd rfl hp
  | cons x xs ih =>
    rw [cons_append, look_cons, findCell, bind_assoc]
    congr 1
    funext cell
    by_cases hxs : xs = []
    · subst hxs
      rw [if_pos rfl, nil_append, if_neg hq]
      rfl
    · rw [if_neg hxs, if_neg (append_ne_nil_of_left_ne_nil hxs q), ih hxs]

variable [JsTruthy K]

theorem mem_removedKeys (hapt : it.AptTrail rank known c) (ht : t.Sound rank known)
    {superStr : Bool} {p : List β} (hg : Gone superStr (it.path rank c) p) {e : K × V}
    (hlook : t.look rank p = some e) : some e.1 ∈ removedKeys superStr (getNodeAt it c t) := by
  have hfind := cell_getNodeAt hapt ht
  cases superStr with
  | false =>
    obtain rfl : p = it.path rank c := hg
    rw [look, ← hfind] at hlook
    cases hnode : getNodeAt it c t with
    | undefined => rw [hnode] at hlook; cases hlook
    | node h s v k l m r =>
      rw [hnode] at hlook
      rcases k with _ | key
      · cases hlook
      rcases v with _ | _ | value
      · cases hlook
      · cases hlook
      · cases hlook
        exact mem_singleton.mpr rfl
  | true =>
    obtain ⟨q, hq, rfl⟩ := PrefixMap.below_iff.mp hg
    rw [look_append it.path_ne_nil hq, ← hfind] at hlook
    obtain ⟨cell, hcell, hlook⟩ := bind_eq_some_iff.mp hlook
    cases hnode : getNodeAt it c t with
    | undefined => rw [hnode] at hcell; cases hcell
    | node h s v k l m r =>
      rw [hnode] at hcell
      cases hcell
      have hmid : m.Sound rank known := (hnode ▸ ht.getNodeAt it c).mid
      rw [removedKeys, if_pos rfl, TernarySearchTreeNode.mid, entries_eq hmid, List.map_map]
      exact mem_map.mpr ⟨(q, e), (mem_listing hmid).mpr hlook, rfl⟩

variable [JsTruthy V]

theorem deleteTree_of_alone {superStr : Bool} (h : Alone it superStr c t)
    (ht : t.Sound rank known) :
    deleteTree it superStr c t = undefined ∨ (deleteTree it superStr c t).entries ≠ [] := by
  cases t with
  | undefined => exact .inl rfl
  | node h' s v k l m r =>
    obtain ⟨hcmp, hlast, hl, hr, hm⟩ := h
    obtain rfl := isUndefined_iff.mp hl
    obtain rfl := isUndefined_iff.mp hr
    cases superStr with
    | true =>
      by_cases hv : Undef.truthy v = true
      · have hentries : (node 1 s v k undefined undefined undefined).entries ≠ [] := by
          cases v with
          | none => cases hv
          | some value => simp [entries]
        simp [deleteTree, deleteAt, hcmp, hlast, removeNode, hv, hentries]
      · simp [deleteTree, deleteAt, hcmp, hlast, removeNode, hv]
    | false =>
      obtain rfl := isUndefined_iff.mp (hm.resolve_left Bool.false_ne_true)
      simp [deleteTree, deleteAt, hcmp, hlast, removeNode, Undef.truthy]

theorem deleteAt_spec (superStr : Bool) (c : σ) : it.AptTrail rank known c → ∀ t :
    TernarySearchTreeNode K V, t.Sound rank known → Removable superStr (getNodeAt it c t) → Keeps it
    superStr c t → ∃ t', deleteAt it superStr c t = some t' ∧ t'.Sound rank known ∧ ∀ p, t'.look
    rank p = if Gone superStr (it.path rank c) p then none else t.look rank p := by
  induction c using @IKeyIterator.cursorInduction K σ it with
  | step c ih =>
    intro hapt t ht hrem hkeeps
    have hknown : ∀ cell ∈ t.cells, known cell.segment := fun cell hc => (ht.sane cell hc).known
    have hbelow : ∀ cell, it.hasNext c = true →
        lookup (rankOf rank) (rank (it.value c)) t.cells = some cell →
        deleteAt it superStr (it.next c) cell.mid =
            some (deleteTree it superStr (it.next c) cell.mid) ∧
          (deleteTree it superStr (it.next c) cell.mid).Sound rank known ∧
          (deleteTree it superStr (it.next c) cell.mid ≠ undefined →
            (deleteTree it superStr (it.next c) cell.mid).entries ≠ []) ∧
          ∀ p, (deleteTree it superStr (it.next c) cell.mid).look rank p =
            if Gone superStr (it.path rank (it.next c)) p then none
            else cell.mid.look rank p := by
      intro cell hn hcell
      have hmid := ht.deeper cell ((lookup_eq_some ht.ascending).mp hcell).1
      obtain ⟨hnode, hkeep⟩ := getNodeAt_next hapt.apt hn ht.ascending hknown hcell
      obtain ⟨hlives, hkeep⟩ := hkeep superStr hkeeps
      obtain ⟨t', hdel, hsound, hlook⟩ :=
        ih hn (hapt.next hn) cell.mid hmid (hnode ▸ hrem) hkeep
      have htree : deleteTree it superStr (it.next c) cell.mid = t' := by
        rw [deleteTree, hdel, getD_some]
      refine ⟨htree ▸ hdel, htree ▸ hsound, fun hne => ?_, htree ▸ hlook⟩
      rcases hlives with halone | ⟨e, he, hkept⟩
      · exact (deleteTree_of_alone halone hmid).resolve_left hne
      · rw [entries_eq hmid] at he
        obtain ⟨⟨p, e⟩, hmem, rfl⟩ := mem_map.mp he
        have hp := (mem_listing hmid).mp hmem
        rw [htree]
        refine (entries_ne_nil hsound).mpr ⟨p, e, ?_⟩
        rw [hlook, if_neg fun hg => hkept (mem_removedKeys (hapt.next hn) hmid hg hp), hp]
    obtain ⟨t', o, hdel, hbal, -, hcells, hleaves⟩ := deleteAt_level superStr hapt.apt
      ht.balanced ht.ascending hknown
      (fun hn cell hc hx => by
        rw [(hbelow cell hn ((lookup_eq_some ht.ascending).mpr ⟨hc, hx⟩)).1]
        rfl) (fun _ => hrem)
    have hcell : ∀ cell ∈ lookup (rankOf rank) (rank (it.value c)) t.cells,
        cell.rankOf rank = rank (it.value c) ∧ cell.Sane known ∧ cell.mid.Sound rank known := by
      intro cell hc
      obtain ⟨hmem, hx⟩ := (lookup_eq_some ht.ascending).mp hc
      exact ⟨hx, ht.sane cell hmem, ht.deeper cell hmem⟩
    have ho := hleaves.rankOf fun cell hc => (hcell cell hc).1
    refine ⟨t', hdel, ht.of_change hbal hcells fun cell hc => ⟨ho cell hc, ?_⟩, ?_⟩
    · cases hl : lookup (rankOf rank) (rank (it.value c)) t.cells with
      | none => rw [hl] at hleaves; cases hleaves; cases hc
      | some old =>
        obtain ⟨-, hsane, hsound⟩ := hcell old hl
        rw [hl] at hleaves
        cases hleaves with
        | deeper hn =>
          obtain rfl := some_inj.mp hc
          obtain ⟨-, hsnd, hlives, -⟩ := hbelow old hn hl
          exact ⟨⟨hsane.known, hsane.keyed, hsane.truthy, hsane.defined, hlives⟩, hsnd⟩
        | below =>
          obtain rfl := some_inj.mp hc
          exact ⟨⟨hsane.known, hsane.keyed, hsane.truthy, hsane.defined,
            fun hne => absurd rfl hne⟩, sound_undefined⟩
        | cleared =>
          obtain rfl := some_inj.mp hc
          exact ⟨⟨hsane.known, rfl, by simp, by simp, hsane.inhabited⟩, hsound⟩
        | blank | removed => cases hc
    · intro p
      cases p with
      | nil => rw [if_neg (not_gone_nil it.path_ne_nil)]; rfl
      | cons y ys =>
        obtain ⟨xs, hpath⟩ := it.exists_path_eq rank c
        rw [look_change ht.ascending hcells ho, hpath]
        simp only [gone_cons]
        by_cases hy : y = rank (it.value c)
        · subst hy
          rw [if_pos rfl, look_cons]
          simp only [true_and]
          have hlast : ¬ it.hasNext c = true → xs = [] := fun hn =>
            (List.cons.inj (hpath.symm.trans (IKeyIterator.path_of_last hn))).2
          cases hl : lookup (rankOf rank) (rank (it.value c)) t.cells with
          | none =>
            rw [hl] at hleaves
            cases hleaves
            simp
          | some old =>
            rw [hl] at hleaves
            cases hleaves with
            | deeper hn =>
              obtain ⟨-, -, -, hlook⟩ := hbelow old hn hl
              obtain rfl : it.path rank (it.next c) = xs :=
                (List.cons.inj ((IKeyIterator.path_of_hasNext hn).symm.trans hpath)).2
              simp only [bind_some, hlook]
              by_cases hys : ys = []
              · subst hys
                rw [if_pos rfl, if_neg (not_gone_nil it.path_ne_nil), if_pos rfl]
                rfl
              · rw [if_neg hys, if_neg hys]
            | below hn hs =>
              subst hs
              obtain rfl := hlast hn
              by_cases hys : ys = []
              · simp [hys, Gone, PrefixMap.Below, SearchCell.entry]
              · simp [hys, Ne.symm hys, Gone, PrefixMap.Below, look_undefined]
            | blank hn hs hv =>
              subst hs
              obtain rfl := hlast hn
              by_cases hys : ys = []
              · simp [hys, Gone, PrefixMap.Below, SearchCell.entry, hv]
              · simp [Ne.symm hys, Gone, PrefixMap.Below]
            | cleared hn hs =>
              subst hs
              obtain rfl := hlast hn
              by_cases hys : ys = [] <;> simp [hys, Gone, SearchCell.entry]
            | removed hn hs hm =>
              subst hs
              obtain rfl := hlast hn
              by_cases hys : ys = [] <;> simp [hys, Gone, hm, look_undefined]
        · rw [if_neg hy, if_neg fun hg => hy hg.1]

theorem deleteKey_spec (superStr : Bool) {key : K} (hapt : it.AptTrail rank known (it.reset key))
    (ht : t.Sound rank known) (hrem : Removable superStr (getNode it t key)) (hkeeps : Keeps it
    superStr (it.reset key) t) : ∃ t', deleteKey it t key superStr = some t' ∧ t'.Sound rank known ∧
    ∀ p, t'.look rank p = if Gone superStr (it.path rank (it.reset key)) p then none else t.look
    rank p := by
  rw [deleteKey]
  split
  · next hmissing =>
      refine ⟨t, rfl, ht, fun p => ?_⟩
      split
      · next hg =>
          cases hlook : t.look rank p with
          | none => rfl
          | some e =>
            have hmem := mem_removedKeys hapt ht hg hlook
            rw [show getNodeAt it (it.reset key) t = undefined from
              isUndefined_iff.mp hmissing] at hmem
            cases superStr <;> simp [removedKeys, TernarySearchTreeNode.key,
              TernarySearchTreeNode.mid, entries] at hmem
      · rfl
  · exact deleteAt_spec superStr (it.reset key) hapt t ht hrem hkeeps

end Path

end CodeOss
