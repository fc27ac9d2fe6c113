import CodeOss.SearchTree.Reading

/-! `set` puts one entry into the map: what it does to the level of a segment, and from
that, segment by segment, what it does to the tree. -/

namespace CodeOss

open SearchCell

open KeyedCells TernarySearchTreeNode TernarySearchTree

variable {K V σ β : Type} (it : IKeyIterator K σ) (element : Option V) (key : K)

theorem freshChain_rounds {rounds rounds' : Nat} {c : σ} (h : it.ahead c ≤ rounds)
    (h' : it.ahead c ≤ rounds') :
    freshChain it element key rounds c = freshChain it element key rounds' c := by
  induction rounds generalizing rounds' c with
  | zero =>
    have hlast : it.hasNext c ≠ true := fun hn => by
      have := it.ahead_next c hn
      omega
    cases rounds' <;> simp [freshChain, hlast]
  | succ rounds ih =>
    by_cases hn : it.hasNext c = true
    · have hlt := it.ahead_next c hn
      cases rounds' with
      | zero => omega
      | succ rounds' =>
        simp only [freshChain, if_pos hn]
        rw [@ih rounds' (it.next c) (by omega) (by omega)]
    · cases rounds' <;> simp [freshChain, hn]

/-- The cell of a segment that is not there yet. -/
def blankCell (c : σ) : SearchCell K V := ⟨it.value c, none, none, undefined⟩

/-- The subtree after `set` on it, for a tree on which `set` does not throw. -/
def setTree (c : σ) (t : TernarySearchTreeNode K V) : TernarySearchTreeNode K V :=
  ((setAt it element key c t).map SetResult.node).getD undefined

def setCell (c : σ) (cell : SearchCell K V) : SearchCell K V :=
  if it.hasNext c then { cell with mid := setTree it element key (it.next c) cell.mid }
  else { cell with value := Undef.wrap element, key := some key }

theorem setAt_undefined (c : σ) : setAt it element key c undefined = some ⟨node 1 (setCell it
    element key c (blankCell it c)).segment (setCell it element key c (blankCell it c)).value
    (setCell it element key c (blankCell it c)).key undefined (setCell it element key c (blankCell
    it c)).mid undefined, if it.hasNext c then some .mid else none, none⟩ := by
  by_cases hn : it.hasNext c = true
  · have hlt := it.ahead_next c hn
    obtain ⟨rounds, hr⟩ : ∃ rounds, it.ahead c = rounds + 1 := ⟨it.ahead c - 1, by omega⟩
    have hchain := freshChain_rounds it element key (show it.ahead (it.next c) ≤ rounds by omega)
      le_rfl
    simp [setAt, hr, freshChain, hn, setCell, blankCell, setTree, hchain]
  · cases hr : it.ahead c <;>
      simp [setAt, hr, freshChain, hn, setCell, blankCell]

variable {rank : JsString → β} {it element key}

variable {c : σ}

theorem rankOf_setCell {cell : SearchCell K V} :
    (setCell it element key c cell).rankOf rank = cell.rankOf rank := by
  unfold setCell
  split <;> rfl

variable [LinearOrder β] {known : JsString → Prop}

def cellFor (it : IKeyIterator K σ) (rank : JsString → β) (c : σ)
    (cells : List (SearchCell K V)) : SearchCell K V :=
  (lookup (rankOf rank) (rank (it.value c)) cells).getD (blankCell it c)

theorem rankOf_cellFor {cells : List (SearchCell K V)} (ha : Ascending (rankOf rank) cells) :
    (cellFor it rank c cells).rankOf rank = rank (it.value c) := by
  unfold cellFor
  cases hl : lookup (rankOf rank) (rank (it.value c)) cells with
  | none => rfl
  | some cell => exact ((lookup_eq_some ha).mp hl).2

/-- What `set` does to a level: the cell of the segment changes, and the level stays
balanced. By induction on the level; the middle children are of another one. -/
theorem setAt_level (element : Option V) (key : K) (hapt : it.Apt rank known c)
    {t : TernarySearchTreeNode K V} (hb : t.level.Balanced)
    (ha : Ascending (rankOf rank) t.cells) (hknown : ∀ cell ∈ t.cells, known cell.segment) (hmid :
    it.hasNext c = true → ∀ cell ∈ t.cells, (setAt it element key (it.next c) cell.mid).isSome) :
    ∃ r, setAt it element key c t = some r ∧ r.node.level.Balanced ∧
    AvlTree.Grown t.level r.node.level (r.dir.bind Dir.side) ∧ r.node.cells = change (rankOf rank)
    (rank (it.value c)) (some (setCell it element key c (cellFor it rank c t.cells))) t.cells := by
  induction t with
  | undefined =>
    refine ⟨_, setAt_undefined it element key c, ?_, ?_, ?_⟩
    · exact ⟨rfl, Nat.zero_le _, Nat.zero_le _, trivial, trivial⟩
    · exact .inr ⟨rfl, .inl rfl⟩
    · rfl
  | node h s v k l m r ihl ihm ihr =>
    have hsplit := ha
    rw [cells_node] at hsplit
    obtain ⟨hal, har, -, -⟩ := ascending_split.mp hsplit
    obtain ⟨hpos, hneg⟩ := hapt.2 s
      (hknown ⟨s, v, k, m⟩ (List.mem_append_right _ List.mem_cons_self))
    simp only [setAt]
    by_cases h₁ : it.cmp c s > 0
    · have hlt : rank (it.value c) < rankOf rank (⟨s, v, k, m⟩ : SearchCell K V) :=
        hpos.mp h₁
      obtain ⟨below, hset, hbal, hgrown, hcells⟩ := ihl hb.2.2.2.1 hal
        (fun cell hc => hknown cell (List.mem_append_left _ hc))
        (fun hn cell hc => hmid hn cell (List.mem_append_left _ hc))
      obtain ⟨t, ht, htb, htcells, htgrown⟩ := balanceSet_left hb hbal hgrown
      refine ⟨⟨t, some .left, below.oldElement⟩, ?_, htb, htgrown, ?_⟩
      · simp [h₁, hset, ht]
      · rw [htcells, cells_node, hcells, cells_node, change_front hsplit hlt, cellFor,
          cellFor, lookup_split hsplit, if_pos hlt]
    · by_cases h₂ : it.cmp c s < 0
      · have hlt : rankOf rank (⟨s, v, k, m⟩ : SearchCell K V) <
            rank (it.value c) := hneg.mp h₂
        obtain ⟨below, hset, hbal, hgrown, hcells⟩ := ihr hb.2.2.2.2 har
          (fun cell hc => hknown cell (List.mem_append_right _ (List.mem_cons_of_mem _ hc)))
          (fun hn cell hc => hmid hn cell (List.mem_append_right _ (List.mem_cons_of_mem _ hc)))
        obtain ⟨t, ht, htb, htcells, htgrown⟩ := balanceSet_right hb hbal hgrown
        refine ⟨⟨t, some .right, below.oldElement⟩, ?_, htb, htgrown, ?_⟩
        · simp [h₁, h₂, hset, ht]
        · rw [htcells, cells_node, hcells, cells_node, change_back hsplit hlt, cellFor,
            cellFor, lookup_split hsplit, if_neg hlt.le.not_gt, if_pos hlt]
      · have heq : rankOf rank (⟨s, v, k, m⟩ : SearchCell K V) =
            rank (it.value c) :=
          le_antisymm (not_lt.mp fun hc => h₁ (hpos.mpr hc))
            (not_lt.mp fun hc => h₂ (hneg.mpr hc))
        have hfor : cellFor it rank c (node h s v k l m r).cells = ⟨s, v, k, m⟩ := by
          rw [cellFor, cells_node, lookup_split hsplit, if_neg heq.ge.not_gt, if_neg heq.le.not_gt]
          rfl
        by_cases hn : it.hasNext c = true
        · obtain ⟨below, hset⟩ := Option.isSome_iff_exists.mp
            (hmid hn ⟨s, v, k, m⟩ (List.mem_append_right _ List.mem_cons_self))
          have hbal := balanced_replace hb s v k below.node
          refine ⟨⟨node h s v k l below.node r, some .mid, below.oldElement⟩, ?_, hbal,
            .inl rfl, ?_⟩
          · simp [h₁, h₂, hn, hset, balanceSet_of_balanced hbal]
          · rw [hfor, cells_node, cells_node, change_here hsplit heq]
            simp [setCell, hn, setTree, hset]
        · refine ⟨⟨node h s (Undef.wrap element) (some key) l m r, none, Undef.unwrap v⟩, ?_,
            balanced_replace hb s _ _ m, .inl rfl, ?_⟩
          · simp [h₁, h₂, hn]
          · rw [hfor, cells_node, cells_node, change_here hsplit heq]
            simp [setCell, hn]

theorem look_cons (x : β) (xs : List β) (t : TernarySearchTreeNode K V) :
    t.look rank (x :: xs) = (lookup (rankOf rank) x t.cells).bind fun cell =>
      if xs = [] then cell.entry else cell.mid.look rank xs := by
  simp only [look, findCell, Option.bind_assoc]
  congr 1
  funext cell
  split <;> rfl

theorem look_undefined (p : List β) :
    (undefined : TernarySearchTreeNode K V).look rank p = none := by
  cases p <;> rfl

theorem look_cellFor (c : σ) (xs : List β) (t : TernarySearchTreeNode K V) : t.look rank (rank
    (it.value c) :: xs) = if xs = [] then (cellFor it rank c t.cells).entry else (cellFor it rank c
    t.cells).mid.look rank xs := by
  rw [look_cons, cellFor]
  cases lookup (rankOf rank) (rank (it.value c)) t.cells with
  | none => split <;> simp [blankCell, SearchCell.entry, look_undefined]
  | some cell => rfl

variable {t t' : TernarySearchTreeNode K V} {o : Option (SearchCell K V)}

theorem look_change (ha : Ascending (rankOf rank)
    t.cells) {x : β} (hcells : t'.cells = change (rankOf
    rank) x o t.cells) (ho : ∀ cell ∈ o, cell.rankOf rank = x) (y : β) (ys : List β) : t'.look rank
    (y :: ys) = if y = x then o.bind fun cell => if ys = [] then cell.entry else cell.mid.look rank
    ys else t.look rank (y :: ys) := by
  rw [look_cons, look_cons, hcells, lookup_change ha ho]
  split <;> rfl

variable [JsTruthy K]

theorem sane_blankCell (hapt : it.Apt rank known c) :
    (blankCell it c : SearchCell K V).Sane known :=
  ⟨hapt.1, rfl, by simp [blankCell], by simp [blankCell], fun h => absurd rfl h⟩

theorem sane_cellFor (hapt : it.Apt rank known c) {t : TernarySearchTreeNode K V}
    (ht : t.Sound rank known) :
    (cellFor it rank c t.cells).Sane known ∧ (cellFor it rank c t.cells).mid.Sound rank known := by
  unfold cellFor
  cases hl : lookup (rankOf rank) (rank (it.value c)) t.cells with
  | none => exact ⟨sane_blankCell hapt, sound_undefined⟩
  | some cell =>
    obtain ⟨hmem, -⟩ := (lookup_eq_some ht.ascending).mp hl
    exact ⟨ht.sane cell hmem, ht.deeper cell hmem⟩

theorem TernarySearchTreeNode.Sound.of_change (ht : t.Sound rank known) {x : β}
    (hb : t'.level.Balanced) (hcells : t'.cells = change (rankOf rank) x o t.cells)
    (ho : ∀ cell ∈ o, cell.rankOf rank = x ∧ cell.Sane known ∧ cell.mid.Sound rank known) :
    t'.Sound rank known := by
  refine .intro hb ?_ ?_ ?_
  · rw [hcells]
    exact ascending_change ht.ascending fun cell hc => (ho cell hc).1
  · intro cell hc
    rw [hcells] at hc
    rcases mem_change.mp hc with ⟨hc, -⟩ | hc
    · exact ht.sane cell hc
    · exact (ho cell hc).2.1
  · intro cell hc
    rw [hcells] at hc
    rcases mem_change.mp hc with ⟨hc, -⟩ | hc
    · exact ht.deeper cell hc
    · exact (ho cell hc).2.2

theorem setAt_spec (hkey : JsTruthy.truthy key = true) (v : V) (c : σ) : it.AptTrail rank known c →
    ∀ t : TernarySearchTreeNode K V, t.Sound rank known → ∃ r, setAt it (some v) key c t = some r ∧
    r.node.Sound rank known ∧ ∀ p, r.node.look rank p = if p = it.path rank c then some (key, v)
    else t.look rank p := by
  induction c using @IKeyIterator.cursorInduction K σ it with
  | step c ih =>
    intro hapt t ht
    obtain ⟨hsane, hsound⟩ := sane_cellFor (t := t) hapt.apt ht
    obtain ⟨r, hset, hbal, -, hcells⟩ := setAt_level (some v) key hapt.apt
      ht.balanced ht.ascending (fun cell hc => (ht.sane cell hc).known)
      (fun hn cell hc => by
        obtain ⟨r, hr, -⟩ := ih hn (hapt.next hn) cell.mid (ht.deeper cell hc)
        rw [hr]
        rfl)
    have hrank : (setCell it (some v) key c (cellFor it rank c t.cells)).rankOf rank =
        rank (it.value c) := rankOf_setCell.trans (rankOf_cellFor ht.ascending)
    refine ⟨r, hset, ht.of_change hbal hcells ?_, ?_⟩
    · intro cell hc
      obtain rfl := Option.some_inj.mp hc
      refine ⟨hrank, ?_⟩
      by_cases hn : it.hasNext c = true
      · obtain ⟨below, hbelow, hsnd, hlook⟩ := ih hn (hapt.next hn) _ hsound
        have hmid : setTree it (some v) key (it.next c) (cellFor it rank c t.cells).mid =
            below.node := by simp [setTree, hbelow]
        rw [setCell, if_pos hn, hmid]
        refine ⟨⟨hsane.known, hsane.keyed, hsane.truthy, hsane.defined, fun _ => ?_⟩, hsnd⟩
        exact (entries_ne_nil hsnd).mpr ⟨_, _, (hlook _).trans (if_pos rfl)⟩
      · rw [setCell, if_neg hn]
        refine ⟨⟨hsane.known, rfl, ?_, ?_, hsane.inhabited⟩, hsound⟩
        · intro k hk
          exact Option.some_inj.mp hk ▸ hkey
        · intro e he
          rw [← Option.some_inj.mp he]
          simp
    · intro p
      cases p with
      | nil => rw [if_neg (Ne.symm it.path_ne_nil)]; rfl
      | cons y ys =>
        rw [look_change ht.ascending hcells (fun cell hc => Option.some_inj.mp hc ▸ hrank)]
        by_cases hy : y = rank (it.value c)
        · subst hy
          rw [if_pos rfl, look_cellFor, Option.bind_some]
          by_cases hn : it.hasNext c = true
          · obtain ⟨below, hbelow, -, hlook⟩ := ih hn (hapt.next hn) _ hsound
            have hmid : setTree it (some v) key (it.next c) (cellFor it rank c t.cells).mid =
                below.node := by simp [setTree, hbelow]
            rw [setCell, if_pos hn, hmid, hlook, IKeyIterator.path_of_hasNext hn]
            simp only [List.cons.injEq, true_and]
            by_cases hys : ys = []
            · subst hys
              rw [if_pos rfl, if_pos rfl, if_neg (Ne.symm it.path_ne_nil)]
              rfl
            · rw [if_neg hys, if_neg hys]
          · rw [setCell, if_neg hn, IKeyIterator.path_of_last hn]
            simp only [List.cons.injEq, true_and]
            by_cases hys : ys = []
            · rw [if_pos hys, if_pos hys]
              rfl
            · rw [if_neg hys, if_neg hys, if_neg hys]
        · rw [if_neg hy, if_neg]
          intro hp
          by_cases hn : it.hasNext c = true
          · rw [IKeyIterator.path_of_hasNext hn] at hp
            exact hy (List.cons.inj hp).1
          · rw [IKeyIterator.path_of_last hn] at hp
            exact hy (List.cons.inj hp).1

end CodeOss
