import CodeOss.SearchTree.Deleting

/-! The queries of a ternary search tree, answered from its map. -/

namespace CodeOss

open KeyedCells TernarySearchTreeNode TernarySearchTree PrefixMap Option

variable {K V σ β : Type} [LinearOrder β] {it : IKeyIterator K σ}
  {rank : JsString → β} {known : JsString → Prop} {c : σ} {t : TernarySearchTreeNode K V}

theorem not_below_of_missing {p : List β} (hp : p ≠ []) (hfind : t.findCell rank p = none) :
    (t.look rank p).isSome = false ∧ ¬ ∃ q, Below p q ∧ (t.look rank q).isSome = true := by
  refine ⟨by rw [look, hfind]; rfl, ?_⟩
  rintro ⟨q, hbelow, hlook⟩
  obtain ⟨r, hr, rfl⟩ := below_iff.mp hbelow
  rw [look_append hp hr, hfind] at hlook
  cases hlook

variable [JsTruthy K]

variable {cell : SearchCell K V} {key : K}

theorem SearchCell.Sane.entry_eq (h : cell.Sane known) :
    cell.entry.map Prod.snd = Undef.unwrap cell.value := by
  obtain ⟨-, hkeyed, -, hdefined, -⟩ := h
  obtain ⟨s, v, k, m⟩ := cell
  match v, k with
  | none, _ => simp [SearchCell.entry, Undef.unwrap]
  | some none, _ => exact absurd rfl (hdefined none rfl)
  | some (some value), none => simp at hkeyed
  | some (some value), some key => rfl

theorem SearchCell.Sane.value_isSome (h : cell.Sane known) :
    cell.value.isSome = cell.entry.isSome := by
  have hentry := congrArg Option.isSome h.entry_eq
  rw [isSome_map] at hentry
  rw [hentry]
  cases hv : cell.value with
  | none => rfl
  | some e =>
    cases e with
    | none => exact absurd rfl (h.defined none hv)
    | some value => rfl

theorem getNodeAt_cases (hapt : it.AptTrail rank known c) (ht : t.Sound rank known) :
    (getNodeAt it c t = undefined ∧ t.findCell rank (it.path rank c) = none) ∨ ∃ h s v k l m r,
    getNodeAt it c t = node h s v k l m r ∧ t.findCell rank (it.path rank c) = some ⟨s, v, k, m⟩ ∧
    (node h s v k l m r).Sound rank known := by
  have hfind := cell_getNodeAt hapt ht
  have hsound := ht.getNodeAt it c
  cases hnode : getNodeAt it c t with
  | undefined => exact .inl ⟨rfl, by rw [← hfind, hnode]; rfl⟩
  | node h s v k l m r =>
    exact .inr ⟨h, s, v, k, l, m, r, rfl, by rw [← hfind, hnode]; rfl, hnode ▸ hsound⟩

section

variable (hapt : it.AptTrail rank known (it.reset key))
include hapt

theorem get_eq (ht : t.Sound rank known) :
    get it t key = (t.look rank (it.path rank (it.reset key))).map Prod.snd := by
  rw [TernarySearchTree.get, getNode, look]
  rcases getNodeAt_cases hapt ht with ⟨hnode, hfind⟩ | ⟨h, s, v, k, l, m, r, hnode, hfind, hs⟩
  · rw [hnode, hfind]
    rfl
  · rw [hnode, hfind]
    exact hs.here.entry_eq.symm

omit hapt in
theorem exists_mid_iff {p : List β} (hp : p ≠ []) (hfind : t.findCell rank p = some cell)
    (hsane : cell.Sane known) (hsound : cell.mid.Sound rank known) :
    cell.mid ≠ undefined ↔ ∃ q, Below p q ∧ (t.look rank q).isSome = true := by
  constructor
  · intro hne
    obtain ⟨q, e, hlook⟩ := (entries_ne_nil hsound).mp (hsane.inhabited hne)
    have hq : q ≠ [] := by
      rintro rfl
      cases hlook
    refine ⟨p ++ q, below_iff.mpr ⟨q, hq, rfl⟩, ?_⟩
    rw [look_append hp hq, hfind, bind_some, hlook]
    rfl
  · rintro ⟨q, hbelow, hlook⟩ heq
    obtain ⟨r, hr, rfl⟩ := below_iff.mp hbelow
    rw [look_append hp hr, hfind, bind_some, heq, look_undefined] at hlook
    cases hlook

theorem has_iff (ht : t.Sound rank known) :
    has it t key = true ↔ (t.look rank (it.path rank (it.reset key))).isSome = true ∨
      ∃ q, Below (it.path rank (it.reset key)) q ∧ (t.look rank q).isSome = true := by
  rw [has, getNode]
  rcases getNodeAt_cases hapt ht with ⟨hnode, hfind⟩ | ⟨h, s, v, k, l, m, r, hnode, hfind, hs⟩
  · obtain ⟨hnone, hbelow⟩ := not_below_of_missing it.path_ne_nil hfind
    rw [hnode, hnone]
    simp [value, TernarySearchTreeNode.mid, hbelow]
  · rw [hnode, ← exists_mid_iff it.path_ne_nil hfind hs.here hs.mid]
    have hv : v.isSome = (t.look rank (it.path rank (it.reset key))).isSome := by
      rw [look, hfind]
      exact hs.here.value_isSome
    rw [← hv]
    cases m <;> cases v <;> simp [value, TernarySearchTreeNode.mid]

theorem hasElementOrSubtree_iff (ht : t.Sound rank known) :
    hasElementOrSubtree it t key = true ↔ (t.look rank (it.path rank (it.reset key))).isSome =
    true ∨ ∃ q, Below (it.path rank (it.reset key)) q ∧ (t.look rank q).isSome = true := by
  rw [hasElementOrSubtree, findSuperstrOrElement, getNode]
  rcases getNodeAt_cases hapt ht with ⟨hnode, hfind⟩ | ⟨h, s, v, k, l, m, r, hnode, hfind, hs⟩
  · obtain ⟨hnone, hbelow⟩ := not_below_of_missing it.path_ne_nil hfind
    rw [hnode, hnone]
    simp [hbelow]
  · rw [hnode, ← exists_mid_iff it.path_ne_nil hfind hs.here hs.mid]
    have hv : (Undef.unwrap v).isSome =
        (t.look rank (it.path rank (it.reset key))).isSome := by
      rw [look, hfind, ← hs.here.entry_eq, isSome_map]
      rfl
    rw [← hv]
    cases m <;> cases hu : Undef.unwrap v <;> simp [hu]

theorem findSuperstr_eq (ht : t.Sound rank known) : ∃
    list : List (List β × K × V), (list.Pairwise fun a b => a.1 < b.1) ∧ (∀ q e, (q, e) ∈ list ↔
    Below (it.path rank (it.reset key)) q ∧ t.look rank q = some e) ∧ findSuperstr it t key = if
    list = [] then none else some (list.map fun pe => (some pe.2.1, some pe.2.2)) := by
  have hp : it.path rank (it.reset key) ≠ [] := it.path_ne_nil
  rw [findSuperstr, findSuperstrOrElement, getNode]
  rcases getNodeAt_cases hapt ht with ⟨hnode, hfind⟩ | ⟨h, s, v, k, l, m, r, hnode, hfind, hs⟩
  · refine ⟨[], List.Pairwise.nil, fun q e => ?_, by rw [hnode]; rfl⟩
    have hnone := (not_below_of_missing hp hfind).2
    simp only [List.not_mem_nil, false_iff]
    rintro ⟨hbelow, hq⟩
    exact hnone ⟨q, hbelow, by rw [hq]; rfl⟩
  · refine ⟨(m.listing rank).map fun pe => (it.path rank (it.reset key) ++ pe.1, pe.2),
      ?_, fun q e => ?_, ?_⟩
    · exact List.pairwise_map.mpr ((pairwise_listing hs.mid).imp List.append_left_lt)
    · constructor
      · intro hmem
        obtain ⟨⟨r, e⟩, hr, heq⟩ := List.mem_map.mp hmem
        obtain ⟨rfl, rfl⟩ := Prod.mk.inj heq
        have hlook := (mem_listing hs.mid).mp hr
        have hne : r ≠ [] := by
          rintro rfl
          cases hlook
        refine ⟨below_iff.mpr ⟨r, hne, rfl⟩, ?_⟩
        rw [look_append hp hne, hfind]
        exact hlook
      · rintro ⟨hbelow, hq⟩
        obtain ⟨r, hne, rfl⟩ := below_iff.mp hbelow
        rw [look_append hp hne, hfind] at hq
        exact List.mem_map.mpr ⟨(r, e), (mem_listing hs.mid).mpr hq, rfl⟩
    · rw [hnode]
      have hentries := entries_eq hs.mid
      have hinhabited := hs.here.inhabited
      simp only [List.map_eq_nil_iff, List.map_map]
      cases hm : m.isUndefined with
      | true =>
        rw [isUndefined_iff.mp hm]
        rfl
      | false =>
        have hne : m ≠ undefined := fun heq => by simp [heq] at hm
        have hlist : m.listing rank ≠ [] := by
          intro hnil
          rw [hnil] at hentries
          exact hinhabited hne hentries
        simp only [Bool.false_eq_true, if_false, if_neg hlist, hentries]
        rfl

end

section Substr

variable [JsTruthy V]

def truthyOnly (m : PrefixMap β (K × V)) : PrefixMap β (K × V) := fun p =>
  (m p).filter fun e => JsTruthy.truthy e.2

theorem orElse_unwrap {cell : SearchCell K V} (h : cell.Sane known) (candidate : Option V) :
    orElse (Undef.unwrap cell.value) candidate =
      ((cell.entry.filter fun e => JsTruthy.truthy e.2).map Prod.snd).or candidate := by
  rw [← h.entry_eq]
  cases hentry : cell.entry with
  | none => rfl
  | some e =>
    by_cases htruthy : JsTruthy.truthy e.2 = true <;> simp [orElse, Option.filter, htruthy]

theorem findSubstrAt_eq (hapt : it.AptTrail rank known c)
    (ht : t.Sound rank known) (candidate : Option V) : findSubstrAt it c candidate t =
    (((truthyOnly (t.look rank)).longest (it.path rank c)).map Prod.snd).or candidate := by
  induction t generalizing c candidate with
  | undefined =>
    have hnone : (truthyOnly ((undefined : TernarySearchTreeNode K V).look rank)).longest
        (it.path rank c) = none := longest_eq_none.mpr fun q _ => by
      rw [truthyOnly, look_undefined]
      rfl
    rw [hnone]
    rfl
  | node h s v k l m r ihl ihm ihr =>
    obtain ⟨hpos, hneg⟩ := hapt.apt.2 s ht.here.known
    obtain ⟨xs, hpath⟩ := it.exists_path_eq rank c
    have hlook := fun p => look_node h s v k l m r (rank (it.value c)) p ht.ascending
    simp only [findSubstrAt]
    by_cases h₁ : it.cmp c s > 0
    · simp only [if_pos (hpos.mp h₁)] at hlook
      rw [if_pos h₁, ihl hapt ht.left, hpath]
      congr 2
      exact longest_cons_congr (fun p => by rw [truthyOnly, truthyOnly, hlook]) rfl
    · simp only [if_neg fun hc => h₁ (hpos.mpr hc)] at hlook
      rw [if_neg h₁]
      by_cases h₂ : it.cmp c s < 0
      · simp only [if_pos (hneg.mp h₂)] at hlook
        rw [if_pos h₂, ihr hapt ht.right, hpath]
        congr 2
        exact longest_cons_congr (fun p => by rw [truthyOnly, truthyOnly, hlook]) rfl
      · simp only [if_neg fun hc => h₂ (hneg.mpr hc)] at hlook
        rw [if_neg h₂, hpath, longest]
        have hroot : truthyOnly ((node h s v k l m r).look rank) [] = none := rfl
        rw [hroot, or_none]
        by_cases hn : it.hasNext c = true
        · obtain rfl : it.path rank (it.next c) = xs :=
            (List.cons.inj ((IKeyIterator.path_of_hasNext hn).symm.trans hpath)).2
          have hbehind : longest
              (fun p => truthyOnly ((node h s v k l m r).look rank) (rank (it.value c) :: p))
              (it.path rank (it.next c)) =
              ((truthyOnly (m.look rank)).longest (it.path rank (it.next c))).or
                ((⟨s, v, k, m⟩ : SearchCell K V).entry.filter fun e =>
                  JsTruthy.truthy e.2) := by
            refine longest_of_root it.path_ne_nil rfl ?_ fun q hq => ?_
            · simp only [truthyOnly, hlook, if_true]
            · simp only [truthyOnly, hlook, if_neg hq]
          rw [if_pos hn, ihm (hapt.next hn) ht.mid, orElse_unwrap ht.here, hbehind]
          cases (truthyOnly (m.look rank)).longest (it.path rank (it.next c)) <;> rfl
        · obtain rfl : [] = xs :=
            (List.cons.inj ((IKeyIterator.path_of_last hn).symm.trans hpath)).2
          rw [if_neg hn, orElse_unwrap ht.here, longest, truthyOnly, hlook, if_pos rfl]

theorem findSubstr_iff {key : K} (hapt : it.AptTrail rank known (it.reset key))
    (ht : t.Sound rank known) {q : List β} {e : K × V}
    (hq : q <+: it.path rank (it.reset key)) (he : t.look rank q = some e)
    (hmax : ∀ q', q' <+: it.path rank (it.reset key) → Below q q' → t.look rank q' = none) :
    findSubstr it t key = some e.2 ↔ JsTruthy.truthy e.2 = true := by
  rw [findSubstr, findSubstrAt_eq hapt ht, or_none]
  constructor
  · intro h
    obtain ⟨e', he', heq⟩ := map_eq_some_iff.mp h
    obtain ⟨q', -, hq', -⟩ := longest_eq_some.mp he'
    have htruthy := (filter_eq_some_iff.mp hq').2
    rwa [heq] at htruthy
  · intro htruthy
    have hlongest : (truthyOnly (t.look rank)).longest (it.path rank (it.reset key)) = some e :=
      longest_eq_some.mpr ⟨q, hq, filter_eq_some_iff.mpr ⟨he, htruthy⟩,
        fun q' hq' hbelow => by rw [truthyOnly, hmax q' hq' hbelow]; rfl⟩
    rw [hlongest]
    rfl

theorem findSubstr_eq_none {key : K} (hapt : it.AptTrail rank known (it.reset key))
    (ht : t.Sound rank known)
    (hnone : ∀ q, q <+: it.path rank (it.reset key) → t.look rank q = none) :
    findSubstr it t key = none := by
  have hlongest : (truthyOnly (t.look rank)).longest (it.path rank (it.reset key)) = none :=
    longest_eq_none.mpr fun q hq => by rw [truthyOnly, hnone q hq]; rfl
  rw [findSubstr, findSubstrAt_eq hapt ht, hlongest]
  rfl

end Substr

end CodeOss
