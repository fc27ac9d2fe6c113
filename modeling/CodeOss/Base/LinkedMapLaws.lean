import CodeOss.Base.LinkedMap

/-! What the operations of a linked map do to the list of its items. -/

namespace CodeOss.Maps

open LinkedChain List List Option Function
open Links (Chain)

namespace ItemLinks

variable {L : ItemLinks} {s : Side} {ids l r : List ItemId} {x : ItemId}

theorem ends_none_iff (h : Chain L s ids) :
    (L.ends .head = none ∧ L.ends .tail = none) ↔ ids = [] := by
  have hfirst := h.first
  have hlast := h.last
  cases s <;> simp only [Side.other] at hlast <;> rw [hfirst, hlast] <;> cases ids <;> simp

theorem addItem_spec (h : Chain L s ids) (hx : x ∉ ids) (hblank : ∀ t, L.toward x t = none) :
    ∃ L', addItem s x L = some L' ∧ Chain L' s (x :: ids) := by
  rw [addItem]
  split
  · next hempty =>
      obtain rfl := (ends_none_iff h).1 hempty
      refine ⟨_, rfl, h.push hx (by simp) (by simp) (hblank s) (hblank s.other) (by simp) ?_⟩
      intro j _ t _
      rfl
  · next hempty =>
      obtain ⟨first, rest, rfl⟩ := exists_cons_of_ne_nil (mt (ends_none_iff h).2 hempty)
      have hends : L.ends s = some first := h.first
      have hne : x ≠ first := fun he => hx (he ▸ mem_cons_self)
      rw [hends]
      refine ⟨_, rfl, h.push hx (by simp) ?_ ?_ ?_ ?_ ?_⟩
      · rw [getLast?_cons_cons, ← h.last]
        simp
      · simp [hne, hblank]
      · simp [hne]
      · simp
      · intro j hj t hcase
        have hfirst : ¬(j = first ∧ t = s) := fun he => hcase ⟨congrArg some he.1, he.2⟩
        simp [hj, hfirst]

theorem detachEnd_spec {b : ItemId} (h : Chain L s (x :: b :: r)) :
    ∃ L', detachEnd s x L = some L' ∧ Chain L' s (b :: r) := by
  have hnext : L.toward x s.other = some b := (h.split [] x (b :: r) rfl).2
  rw [detachEnd, hnext]
  refine ⟨_, rfl, Chain.unlink (l := []) h (by simp) ?_ (by simp) (by simp) ?_⟩
  · have hlast := h.last
    rw [getLast?_cons_cons] at hlast
    simpa using hlast
  · intro j _ t _ hcase
    have hb : ¬(j = b ∧ t = s) := fun he => hcase ⟨congrArg some he.1, he.2⟩
    simp [hb]

theorem detachMiddle_head (h : Chain L .head (l ++ x :: r)) (hl : l ≠ []) (hr : r ≠ []) :
    ∃ L', detachMiddle x L = some L' ∧ Chain L' .head (l ++ r) := by
  obtain ⟨b, r', rfl⟩ := exists_cons_of_ne_nil hr
  obtain ⟨a, l', rfl⟩ := exists_cons_of_ne_nil hl
  obtain ⟨c, hc⟩ := ne_none_iff_exists'.1 (mt getLast?_eq_none_iff.1 hl)
  have hnext : L.toward x .tail = some b := h.toward_other
  have hprevious : L.toward x .head = some c := h.toward.trans hc
  have hbc : b ≠ c := by
    rintro rfl
    have hdisjoint := (nodup_append.1 h.nodup).2.2 b (mem_of_getLast? hc) b
    exact hdisjoint (mem_cons_of_mem _ mem_cons_self) rfl
  rw [detachMiddle, hnext, hprevious]
  refine ⟨_, rfl, h.unlink h.first ?_ ?_ ?_ ?_⟩
  · refine h.last.trans ?_
    rw [getLast?_append_cons, getLast?_cons_cons, getLast?_append_cons]
  · intro a' ha'
    obtain rfl := Option.some.inj (hc.symm.trans ha')
    simp [Side.other]
  · intro b' hb'
    obtain rfl := Option.some.inj hb'
    simpa [hbc] using hc.symm
  · intro j _ t hcase hcase'
    have hleft : ¬(j = c ∧ t = .tail) := fun he => hcase ⟨hc.symm ▸ congrArg some he.1, he.2⟩
    have hright : ¬(j = b ∧ t = .head) := fun he => hcase' ⟨congrArg some he.1, he.2⟩
    simp [hleft, hright]

theorem detachMiddle_spec (h : Chain L s (l ++ x :: r)) (hl : l ≠ []) (hr : r ≠ []) :
    ∃ L', detachMiddle x L = some L' ∧ Chain L' s (l ++ r) := by
  cases s with
  | head => exact detachMiddle_head h hl hr
  | tail =>
    have hreverse := h.reverse
    rw [reverse_append, reverse_cons, append_assoc, singleton_append] at hreverse
    obtain ⟨L', hsome, hchain⟩ := detachMiddle_head hreverse
      (mt reverse_eq_nil_iff.1 hr) (mt reverse_eq_nil_iff.1 hl)
    refine ⟨L', hsome, ?_⟩
    have hback := hchain.reverse
    rwa [reverse_append, reverse_reverse, reverse_reverse] at hback

theorem detachOther_spec (h : Chain L s (l ++ [x])) (hl : l ≠ []) :
    ∃ L', detachEnd s.other x L = some L' ∧ Chain L' s l := by
  have hreverse := h.reverse
  rw [reverse_append, reverse_singleton, singleton_append] at hreverse
  obtain ⟨a, r, hr⟩ := exists_cons_of_ne_nil (mt reverse_eq_nil_iff.1 hl)
  rw [hr] at hreverse
  obtain ⟨L', hsome, hchain⟩ := detachEnd_spec hreverse
  refine ⟨L', hsome, ?_⟩
  have hback := hchain.reverse
  rwa [← hr, reverse_reverse, Side.other_other] at hback

theorem removeItem_spec (h : Chain L .head (l ++ x :: r)) :
    ∃ L', removeItem x L = some L' ∧ Chain L' .head (l ++ r) := by
  have hnot : x ∉ l ++ r := by
    have hnodup := h.nodup
    rw [nodup_middle] at hnodup
    exact (nodup_cons.1 hnodup).1
  have hclear : ∀ {L' : ItemLinks}, Chain L' .head (l ++ r) →
      Chain ((L'.setToward x .tail none).setToward x .head none) .head (l ++ r) := by
    intro L' hchain
    refine hchain.congr rfl fun i hi t => ?_
    have hne : i ≠ x := fun he => hnot (he ▸ hi)
    simp [hne]
  have hhead := h.ends_eq_iff
  have htail : L.ends .tail = some x ↔ r = [] := h.other_ends_eq_iff
  rw [removeItem]
  by_cases hl : l = []
  · subst hl
    by_cases hr : r = []
    · subst hr
      rw [if_pos ⟨hhead.2 rfl, htail.2 rfl⟩]
      exact ⟨_, rfl, hclear (Chain.nil (by simp) (by simp [Side.other]))⟩
    · obtain ⟨b, r, rfl⟩ := exists_cons_of_ne_nil hr
      obtain ⟨L', hsome, hchain⟩ := detachEnd_spec h
      rw [if_neg fun hboth => hr (htail.1 hboth.2), if_pos (hhead.2 rfl), hsome]
      exact ⟨_, rfl, hclear hchain⟩
  · rw [if_neg fun hboth => hl (hhead.1 hboth.1), if_neg (mt hhead.1 hl)]
    by_cases hr : r = []
    · subst hr
      obtain ⟨L', hsome, hchain⟩ := detachOther_spec h hl
      rw [if_pos (htail.2 rfl)]
      refine ⟨_, by rw [show detachEnd .tail x L = some L' from hsome]; rfl, hclear ?_⟩
      rwa [append_nil]
    · obtain ⟨L', hsome, hchain⟩ := detachMiddle_spec h hl hr
      rw [if_neg (mt htail.1 hr), hsome]
      exact ⟨_, rfl, hclear hchain⟩

theorem moveTo_spec (h : Chain L s (l ++ x :: r)) :
    ∃ L', moveTo s x L = some L' ∧ Chain L' s (x :: (l ++ r)) := by
  rw [moveTo]
  by_cases hl : l = []
  · subst hl
    rw [if_pos (h.ends_eq_iff.2 rfl)]
    exact ⟨L, rfl, h⟩
  · rw [if_neg (mt h.ends_eq_iff.1 hl)]
    have hdetached : ∃ L', unlinkItem s x L = some L' ∧ Chain L' s (l ++ r) := by
      rw [unlinkItem]
      by_cases hr : r = []
      · subst hr
        rw [if_pos (h.other_ends_eq_iff.2 rfl), append_nil]
        exact detachOther_spec h hl
      · rw [if_neg (mt h.other_ends_eq_iff.1 hr)]
        exact detachMiddle_spec h hl hr
    obtain ⟨L', hsome, hchain⟩ := hdetached
    have hx : x ∉ l ++ r := by
      have hnodup := h.nodup
      rw [nodup_middle] at hnodup
      exact (nodup_cons.1 hnodup).1
    obtain ⟨first, rest, hids⟩ := exists_cons_of_ne_nil
      (fun he : l ++ r = [] => hl (append_eq_nil_iff.1 he).1)
    have hends : L'.ends s = some first := by rw [hchain.first, hids]; rfl
    have hne : x ≠ first := fun he => hx (he ▸ hids ▸ mem_cons_self)
    rw [hsome]
    simp only [bind_eq_bind, bind_some, hends]
    refine ⟨_, rfl, hchain.push hx (by simp) ?_ ?_ ?_ ?_ ?_⟩
    · rw [hids, getLast?_cons_cons, ← hids, ← hchain.last]
      simp
    · simp [hne]
    · simp [hne, hids]
    · simp [hids]
    · intro j hj t hcase
      rw [hids] at hcase
      have hfirst : ¬(j = first ∧ t = s) := fun he => hcase ⟨congrArg some he.1, he.2⟩
      simp [hj, hfirst]

end ItemLinks

namespace LinkedMap

variable {K V : Type} [DecidableEq K]

/-- The links read from the side `s`, the inner map and the size describe the same entries, whose
keys are distinct. -/
structure Holds (m : LinkedMap K V) (s : Side) (ids : List ItemId) (es : List (Item K V)) :
    Prop where
  chain : Chain m.links s ids
  items : ids.map m.items = es.map some
  keys : (es.map (·.key)).Nodup
  map : ∀ key id, m.map key = some id ↔ id ∈ ids ∧ (m.items id).map (·.key) = some key
  size : m.size = ids.length
  created : ∀ id ∈ ids, id < m.created

/-- The entries without a key, and the one with it. -/
def without (key : K) (es : List (Item K V)) : List (Item K V) := es.filter (·.key ≠ key)

def only (key : K) (es : List (Item K V)) : List (Item K V) := es.filter (·.key = key)

section

variable {m : LinkedMap K V} {s : Side} {ids l r : List ItemId} {es el er : List (Item K V)}
  {key : K} {id : ItemId} {e : Item K V}

omit [DecidableEq K] in
theorem Holds.reverse (h : Holds m s ids es) : Holds m s.other ids.reverse es.reverse where
  chain := h.chain.reverse
  items := by rw [map_reverse, map_reverse, h.items]
  keys := by rw [map_reverse]; exact nodup_reverse.2 h.keys
  map key id := by rw [mem_reverse]; exact h.map key id
  size := by rw [length_reverse]; exact h.size
  created id hid := h.created id (mem_reverse.1 hid)

omit [DecidableEq K] in
theorem Holds.length_eq (h : Holds m s ids es) : ids.length = es.length := by
  have hlength := congrArg List.length h.items
  rwa [length_map, length_map] at hlength

/-- The place of an item among the links and among the entries. -/
structure Place (m : LinkedMap K V) (key : K) (id : ItemId) (ids l r : List ItemId)
    (es el er : List (Item K V)) (e : Item K V) : Prop where
  ids_eq : ids = l ++ id :: r
  es_eq : es = el ++ e :: er
  left : l.map m.items = el.map some
  right : r.map m.items = er.map some
  item : m.items id = some e
  key_eq : e.key = key
  without_eq : without key es = el ++ er
  only_eq : only key es = [e]

theorem keys_split (hkeys : ((el ++ e :: er).map (·.key)).Nodup) :
    without e.key (el ++ e :: er) = el ++ er ∧ only e.key (el ++ e :: er) = [e] := by
  rw [map_append, map_cons, nodup_middle, nodup_cons, List.mem_append] at hkeys
  obtain ⟨hel, her⟩ := not_or.1 hkeys.1
  have hleft : ∀ a ∈ el, a.key ≠ e.key := fun a ha he => hel (mem_map.2 ⟨a, ha, he⟩)
  have hright : ∀ a ∈ er, a.key ≠ e.key := fun a ha he => her (mem_map.2 ⟨a, ha, he⟩)
  rw [without, only, filter_append, filter_append, filter_cons_of_neg (by simp),
    filter_cons_of_pos (by simp), filter_eq_self.2 (by simpa using hleft),
    filter_eq_self.2 (by simpa using hright), filter_eq_nil_iff.2 (by simpa using hleft),
    filter_eq_nil_iff.2 (by simpa using hright)]
  exact ⟨rfl, rfl⟩

theorem Holds.place (h : Holds m s ids es) (hmap : m.map key = some id) :
    ∃ l r el er e, Place m key id ids l r es el er e := by
  obtain ⟨hmem, hkey⟩ := (h.map key id).1 hmap
  obtain ⟨e, hitem, rfl⟩ := map_eq_some_iff.1 hkey
  obtain ⟨l, r, rfl⟩ := append_of_mem hmem
  have hitems := h.items
  rw [map_append, map_cons, hitem] at hitems
  obtain ⟨el, rest, rfl, hel, hrest⟩ := map_eq_append_iff.1 hitems.symm
  obtain ⟨e', er, rfl, he', her⟩ := map_eq_cons_iff.1 hrest
  obtain rfl := Option.some.inj he'
  obtain ⟨hwithout, honly⟩ := keys_split h.keys
  exact ⟨l, r, el, er, e', rfl, rfl, hel.symm, her.symm, hitem, rfl, hwithout, honly⟩

theorem Holds.map_eq_none_iff (h : Holds m s ids es) : m.map key = none ↔ key ∉ es.map (·.key) := by
  constructor
  · intro hnone hmem
    obtain ⟨e, he, rfl⟩ := mem_map.1 hmem
    have hsome : some e ∈ ids.map m.items := h.items ▸ mem_map_of_mem he
    obtain ⟨id, hid, hitem⟩ := mem_map.1 hsome
    have hmap := (h.map e.key id).2 ⟨hid, by rw [hitem]; rfl⟩
    rw [hnone] at hmap
    exact absurd hmap.symm (some_ne_none id)
  · intro hnot
    by_contra hsome
    obtain ⟨id, hid⟩ := ne_none_iff_exists'.1 hsome
    obtain ⟨l, r, el, er, e, hplace⟩ := h.place hid
    refine hnot (hplace.es_eq ▸ mem_map.2 ⟨e, ?_, hplace.key_eq⟩)
    exact mem_append_right _ mem_cons_self

theorem without_of_not_mem (h : key ∉ es.map (·.key)) : without key es = es ∧ only key es = [] := by
  have hne : ∀ e ∈ es, e.key ≠ key := fun e he hkey => h (mem_map.2 ⟨e, he, hkey⟩)
  exact ⟨filter_eq_self.2 (by simpa using hne), filter_eq_nil_iff.2 (by simpa using hne)⟩

theorem find?_of_not_mem (h : key ∉ es.map (·.key)) : es.find? (·.key = key) = none := by
  rw [find?_eq_none]
  exact fun e he hkey => h (mem_map.2 ⟨e, he, of_decide_eq_true hkey⟩)

omit [DecidableEq K] in
theorem Holds.relink (h : Holds m s ids es) {L : ItemLinks} {ids' : List ItemId}
    {es' : List (Item K V)} (hchain : Chain L s ids') (hids : ids'.Perm ids)
    (hitems : ids'.map m.items = es'.map some) (hes : es'.Perm es) :
    Holds { m with links := L } s ids' es' where
  chain := hchain
  items := hitems
  keys := (hes.map _).nodup_iff.2 h.keys
  map key id := by rw [hids.mem_iff]; exact h.map key id
  size := by rw [hids.length_eq]; exact h.size
  created id hid := h.created id (hids.mem_iff.1 hid)

theorem Holds.moveTo (h : Holds m s ids es) (hmap : m.map key = some id) :
    ∃ L ids', ItemLinks.moveTo s id m.links = some L ∧
      Holds { m with links := L } s ids' (only key es ++ without key es) := by
  obtain ⟨l, r, el, er, e, hplace⟩ := h.place hmap
  have hchain := h.chain
  rw [hplace.ids_eq] at hchain
  obtain ⟨L, hsome, hmoved⟩ := ItemLinks.moveTo_spec hchain
  refine ⟨L, _, hsome, h.relink hmoved ?_ ?_ ?_⟩
  · rw [hplace.ids_eq]
    exact perm_middle.symm
  · rw [hplace.only_eq, hplace.without_eq]
    simp [hplace.left, hplace.right, hplace.item]
  · rw [hplace.only_eq, hplace.without_eq, hplace.es_eq, singleton_append]
    exact perm_middle.symm

def touched (touch : Touch) (key : K) (es : List (Item K V)) : List (Item K V) :=
  match touch with
  | .none => es
  | .asOld => only key es ++ without key es
  | .asNew => without key es ++ only key es

def written (key : K) (value : V) (es : List (Item K V)) : List (Item K V) :=
  es.map fun e => if e.key = key then ⟨key, value⟩ else e

omit [DecidableEq K] in
def added (touch : Touch) (e : Item K V) (es : List (Item K V)) : List (Item K V) :=
  match touch with
  | .asOld => e :: es
  | _ => es ++ [e]

theorem touched_asNew (key : K) (es : List (Item K V)) :
    touched .asNew key es = without key es ++ only key es := rfl

omit [DecidableEq K] in
theorem added_asNew (e : Item K V) (es : List (Item K V)) : added .asNew e es = es ++ [e] := rfl

def entered (touch : Touch) (key : K) (value : V) (es : List (Item K V)) : List (Item K V) :=
  if key ∈ es.map (·.key) then touched touch key (written key value es)
  else added touch ⟨key, value⟩ es

omit [DecidableEq K] in
theorem Holds.ends_ne (h : Holds m .head ids es) (hid : id ∈ ids) :
    ¬(m.links.ends .head = none ∨ m.links.ends .tail = none) := by
  have hne : ids ≠ [] := ne_nil_of_mem hid
  have htail : m.links.ends .tail = ids.getLast? := h.chain.last
  rw [h.chain.first, htail]
  simpa using hne

theorem Holds.touch (h : Holds m .head ids es) (hmap : m.map key = some id) (touch : Touch) :
    ∃ L ids', ItemLinks.touchUnlessNone id touch m.links = some L ∧
      Holds { m with links := L } .head ids' (touched touch key es) := by
  have hends := h.ends_ne ((h.map key id).1 hmap).1
  cases touch with
  | none => exact ⟨m.links, ids, rfl, h⟩
  | asOld =>
    obtain ⟨L, ids', hsome, hholds⟩ := h.moveTo hmap
    refine ⟨L, ids', ?_, hholds⟩
    rw [ItemLinks.touchUnlessNone, if_neg (by decide), ItemLinks.touch, if_neg hends]
    exact hsome
  | asNew =>
    obtain ⟨L, ids', hsome, hholds⟩ := h.reverse.moveTo hmap
    have hback := hholds.reverse
    rw [reverse_append, only, without, ← filter_reverse, ← filter_reverse, reverse_reverse] at hback
    refine ⟨L, ids'.reverse, ?_, hback⟩
    rw [ItemLinks.touchUnlessNone, if_neg (by decide), ItemLinks.touch, if_neg hends]
    exact hsome

theorem Holds.get (h : Holds m .head ids es) (key : K) (touch : Touch) :
    ∃ m' ids', m.get key touch = some (m', (es.find? (·.key = key)).map (·.value)) ∧
      Holds m' .head ids' (touched touch key es) := by
  rw [LinkedMap.get]
  cases hmap : m.map key with
  | none =>
    have hnot := h.map_eq_none_iff.1 hmap
    have hfind := find?_of_not_mem hnot
    obtain ⟨hwithout, honly⟩ := without_of_not_mem hnot
    refine ⟨m, ids, by rw [hfind]; rfl, ?_⟩
    cases touch <;> simpa [touched, hwithout, honly] using h
  | some id =>
    obtain ⟨l, r, el, er, e, hplace⟩ := h.place hmap
    obtain ⟨L, ids', hsome, hholds⟩ := h.touch hmap touch
    have hfind : es.find? (·.key = key) = some e := by
      rw [← head?_filter]
      exact congrArg List.head? hplace.only_eq
    dsimp only
    rw [hsome, hplace.item, hfind]
    exact ⟨_, ids', rfl, hholds⟩

omit [DecidableEq K] in
theorem Holds.id_unique (h : Holds m s ids es) (hmap : m.map key = some id) {id' : ItemId}
    (hid : id' ∈ ids) (hkey : (m.items id').map (·.key) = some key) : id' = id := by
  have hmap' := (h.map key id').2 ⟨hid, hkey⟩
  exact Option.some.inj (hmap'.symm.trans hmap)

section

variable (h : Holds m .head ids es)
include h

theorem Holds.write (hmap : m.map key = some id) (value : V) :
    Holds { m with items := Function.update m.items id (some ⟨key, value⟩) } .head ids
      (written key value es) := by
  have hkey := ((h.map key id).1 hmap).2
  have hupdate : ∀ id' ∈ ids, Function.update m.items id (some ⟨key, value⟩) id' =
      (m.items id').map fun e => if e.key = key then ⟨key, value⟩ else e := by
    intro id' hid
    by_cases he : id' = id
    · subst he
      obtain ⟨e, hitem, hkey⟩ := map_eq_some_iff.1 hkey
      rw [update_self, hitem, map_some, if_pos hkey]
    · rw [update_of_ne he]
      cases hitem : m.items id' with
      | none => rfl
      | some e =>
        have hne : e.key ≠ key := fun hk => he (h.id_unique hmap hid (by rw [hitem, ← hk]; rfl))
        rw [map_some, if_neg hne]
  have hsame : ∀ e : Item K V,
      (if e.key = key then ⟨key, value⟩ else e : Item K V).key = e.key := by
    intro e
    by_cases he : e.key = key <;> simp [he]
  refine ⟨h.chain, ?_, ?_, fun key' id' => ?_, h.size, h.created⟩
  · rw [map_congr_left hupdate, written, List.map_map]
    have hitems := congrArg
      (List.map (Option.map fun e => if e.key = key then ⟨key, value⟩ else e)) h.items
    rwa [List.map_map, List.map_map] at hitems
  · have hkeys : (written key value es).map (·.key) = es.map (·.key) := by
      rw [written, List.map_map]
      exact map_congr_left fun e _ => hsame e
    rw [hkeys]
    exact h.keys
  · rw [h.map key' id']
    refine and_congr_right fun hid => ?_
    dsimp only
    rw [hupdate id' hid, Option.map_map]
    cases m.items id' with
    | none => rfl
    | some e => simp [hsame]

omit h in
theorem Holds.add (h : Holds m s ids es) (hnone : m.map key = none) (value : V) :
    ∃ L, ItemLinks.addItem s m.created
        ((m.links.setToward m.created .tail none).setToward m.created .head none) = some L ∧
      Holds
        { items := Function.update m.items m.created (some ⟨key, value⟩)
          created := m.created + 1
          links := L
          map := Function.update m.map key (some m.created)
          size := m.size + 1 } s (m.created :: ids) (⟨key, value⟩ :: es) := by
  have hnew : m.created ∉ ids := fun hid => lt_irrefl _ (h.created _ hid)
  have hblank : Chain ((m.links.setToward m.created .tail none).setToward m.created .head none) s
      ids := by
    refine h.chain.congr rfl fun i hi t => ?_
    have hne : i ≠ m.created := fun he => hnew (he ▸ hi)
    simp [hne]
  obtain ⟨L, hsome, hchain⟩ := ItemLinks.addItem_spec hblank hnew fun t => by cases t <;> simp
  have hupdate : ∀ id ∈ ids, Function.update m.items m.created (some ⟨key, value⟩) id =
      m.items id := by
    intro id hid
    have hne : id ≠ m.created := fun he => hnew (he ▸ hid)
    exact update_of_ne hne _ _
  refine ⟨L, hsome, hchain, ?_, ?_, fun key' id => ?_, ?_, fun id hid => ?_⟩
  · dsimp only
    rw [map_cons, map_cons, update_self, map_congr_left hupdate, h.items]
  · rw [map_cons]
    exact nodup_cons.2 ⟨h.map_eq_none_iff.1 hnone, h.keys⟩
  · dsimp only
    rw [mem_cons]
    by_cases hid : id = m.created
    · subst hid
      rw [update_self]
      by_cases hkey : key' = key
      · simp [hkey]
      · rw [update_of_ne hkey]
        refine iff_of_false (fun hmap => hnew ((h.map key' _).1 hmap).1) fun hmem => hkey ?_
        exact (Option.some.inj hmem.2).symm
    · rw [update_of_ne hid]
      by_cases hkey : key' = key
      · subst hkey
        rw [update_self]
        refine iff_of_false (fun he => hid (Option.some.inj he).symm) fun hmem => ?_
        have hmap := (h.map key' id).2 ⟨hmem.1.resolve_left hid, hmem.2⟩
        exact absurd (hnone.symm.trans hmap).symm (some_ne_none id)
      · rw [update_of_ne hkey, h.map key' id]
        simp [hid]
  · dsimp only
    rw [h.size, length_cons]
    push_cast
    rfl
  · rcases mem_cons.1 hid with rfl | hid
    · exact Nat.lt_succ_self _
    · exact Nat.lt_succ_of_lt (h.created id hid)

theorem Holds.set (key : K) (value : V) (touch : Touch) : ∃ m' ids',
    m.set key value touch = some m' ∧ Holds m' .head ids' (entered touch key value es) := by
  rw [LinkedMap.set, entered]
  cases hmap : m.map key with
  | some id =>
    have hmem : key ∈ es.map (·.key) := by
      by_contra hnot
      exact absurd (hmap.symm.trans (h.map_eq_none_iff.2 hnot)) (some_ne_none id)
    obtain ⟨L, ids', hsome, hholds⟩ := (h.write hmap value).touch hmap touch
    dsimp only at hsome ⊢
    rw [if_pos hmem, hsome]
    exact ⟨_, ids', rfl, hholds⟩
  | none =>
    rw [if_neg (h.map_eq_none_iff.1 hmap)]
    have hlast : ∃ m' ids', (do
        let links ← ItemLinks.addItemLast m.created
          ((m.links.setToward m.created .tail none).setToward m.created .head none)
        some
          { items := Function.update m.items m.created (some ⟨key, value⟩)
            created := m.created + 1
            links
            map := Function.update m.map key (some m.created)
            size := m.size + 1 }) = some m' ∧ Holds m' .head ids' (es ++ [⟨key, value⟩]) := by
      obtain ⟨L, hsome, hholds⟩ := h.reverse.add hmap value
      have hback := hholds.reverse
      rw [reverse_cons, reverse_cons, reverse_reverse, reverse_reverse] at hback
      rw [ItemLinks.addItemLast, show ItemLinks.addItem .tail _ _ = some L from hsome]
      exact ⟨_, _, rfl, hback⟩
    cases touch with
    | none => exact hlast
    | asNew => exact hlast
    | asOld =>
      obtain ⟨L, hsome, hholds⟩ := h.add hmap value
      dsimp only
      rw [ItemLinks.addItemFirst, hsome]
      exact ⟨_, _, rfl, hholds⟩

theorem Holds.unlink (hmap : m.map key = some id) :
    ∃ L ids', ItemLinks.removeItem id m.links = some L ∧
      Holds { m with map := Function.update m.map key none, links := L, size := m.size - 1 } .head
        ids' (without key es) := by
  obtain ⟨l, r, el, er, e, hplace⟩ := h.place hmap
  have hchain := h.chain
  rw [hplace.ids_eq] at hchain
  obtain ⟨L, hsome, hremoved⟩ := ItemLinks.removeItem_spec hchain
  have hmem : ∀ i, i ∈ l ++ r ↔ i ∈ ids ∧ i ≠ id := by
    have hnodup := h.chain.nodup
    intro i
    rw [hplace.ids_eq, nodup_middle, nodup_cons] at hnodup
    rw [hplace.ids_eq, perm_middle.mem_iff, mem_cons]
    refine ⟨fun hi => ⟨.inr hi, fun he => hnodup.1 (he ▸ hi)⟩, fun hi => hi.1.resolve_left hi.2⟩
  refine ⟨L, l ++ r, hsome, hremoved, ?_, ?_, fun key' id' => ?_, ?_, fun i hi => ?_⟩
  · rw [hplace.without_eq, map_append, map_append, hplace.left, hplace.right]
  · exact h.keys.sublist (filter_sublist.map _)
  · dsimp only
    rw [hmem]
    by_cases hkey : key' = key
    · subst hkey
      rw [update_self]
      refine iff_of_false (fun he => absurd he.symm (some_ne_none id')) fun hi => ?_
      exact hi.1.2 (h.id_unique hmap hi.1.1 hi.2)
    · rw [update_of_ne hkey, h.map key' id']
      refine ⟨fun hi => ⟨⟨hi.1, ?_⟩, hi.2⟩, fun hi => ⟨hi.1.1, hi.2⟩⟩
      rintro rfl
      exact hkey (Option.some.inj (hi.2.symm.trans ((h.map key id').1 hmap).2))
  · dsimp only
    rw [h.size, hplace.ids_eq]
    simp only [length_append, length_cons]
    push_cast
    ring
  · exact h.created i ((hmem i).1 hi).1

omit h in
theorem Holds.find (h : Holds m s ids es) (hmap : m.map key = some id) :
    m.items id = es.find? (·.key = key) := by
  obtain ⟨l, r, el, er, e, hplace⟩ := h.place hmap
  rw [hplace.item, ← head?_filter]
  exact (congrArg List.head? hplace.only_eq).symm

theorem Holds.remove (key : K) : ∃ m' ids', m.remove key =
    some (m', (es.find? (·.key = key)).map (·.value)) ∧ Holds m' .head ids' (without key es) := by
  rw [LinkedMap.remove]
  cases hmap : m.map key with
  | none =>
    have hnot := h.map_eq_none_iff.1 hmap
    refine ⟨m, ids, ?_, by rwa [(without_of_not_mem hnot).1]⟩
    rw [find?_of_not_mem hnot]
    rfl
  | some id =>
    obtain ⟨L, ids', hsome, hholds⟩ := h.unlink hmap
    dsimp only
    rw [hsome, h.find hmap]
    exact ⟨_, ids', rfl, hholds⟩

theorem Holds.shift :
    ∃ m' ids', m.shift = some (m', es.head?.map (·.value)) ∧ Holds m' .head ids' es.tail := by
  have hends := ItemLinks.ends_none_iff h.chain
  have hlength := h.length_eq
  rw [LinkedMap.shift]
  cases es with
  | nil =>
    rw [if_pos (hends.2 (eq_nil_of_length_eq_zero hlength))]
    exact ⟨m, ids, rfl, h⟩
  | cons e es =>
    obtain ⟨id, rest, rfl⟩ := exists_cons_of_length_eq_add_one hlength
    rw [if_neg (by rw [hends]; exact cons_ne_nil _ _)]
    have hitem : m.items id = some e := (List.cons.inj h.items).1
    have hmap : m.map e.key = some id :=
      (h.map e.key id).2 ⟨mem_cons_self, by rw [hitem]; rfl⟩
    obtain ⟨L, ids', hsome, hholds⟩ := h.unlink hmap
    have hhead : m.links.ends .head = some id := h.chain.first
    have htail : m.links.ends .tail = (id :: rest).getLast? := h.chain.last
    obtain ⟨last, hlast⟩ := ne_none_iff_exists'.1
      (mt getLast?_eq_none_iff.1 (cons_ne_nil id rest))
    rw [hhead, htail, hlast]
    simp only [bind_eq_bind, bind_some, hitem, hsome]
    have htailEntries : without e.key (e :: es) = es := (@keys_split K V _ [] es e h.keys).1
    exact ⟨_, ids', rfl, htailEntries ▸ hholds⟩

end

omit [DecidableEq K] in
theorem Holds.clear (m : LinkedMap K V) (s : Side) : Holds m.clear s [] [] where
  chain := Chain.nil (by cases s <;> simp [LinkedMap.clear])
    (by cases s <;> simp [LinkedMap.clear, Side.other])
  items := rfl
  keys := nodup_nil
  map key id := by simp [LinkedMap.clear]
  size := rfl
  created id hid := absurd hid not_mem_nil

def erased (map : K → Option ItemId) (es : List (Item K V)) : K → Option ItemId :=
  es.foldl (fun map e => Function.update map e.key none) map

theorem erased_apply (map : K → Option ItemId) (es : List (Item K V)) (key : K) :
    erased map es key = if key ∈ es.map (·.key) then none else map key := by
  induction es generalizing map with
  | nil => rfl
  | cons e es ih =>
    rw [erased, foldl_cons, ← erased, ih]
    by_cases hkey : key = e.key <;> simp [hkey]

theorem trimLoop_spec (n : ℕ) (map : K → Option ItemId) (size : ℤ)
    (hchain : Chain m.links s (l ++ ids)) (hitems : ids.map m.items = es.map some) :
    m.trimLoop s n ids.head? map size =
      some ((ids.drop n).head?, erased map (es.take n), size - (min n ids.length : ℕ)) := by
  induction n generalizing l ids es map size with
  | zero => simp [trimLoop, erased]
  | succ n ih =>
    cases ids with
    | nil =>
      obtain rfl : es = [] := map_eq_nil_iff.1 hitems.symm
      simp [trimLoop, erased]
    | cons id ids =>
      obtain ⟨e, es, rfl⟩ := exists_cons_of_length_eq_add_one
        (show es.length = ids.length + 1 by simpa using (congrArg List.length hitems).symm)
      have hitem : m.items id = some e := (List.cons.inj hitems).1
      have hnext : m.links.toward id s.other = ids.head? := hchain.toward_other
      have hchain' : Chain m.links s ((l ++ [id]) ++ ids) := by
        rwa [append_assoc, singleton_append]
      rw [head?_cons, trimLoop, hitem]
      simp only [bind_eq_bind, bind_some]
      rw [hnext, ih _ _ hchain' (List.cons.inj hitems).2]
      simp [erased]
      omega

theorem Holds.cut (h : Holds m s ids es) {k : ℕ} (hk : k < ids.length ∨ k = 0) :
    Holds
      { m with
        map := erased m.map (es.take k)
        size := m.size - (min k ids.length : ℕ)
        links := (ids.drop k).head?.elim (m.links.setEnd s (ids.drop k).head?) fun id =>
          (m.links.setEnd s (ids.drop k).head?).setToward id s none } s
      (ids.drop k) (es.drop k) where
  chain := by
    cases hids : ids.drop k with
    | nil =>
      have hempty : ids = [] := by
        have hlength := List.length_drop (i := k) (l := ids)
        rw [hids, length_nil] at hlength
        exact eq_nil_of_length_eq_zero (by omega)
      have hlast := h.chain.last
      rw [hempty] at hlast
      exact Chain.nil (by simp) (by simpa using hlast)
    | cons id rest =>
      have hsplit : ids = ids.take k ++ id :: rest := by rw [← hids, take_append_drop]
      have hchain := h.chain
      rw [hsplit] at hchain
      refine hchain.cut (by simp) (by simp) (by simp) fun j t hcase => ?_
      simp [hcase]
  items := by rw [map_drop, map_drop, h.items]
  keys := h.keys.sublist ((drop_sublist _ _).map _)
  map key id := by
    have hids : ids.take k ++ ids.drop k = ids := take_append_drop k ids
    have hkeys := h.keys
    rw [← take_append_drop k es, map_append] at hkeys
    dsimp only
    rw [erased_apply]
    split
    · next hmem =>
        obtain ⟨e, he, rfl⟩ := mem_map.1 hmem
        refine iff_of_false (fun hnone => absurd hnone.symm (some_ne_none id)) fun hid => ?_
        have hitem : m.items id ∈ (es.drop k).map some := by
          rw [map_drop, ← h.items, ← map_drop]
          exact mem_map_of_mem hid.1
        obtain ⟨e', he', hsome⟩ := mem_map.1 hitem
        rw [← hsome] at hid
        exact (nodup_append.1 hkeys).2.2 e.key hmem e'.key (mem_map_of_mem he')
          (Option.some.inj hid.2).symm
    · next hnot =>
        rw [h.map key id]
        refine ⟨fun hid => ⟨?_, hid.2⟩, fun hid => ⟨mem_of_mem_drop hid.1, hid.2⟩⟩
        have hmem := hid.1
        rw [← hids] at hmem
        refine (List.mem_append.1 hmem).resolve_left fun htake => hnot ?_
        have hitem : m.items id ∈ (es.take k).map some := by
          rw [map_take, ← h.items, ← map_take]
          exact mem_map_of_mem htake
        obtain ⟨e, he, hsome⟩ := mem_map.1 hitem
        rw [← hsome] at hid
        exact mem_map.2 ⟨e, he, Option.some.inj hid.2⟩
  size := by
    dsimp only
    rw [h.size, List.length_drop]
    omega
  created id hid := h.created id (mem_of_mem_drop hid)

def kept (newSize : Option ℤ) (es : List (Item K V)) : List (Item K V) :=
  newSize.elim es fun n => es.drop (es.length - n.toNat)

variable {newSize : Option ℤ}

theorem Holds.trim (h : Holds m s ids es) (hnonneg : ∀ n ∈ newSize, 0 ≤ n) :
    ∃ m' ids', LinkedMap.trim s m newSize = some m' ∧ Holds m' s ids' (kept newSize es) := by
  have hlength := h.length_eq
  have hsize := h.size
  have hchain : Chain m.links s ([] ++ ids) := h.chain
  rw [LinkedMap.trim]
  cases newSize with
  | none =>
    rw [if_neg (by simp), if_neg (by simp), h.chain.first]
    simp only [elim_none]
    rw [trimLoop_spec 0 _ _ hchain h.items]
    exact ⟨_, _, rfl, h.cut (.inr rfl)⟩
  | some n =>
    have hn := hnonneg n rfl
    by_cases hfits : m.size ≤ n
    · rw [if_pos (by simpa using hfits)]
      refine ⟨m, ids, rfl, ?_⟩
      have hzero : es.length - n.toNat = 0 := by omega
      rwa [kept, elim_some, hzero, drop_zero]
    · rw [if_neg (by simpa using hfits)]
      by_cases hzero : n = 0
      · subst hzero
        rw [if_pos rfl, kept, elim_some, Int.toNat_zero, Nat.sub_zero, drop_length]
        exact ⟨_, [], rfl, Holds.clear m s⟩
      · rw [if_neg (by simpa using hzero), h.chain.first]
        simp only [elim_some]
        rw [trimLoop_spec _ _ _ hchain h.items, kept, elim_some,
          show es.length - n.toNat = (m.size - n).toNat by omega]
        exact ⟨_, _, rfl, h.cut (.inl (by omega))⟩

theorem Holds.trimOld (h : Holds m .head ids es) (hnonneg : ∀ n ∈ newSize, 0 ≤ n) :
    ∃ m' ids', m.trimOld newSize = some m' ∧ Holds m' .head ids' (kept newSize es) :=
  h.trim hnonneg

theorem Holds.trimNew (h : Holds m .head ids es) (hnonneg : ∀ n ∈ newSize, 0 ≤ n) : ∃ m' ids',
    m.trimNew newSize = some m' ∧
    Holds m' .head ids' (newSize.elim es fun n => es.take n.toNat) := by
  obtain ⟨m', ids', hsome, hholds⟩ := h.reverse.trim hnonneg
  refine ⟨m', ids'.reverse, hsome, ?_⟩
  have hback := hholds.reverse
  cases newSize with
  | none => rwa [kept, elim_none, reverse_reverse] at hback
  | some n =>
    have htake : es.take (es.length - (es.length - n.toNat)) = es.take n.toNat :=
      take_eq_take_iff.2 (by omega)
    rwa [kept, elim_some, length_reverse, drop_reverse, reverse_reverse, htake] at hback

end

end LinkedMap

end CodeOss.Maps
