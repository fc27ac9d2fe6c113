import CodeOss.SearchTree.Searching

/-! The iterators of the tree and the order they put the segments in. Where case matters
that is the order of the code units; where it does not, `compareSubstringIgnoreCase` need not
be an order at all, since it lowers the case of some characters and raises that of others. -/

open List

namespace CodeOss

theorem codes_cons_lt_cons {x y : CodeUnit} {a b : JsString} : JsString.codes (x :: a) <
    JsString.codes (y :: b) ↔ x < y ∨ x = y ∧ JsString.codes a < JsString.codes b := by
  simp only [JsString.codes, map_cons, cons_lt_cons_iff, UInt16.lt_iff_toNat_lt, UInt16.toNat_inj]

theorem compareSubstringFrom_iff {a b : JsString} {bEnd rounds i j : Nat} (hb : bEnd ≤ b.length)
    (hr : rounds = min (a.length - i) (bEnd - j)) (hi : i ≤ a.length) (hj : j ≤ bEnd) :
    (compareSubstringFrom a b a.length bEnd rounds i j > 0 ↔ JsString.codes ((b.take bEnd).drop j) <
    JsString.codes (a.drop i)) ∧ (compareSubstringFrom a b a.length bEnd rounds i j < 0 ↔
    JsString.codes (a.drop i) < JsString.codes ((b.take bEnd).drop j)) := by
  induction rounds generalizing i j with
  | zero =>
    have hlenb : ((b.take bEnd).drop j).length = bEnd - j := by
      simp only [List.length_drop, List.length_take]
      omega
    have hlena : (a.drop i).length = a.length - i := List.length_drop
    rw [compareSubstringFrom, compareLengths]
    cases hda : a.drop i with
    | nil =>
      cases hdb : (b.take bEnd).drop j with
      | nil =>
        rw [hda, List.length_nil] at hlena
        rw [hdb, List.length_nil] at hlenb
        rw [if_neg (by omega), if_neg (by omega)]
        simp [JsString.codes]
      | cons y ys =>
        rw [hda, List.length_nil] at hlena
        rw [hdb, List.length_cons] at hlenb
        rw [if_pos (by omega)]
        simp [JsString.codes]
    | cons x xs =>
      rw [hda, List.length_cons] at hlena
      have hdb : (b.take bEnd).drop j = [] := List.eq_nil_of_length_eq_zero (by omega)
      rw [hdb, List.length_nil] at hlenb
      rw [hdb, if_neg (by omega), if_pos (by omega)]
      simp [JsString.codes]
  | succ rounds ih =>
    have hai : i < a.length := by omega
    have hbj : j < b.length := by omega
    have hdropa : a.drop i = a[i] :: a.drop (i + 1) := List.drop_eq_getElem_cons hai
    have hdropb : (b.take bEnd).drop j = b[j] :: (b.take bEnd).drop (j + 1) := by
      rw [List.drop_eq_getElem_cons (by rw [List.length_take]; omega), List.getElem_take]
    obtain ⟨ih₁, ih₂⟩ := @ih (i + 1) (j + 1) (by omega) (by omega) (by omega)
    rw [compareSubstringFrom, List.getElem?_eq_getElem hai, List.getElem?_eq_getElem hbj,
      hdropa, hdropb, codes_cons_lt_cons, codes_cons_lt_cons]
    simp only
    split_ifs with h₁ h₂
    · have hnot : ¬ b[j] < a[i] := fun h => UInt16.lt_irrefl _ (UInt16.lt_trans h h₁)
      have hne : b[j] ≠ a[i] := fun h => UInt16.lt_irrefl _ (h ▸ h₁)
      simp [h₁, hnot, hne]
    · have hne : b[j] ≠ a[i] := fun h => UInt16.lt_irrefl _ (h ▸ h₂)
      simp [h₁, h₂, hne.symm]
    · have heq : a[i] = b[j] := by
        rw [← UInt16.toNat_inj]
        rw [gt_iff_lt, UInt16.lt_iff_toNat_lt] at h₂
        rw [UInt16.lt_iff_toNat_lt] at h₁
        omega
      rw [ih₁, ih₂]
      simp [heq, UInt16.lt_irrefl]

theorem SegmentCursor.cmp_iff (toLowerCase : JsString → JsString) (c : SegmentCursor)
    (s : JsString) : (c.cmp toLowerCase true s > 0 ↔ JsString.codes c.text < JsString.codes s) ∧
    (c.cmp toLowerCase true s < 0 ↔ JsString.codes s < JsString.codes c.text) := by
  have hstop := c.stop_le
  have hlen := c.valueLen_le
  have htext : (c.value.take c.stop).drop c.start = c.text := by
    rw [SegmentCursor.text_eq, List.drop_take]
  have h := @compareSubstringFrom_iff s c.value c.stop _ 0 c.start (by omega) rfl
    (Nat.zero_le _) c.start_le
  rw [htext, drop_zero] at h
  exact h

inductive KeyIteratorKind where
  | strings
  | configKeys (caseSensitive : Bool)
  | paths (splitOnBackslash caseSensitive : Bool)

namespace KeyIteratorKind

def Cursor : KeyIteratorKind → Type
  | strings => StringIterator
  | configKeys _ => SegmentCursor
  | paths _ _ => SegmentCursor

def iterator (toLowerCase : JsString → JsString) :
    (kind : KeyIteratorKind) → IKeyIterator JsString kind.Cursor
  | strings => stringIterator
  | configKeys caseSensitive => configKeysIterator toLowerCase caseSensitive
  | paths splitOnBackslash caseSensitive =>
    pathIterator toLowerCase splitOnBackslash caseSensitive

def caseSensitive : KeyIteratorKind → Bool
  | strings => true
  | configKeys caseSensitive => caseSensitive
  | paths _ caseSensitive => caseSensitive

end KeyIteratorKind

section Agreement

variable {K σ : Type}

theorem IKeyIterator.forall_trail {it : IKeyIterator K σ} {P : σ → Prop}
    (step : ∀ c, P c → it.hasNext c = true → P (it.next c)) (c : σ) :
    P c → ∀ d ∈ it.trail c, P d := by
  induction c using @IKeyIterator.cursorInduction K σ it with
  | step c ih =>
    intro hc d hd
    by_cases hn : it.hasNext c = true
    · rw [it.trail_of_hasNext hn] at hd
      rcases mem_cons.mp hd with rfl | hd
      · exact hc
      · exact ih hn (step c hc hn) d hd
    · rw [it.trail_of_last (by simpa using hn)] at hd
      rwa [mem_singleton.mp hd]

/-- The comparison of the segments of the keys agrees with an order. -/
def Agrees (it : IKeyIterator K σ) (rank : JsString → List Nat) (keys : K → Prop) : Prop :=
  ∀ key, keys key → ∀ c ∈ it.cursors key, ∀ key', keys key' → ∀ d ∈ it.cursors key',
    (it.cmp c (it.value d) > 0 ↔ rank (it.value c) < rank (it.value d)) ∧
      (it.cmp c (it.value d) < 0 ↔ rank (it.value d) < rank (it.value c))

def Segment (it : IKeyIterator K σ) (keys : K → Prop) (s : JsString) : Prop :=
  ∃ key, keys key ∧ ∃ c ∈ it.cursors key, it.value c = s

theorem Agrees.aptTrail {it : IKeyIterator K σ} {rank : JsString → List Nat} {keys : K → Prop}
    (h : Agrees it rank keys) {key : K} (hkey : keys key) :
    it.AptTrail rank (Segment it keys) (it.reset key) := by
  intro c hc
  refine ⟨⟨key, hkey, c, hc, rfl⟩, ?_⟩
  rintro _ ⟨key', hkey', d, hd, rfl⟩
  exact h key hkey c hc key' hkey' d hd

theorem agrees_codes (toLowerCase : JsString → JsString) {kind : KeyIteratorKind}
    (hcase : kind.caseSensitive = true) {keys : JsString → Prop}
    (hkeys : ∀ key, keys key → key ≠ []) :
    Agrees (kind.iterator toLowerCase) JsString.codes keys := by
  intro key hkey c hc key' hkey' d hd
  match kind, hcase with
  | .configKeys true, _ => exact SegmentCursor.cmp_iff toLowerCase c _
  | .paths _ true, _ => exact SegmentCursor.cmp_iff toLowerCase c _
  | .strings, _ =>
    have hinside : ∀ key, keys key → ∀ c ∈ stringIterator.cursors key, c.pos < c.value.length := by
      intro key hkey
      refine IKeyIterator.forall_trail (fun c _ hn => ?_) _ ?_
      · exact of_decide_eq_true hn
      · exact length_pos_of_ne_nil (hkeys key hkey)
    have hc' : c.pos < c.value.length := hinside key hkey c hc
    have hd' : d.pos < d.value.length := hinside key' hkey' d hd
    have hcmp : StringIterator.cmp c (StringIterator.text d) =
        (d.value[d.pos].toNat : Int) - c.value[c.pos].toNat := by
      simp [StringIterator.cmp, StringIterator.text, hc', hd']
    have hcodes : ∀ (c : StringIterator) (h : c.pos < c.value.length),
        JsString.codes c.text = [c.value[c.pos].toNat] := by
      intro c h
      simp [StringIterator.text, JsString.codes, h]
    show (StringIterator.cmp c (StringIterator.text d) > 0 ↔ JsString.codes (StringIterator.text c)
      < JsString.codes (StringIterator.text d)) ∧ (StringIterator.cmp c (StringIterator.text d) < 0
      ↔ JsString.codes (StringIterator.text d) < JsString.codes (StringIterator.text c))
    rw [hcmp, hcodes c hc', hcodes d hd']
    simp only [cons_lt_cons_iff, not_lt_nil, and_false, or_false]
    omega

end Agreement

end CodeOss

/-! Runs of operations on a ternary search tree, against the map from segment lists to
entries that the same operations make. A run that keeps clear of what the deletions forget
leaves a tree that is this map. -/

namespace CodeOss

open KeyedCells TernarySearchTreeNode TernarySearchTree

inductive SearchTreeOperation (K V : Type) where
  | set (key : K) (element : V)
  | fill (draw : Nat → Nat) (values : List (K × V))
  | fillKeys (draw : Nat → Nat) (element : V) (keys : List K)
  | delete (key : K)
  | deleteSuperstr (key : K)
  | clear

namespace SearchTreeOperation

variable {K V σ : Type}

def keys : SearchTreeOperation K V → List K
  | set key _ => [key]
  | fill _ values => values.map Prod.fst
  | fillKeys _ _ keys => keys
  | delete key => [key]
  | deleteSuperstr key => [key]
  | clear => []

def meaning (path : K → List (List Nat)) (m : PrefixMap (List Nat) (K × V)) :
    SearchTreeOperation K V → PrefixMap (List Nat) (K × V)
  | set key element => m.put (path key) (key, element)
  | fill draw values => (shuffle draw values).foldl (fun m e => m.put (path e.1) e) m
  | fillKeys draw element keys =>
    (shuffle draw keys).foldl (fun m key => m.put (path key) (key, element)) m
  | delete key => m.remove (path key)
  | deleteSuperstr key => m.removeBelow (path key)
  | clear => PrefixMap.empty

section Tree

variable [JsTruthy K] [JsTruthy V] (it : IKeyIterator K σ)

def apply (root : TernarySearchTreeNode K V) :
    SearchTreeOperation K V → Option (TernarySearchTreeNode K V)
  | set key element => (TernarySearchTree.set it root key (some element)).map Prod.fst
  | fill draw values => TernarySearchTree.fill it draw root (values.map fun e => (e.1, some e.2))
  | fillKeys draw element keys => TernarySearchTree.fillKeys it draw root (some element) keys
  | delete key => TernarySearchTree.delete it root key
  | deleteSuperstr key => TernarySearchTree.deleteSuperstr it root key
  | clear => some undefined

/-- A deletion finds its node in a place where it forgets nothing. -/
def Safe (root : TernarySearchTreeNode K V) : SearchTreeOperation K V → Prop
  | delete key => Removable false (getNode it root key) ∧ Keeps it false (it.reset key) root
  | deleteSuperstr key =>
    Removable true (getNode it root key) ∧ Keeps it true (it.reset key) root
  | _ => True

end Tree

end SearchTreeOperation

namespace TernarySearchTree

open SearchTreeOperation

variable {K V σ : Type} [JsTruthy K] [JsTruthy V] (it : IKeyIterator K σ)

/-- The operations one after the other, `none` if one of them throws. -/
def run (ops : List (SearchTreeOperation K V)) (root : TernarySearchTreeNode K V) :
    Option (TernarySearchTreeNode K V) :=
  ops.foldlM (fun root op => op.apply it root) root

/-- Every deletion of the run is safe in the tree it meets. -/
def Careful : List (SearchTreeOperation K V) → TernarySearchTreeNode K V → Prop
  | [], _ => True
  | op :: ops, root =>
    op.Safe it root ∧
      match op.apply it root with
      | none => True
      | some root' => Careful ops root'

instance [DecidableEq K] (root : TernarySearchTreeNode K V) :
    (op : SearchTreeOperation K V) → Decidable (op.Safe it root)
  | .delete key => inferInstanceAs
      (Decidable (Removable false (getNode it root key) ∧ Keeps it false (it.reset key) root))
  | .deleteSuperstr key => inferInstanceAs
      (Decidable (Removable true (getNode it root key) ∧ Keeps it true (it.reset key) root))
  | .set _ _ | .fill _ _ | .fillKeys _ _ _ | .clear => .isTrue trivial

def decideCareful [DecidableEq K] : (ops : List (SearchTreeOperation K V)) →
    (root : TernarySearchTreeNode K V) → Decidable (Careful it ops root)
  | [], _ => .isTrue trivial
  | op :: ops, root =>
    have : Decidable (match op.apply it root with
        | none => True
        | some root' => Careful it ops root') :=
      match op.apply it root with
      | none => .isTrue trivial
      | some root' => decideCareful ops root'
    inferInstanceAs (Decidable (op.Safe it root ∧ match op.apply it root with
      | none => True
      | some root' => Careful it ops root'))

instance [DecidableEq K] (ops : List (SearchTreeOperation K V))
    (root : TernarySearchTreeNode K V) : Decidable (Careful it ops root) :=
  decideCareful it ops root

/-- The map that the operations make of the empty one. -/
def meaning (path : K → List (List Nat)) (ops : List (SearchTreeOperation K V)) :
    PrefixMap (List Nat) (K × V) :=
  ops.foldl (fun m op => op.meaning path m) PrefixMap.empty

theorem shuffle_go_map {α γ : Type} (draw : Nat → Nat) (f : α → γ) (n : Nat) (array : List α) :
    shuffle.go draw n (array.map f) = (shuffle.go draw n array).map f := by
  induction n generalizing array with
  | zero => rfl
  | succ n ih =>
    simp only [shuffle.go, getElem?_map]
    cases array[n + 1]? with
    | none => exact ih array
    | some a =>
      cases array[draw (n + 1) % (n + 2)]? with
      | none => exact ih array
      | some b =>
        simp only [Option.map_some, ← map_set]
        exact ih _

theorem mem_of_mem_shuffle_go {α : Type} {draw : Nat → Nat} {n : Nat} {array : List α} {a : α}
    (h : a ∈ shuffle.go draw n array) : a ∈ array := by
  induction n generalizing array with
  | zero => exact h
  | succ n ih =>
    simp only [shuffle.go] at h
    split at h
    · next x y hx hy =>
        rcases mem_or_eq_of_mem_set (ih h) with hmem | rfl
        · rcases mem_or_eq_of_mem_set hmem with hmem | rfl
          · exact hmem
          · exact mem_of_getElem? hy
        · exact mem_of_getElem? hx
    · exact ih h

section Step

variable {it} {rank : JsString → List Nat} {known : JsString → Prop}

omit [JsTruthy V] in
theorem set_spec {t : TernarySearchTreeNode K V} {key : K}
    (hapt : it.AptTrail rank known (it.reset key)) (hkey : JsTruthy.truthy key = true)
    (ht : t.Sound rank known) (element : V) :
    ∃ t', (set it t key (some element)).map Prod.fst = some t' ∧ t'.Sound rank known ∧
      t'.look rank = PrefixMap.put (t.look rank) (it.path rank (it.reset key)) (key, element) := by
  obtain ⟨r, hset, hsound, hlook⟩ := setAt_spec hkey element (it.reset key) hapt t ht
  refine ⟨r.node, by rw [set, hset]; rfl, hsound, funext fun p => ?_⟩
  rw [hlook, PrefixMap.put]
  congr

variable {t : TernarySearchTreeNode K V}

omit [JsTruthy V] in
theorem foldlM_set {α : Type} (keyOf : α → K) (elementOf : α → V)
    (entries : List α) (hapt : ∀ a ∈ entries, it.AptTrail rank known (it.reset (keyOf a)) ∧
    JsTruthy.truthy (keyOf a) = true) (ht : t.Sound rank known) : ∃ t',
    entries.foldlM (fun root a => (set it root (keyOf a) (some (elementOf a))).map Prod.fst) t =
    some t' ∧ t'.Sound rank known ∧ t'.look rank = entries.foldl (fun m a => PrefixMap.put m
    (it.path rank (it.reset (keyOf a))) (keyOf a, elementOf a)) (t.look rank) := by
  induction entries generalizing t with
  | nil => exact ⟨t, rfl, ht, rfl⟩
  | cons a entries ih =>
    obtain ⟨ha, hrest⟩ := forall_mem_cons.mp hapt
    obtain ⟨t₁, hset, hsound, hlook⟩ := set_spec ha.1 ha.2 ht (elementOf a)
    obtain ⟨t₂, hfold, hsound₂, hlook₂⟩ := ih hrest hsound
    refine ⟨t₂, ?_, hsound₂, ?_⟩
    · rw [foldlM_cons, hset]
      exact hfold
    · rw [hlook₂, hlook, foldl_cons]

theorem apply_spec {op : SearchTreeOperation K V}
    (hapt : ∀ key ∈ op.keys, it.AptTrail rank known (it.reset key) ∧ JsTruthy.truthy key = true)
    (ht : t.Sound rank known) (hsafe : op.Safe it t) : ∃ t', op.apply it t = some t' ∧ t'.Sound rank
    known ∧ t'.look rank = op.meaning (fun key => it.path rank (it.reset key)) (t.look rank) := by
  cases op with
  | set key element =>
    obtain ⟨ha, hkey⟩ := hapt key mem_cons_self
    exact set_spec ha hkey ht element
  | fill draw values =>
    have hmap : shuffle draw (values.map fun e => (e.1, some e.2)) =
        (shuffle draw values).map fun e => (e.1, some e.2) := by
      rw [shuffle, shuffle, length_map, shuffle_go_map]
    obtain ⟨t', hfold, hsound, hlook⟩ := foldlM_set (Prod.fst : K × V → K) Prod.snd
      (shuffle draw values) (fun e he => hapt e.1 (mem_map_of_mem (mem_of_mem_shuffle_go he))) ht
    refine ⟨t', ?_, hsound, hlook⟩
    rw [apply, fill, hmap, foldlM_map]
    exact hfold
  | fillKeys draw element keys =>
    exact foldlM_set id (fun _ => element) _
      (fun key hkey => hapt key (mem_of_mem_shuffle_go hkey)) ht
  | delete key =>
    obtain ⟨ha, -⟩ := hapt key mem_cons_self
    obtain ⟨t', hdel, hsound, hlook⟩ := deleteKey_spec false ha ht hsafe.1 hsafe.2
    refine ⟨t', hdel, hsound, funext fun p => ?_⟩
    rw [hlook, SearchTreeOperation.meaning]
    congr
  | deleteSuperstr key =>
    obtain ⟨ha, -⟩ := hapt key mem_cons_self
    obtain ⟨t', hdel, hsound, hlook⟩ := deleteKey_spec true ha ht hsafe.1 hsafe.2
    refine ⟨t', hdel, hsound, funext fun p => ?_⟩
    rw [hlook, SearchTreeOperation.meaning]
    congr
  | clear => exact ⟨undefined, rfl, sound_undefined, funext look_undefined⟩

theorem run_spec {ops : List (SearchTreeOperation K V)}
    (hapt : ∀ op ∈ ops, ∀ key ∈ op.keys, it.AptTrail rank known (it.reset key) ∧
    JsTruthy.truthy key = true)
    (ht : t.Sound rank known) (hcareful : Careful it ops t) :
    ∃ t', run it ops t = some t' ∧ t'.Sound rank known ∧
      t'.look rank = ops.foldl
        (fun m op => op.meaning (fun key => it.path rank (it.reset key)) m) (t.look rank) := by
  induction ops generalizing t with
  | nil => exact ⟨t, rfl, ht, rfl⟩
  | cons op ops ih =>
    obtain ⟨hop, hops⟩ := forall_mem_cons.mp hapt
    obtain ⟨hsafe, hnext⟩ := hcareful
    obtain ⟨t₁, happly, hsound, hlook⟩ := apply_spec hop ht hsafe
    rw [happly] at hnext
    obtain ⟨t₂, hrun, hsound₂, hlook₂⟩ := ih hops hsound hnext
    refine ⟨t₂, ?_, hsound₂, ?_⟩
    · rw [run, foldlM_cons, happly]
      exact hrun
    · rw [hlook₂, hlook, foldl_cons]

end Step

/-- Left and right subtrees are in order and balanced, at every level. -/
def Orderly (rank : JsString → List Nat) : TernarySearchTreeNode K V → Prop
  | .undefined => True
  | .node h s _ _ l m r =>
    (∀ cell ∈ l.cells, rank cell.segment < rank s) ∧
      (∀ cell ∈ r.cells, rank s < rank cell.segment) ∧
      h = 1 + max l.height r.height ∧ l.height ≤ r.height + 1 ∧ r.height ≤ l.height + 1 ∧
      Orderly rank l ∧ Orderly rank m ∧ Orderly rank r

variable {t : TernarySearchTreeNode K V} {rank : JsString → List Nat}

omit [JsTruthy V] in
theorem orderly_of_sound {known : JsString → Prop} (ht : t.Sound rank known) : Orderly rank t := by
  induction t with
  | undefined => trivial
  | node h s v k l m r ihl ihm ihr =>
    obtain ⟨-, -, hlow, hhigh⟩ := ascending_split.mp ht.ascending
    obtain ⟨hh, hlr, hrl, -, -⟩ := ht.balanced
    simp only [height_level] at hh hlr hrl
    exact ⟨hlow, hhigh, hh, hlr, hrl, ihl ht.left, ihm ht.mid, ihr ht.right⟩

/-- The tree answers as the map does. `has` answers for longer keys as well, and `findSubstr`
passes over a value that is not truthy: they are right as far as that does not show. -/
structure Answers (rank : JsString → List Nat) (keys : K → Prop)
    (m : PrefixMap (List Nat) (K × V)) (t : TernarySearchTreeNode K V) : Prop where
  ordered : Orderly rank t
  balanced : t.isBalanced = true
  iterates : ∃ list, PrefixMap.Lists m list ∧
    t.entries = list.map fun pe => (some pe.2.1, some pe.2.2)
  gets : ∀ key, keys key → get it t key = (m (it.path rank (it.reset key))).map Prod.snd
  hasKey : ∀ key, keys key →
    ((has it t key = true ↔ (m (it.path rank (it.reset key))).isSome = true) ↔
      ((m (it.path rank (it.reset key))).isSome = true ∨
        ∀ q, PrefixMap.Below (it.path rank (it.reset key)) q → m q = none))
  substr : ∀ key, keys key → ∀ q e, q <+: it.path rank (it.reset key) → m q = some e →
    (∀ q', q' <+: it.path rank (it.reset key) → PrefixMap.Below q q' → m q' = none) →
    (findSubstr it t key = some e.2 ↔ JsTruthy.truthy e.2 = true)
  substr_none : ∀ key, keys key →
    (∀ q, q <+: it.path rank (it.reset key) → m q = none) → findSubstr it t key = none
  superstr : ∀ key, keys key → ∃ list : List (List (List Nat) × K × V),
    (list.Pairwise fun a b => a.1 < b.1) ∧
      (∀ q e, (q, e) ∈ list ↔
        PrefixMap.Below (it.path rank (it.reset key)) q ∧ m q = some e) ∧
      findSuperstr it t key =
        if list = [] then none else some (list.map fun pe => (some pe.2.1, some pe.2.2))
  elementOrSubtree : ∀ key, keys key →
    (hasElementOrSubtree it t key = true ↔
      (m (it.path rank (it.reset key))).isSome = true ∨
        ∃ q, PrefixMap.Below (it.path rank (it.reset key)) q ∧ (m q).isSome = true)

variable {it}

theorem answers_of_sound {known : JsString → Prop} {keys : K → Prop}
    (hapt : ∀ key, keys key → it.AptTrail rank known (it.reset key)) (ht : t.Sound rank known) :
    Answers it rank keys (t.look rank) t where
  ordered := orderly_of_sound ht
  balanced := isBalanced_of_balanced ht.balanced
  iterates := ⟨t.listing rank, ⟨pairwise_listing ht, fun _ _ => mem_listing ht⟩, entries_eq ht⟩
  gets key hkey := get_eq (hapt key hkey) ht
  hasKey key hkey := by
    have hbelow : (∀ q, PrefixMap.Below (it.path rank (it.reset key)) q → t.look rank q = none) ↔
        ¬ ∃ q, PrefixMap.Below (it.path rank (it.reset key)) q ∧
          (t.look rank q).isSome = true := by
      simp only [not_exists, not_and, Option.not_isSome_iff_eq_none]
    have hlogic : ∀ P Q : Prop, (P ∨ Q ↔ P) ↔ P ∨ ¬ Q := by tauto
    rw [has_iff (hapt key hkey) ht, hbelow]
    exact hlogic _ _
  substr key hkey q e hq he hmax := findSubstr_iff (hapt key hkey) ht hq he hmax
  substr_none key hkey hnone := findSubstr_eq_none (hapt key hkey) ht hnone
  superstr key hkey := findSuperstr_eq (hapt key hkey) ht
  elementOrSubtree key hkey := hasElementOrSubtree_iff (hapt key hkey) ht

end TernarySearchTree

section Trees

open SearchTreeOperation

variable {V : Type} [JsTruthy V]

/-- A careful run, over keys whose comparison agrees with an order, ends in a tree that
answers as the map of the run. Where case matters, the order of the code units will do. -/
theorem careful_runs_are_maps (toLowerCase : JsString → JsString) (kind : KeyIteratorKind)
    (rank : JsString → List Nat) (keys : JsString → Prop) (hkeys : ∀ key, keys key → key ≠ [])
    (hrank : kind.caseSensitive = true ∧ rank = JsString.codes ∨
      Agrees (kind.iterator toLowerCase) rank keys)
    (ops : List (SearchTreeOperation JsString V)) (hops : ∀ op ∈ ops, ∀ key ∈ op.keys, keys key)
    (hcareful : Careful (kind.iterator toLowerCase) ops undefined) :
    ∃ t, run (kind.iterator toLowerCase) ops undefined = some t ∧
      Answers (kind.iterator toLowerCase) rank keys
        (TernarySearchTree.meaning (fun key =>
          (kind.iterator toLowerCase).path rank ((kind.iterator toLowerCase).reset key)) ops)
        t := by
  have hagrees : Agrees (kind.iterator toLowerCase) rank keys := by
    rcases hrank with ⟨hcase, rfl⟩ | hagrees
    · exact agrees_codes toLowerCase hcase hkeys
    · exact hagrees
  have hapt := fun key (hkey : keys key) => hagrees.aptTrail hkey
  obtain ⟨t, hrun, hsound, hlook⟩ := run_spec
    (fun op hop key hkey => ⟨hapt key (hops op hop key hkey),
      decide_eq_true (hkeys key (hops op hop key hkey))⟩) sound_undefined hcareful
  refine ⟨t, hrun, ?_⟩
  have hanswers := answers_of_sound hapt hsound
  rw [hlook, show (undefined : TernarySearchTreeNode JsString V).look rank = PrefixMap.empty from
    funext look_undefined] at hanswers
  exact hanswers

/-- `set` of `a.b`, `a.c` and `d`, and `delete` of `a.b`, in a tree of configuration keys. -/
theorem careful_runs_are_maps_config :
    ∃ t, run ((KeyIteratorKind.configKeys true).iterator id)
        ([.set [97, 46, 98] [49], .set [97, 46, 99] [], .set [100] [50], .delete [97, 46, 98]] :
          List (SearchTreeOperation JsString JsString)) undefined = some t ∧
      Answers ((KeyIteratorKind.configKeys true).iterator id) JsString.codes (· ≠ [])
        (TernarySearchTree.meaning (fun key =>
          ((KeyIteratorKind.configKeys true).iterator id).path JsString.codes
            (((KeyIteratorKind.configKeys true).iterator id).reset key))
          [.set [97, 46, 98] [49], .set [97, 46, 99] [], .set [100] [50], .delete [97, 46, 98]])
        t :=
  careful_runs_are_maps id (.configKeys true) JsString.codes (· ≠ []) (fun _ h => h)
    (.inl ⟨rfl, rfl⟩) _ (by decide) (by decide)

/-- The siblings of the node whose children `deleteSuperstr` drops go with them. -/
theorem deleteSuperstr_drops_siblings :
    ¬ ∀ (kind : KeyIteratorKind) (ops : List (SearchTreeOperation JsString JsString))
        (t : TernarySearchTreeNode JsString JsString),
      (∀ op ∈ ops, ∀ key ∈ op.keys, key ≠ []) →
      run (kind.iterator id) ops undefined = some t → ∀ key, key ≠ [] →
        TernarySearchTree.get (kind.iterator id) t key =
          (TernarySearchTree.meaning (fun key => (kind.iterator id).path JsString.codes
            ((kind.iterator id).reset key)) ops
            ((kind.iterator id).path JsString.codes ((kind.iterator id).reset key))).map
              Prod.snd := by
  intro h
  have hrun : ∃ t, run (KeyIteratorKind.strings.iterator id)
      ([.set [97] [49], .set [98] [50], .deleteSuperstr [97]] :
        List (SearchTreeOperation JsString JsString)) undefined = some t := ⟨_, rfl⟩
  obtain ⟨t, ht⟩ := hrun
  have hget := h .strings _ t (by decide) ht [98] (by decide)
  cases ht
  revert hget
  decide

end Trees

end CodeOss
