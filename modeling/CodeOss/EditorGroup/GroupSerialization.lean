import CodeOss.EditorGroup.GroupConsistent

/-! Editor groups are stored and read back. Some editors cannot be serialized, and of the serialized
ones some cannot be deserialized. -/

namespace CodeOss.EditorGroup

open List List

variable {E V : Type}

structure SerializedEditorGroupModel (V : Type) where
  editors : List V
  mru : List Int
  preview : Option ℕ
  sticky : Option Int

/-- The lists that `serialize` fills, and what it counts. -/
structure Serializable (E V : Type) where
  serializableEditors : List E
  serializedEditors : List V
  serializablePreviewIndex : Option ℕ
  serializableSticky : Int

namespace EditorGroupModel

section Serialize

variable [DecidableEq E]

def serializeEditor (m : EditorGroupModel E) (serializer : E → Option V) (s : Serializable E V)
    (editor : E × ℕ) : Serializable E V :=
  match serializer editor.1 with
  | some value =>
    { s with
      serializedEditors := s.serializedEditors ++ [value]
      serializableEditors := s.serializableEditors ++ [editor.1]
      serializablePreviewIndex :=
        if m.preview = some editor.1 then some s.serializableEditors.length
        else s.serializablePreviewIndex }
  | none =>
    { s with
      serializableSticky :=
        if m.isSticky editor.2 then s.serializableSticky - 1 else s.serializableSticky }

def serialize (m : EditorGroupModel E) (serializer : E → Option V) :
    SerializedEditorGroupModel V :=
  let s := m.editors.zipIdx.foldl (m.serializeEditor serializer) ⟨[], [], none, m.sticky⟩
  { editors := s.serializedEditors
    mru := (m.mru.map fun editor => indexOf (some editor) s.serializableEditors).filter (0 ≤ ·)
    preview := s.serializablePreviewIndex
    sticky := if 0 ≤ s.serializableSticky then some s.serializableSticky else none }

/-- One editor of the loop, with the sticky index so far. -/
def deserializeEditor (deserializer : V → Option E) (s : List (Option E) × Option Int)
    (e : V × ℕ) : List (Option E) × Option Int :=
  (s.1 ++ [deserializer e.1],
    if deserializer e.1 = none then
      s.2.map fun sticky : Int => if (e.2 : Int) ≤ sticky then sticky - 1 else sticky
    else s.2)

def deserialize (deserializer : V → Option E) (data : SerializedEditorGroupModel V) :
    EditorGroupModel E :=
  let s := data.editors.zipIdx.foldl (deserializeEditor deserializer) ([], data.sticky)
  let editors := s.1.reduceOption
  let mru := data.mru.filterMap (getAt editors ·)
  { editors := editors
    mru := mru
    selection := mru.head?.toList
    preview := data.preview.bind fun preview => editors[preview]?
    sticky := s.2.getD (-1)
    transient := ∅ }

end Serialize

section Editors

variable (m : EditorGroupModel E) (serializer : E → Option V) (deserializer : V → Option E)

def survives (e : E) : Bool := ((serializer e).bind deserializer).isSome

def serialized : List E := m.editors.filter fun e => (serializer e).isSome

def surviving : List E := m.editors.filter fun e => survives serializer deserializer e

end Editors

variable {m : EditorGroupModel E} {serializer : E → Option V} {deserializer : V → Option E}
variable {l : List E} {e p x : E}

/-- How many editors at the front of a list cannot be serialized. -/
def lost (serializer : E → Option V) (l : List E) : ℕ := l.countP fun e => (serializer e).isNone

theorem take_concat (l : List E) (e : E) (k : ℕ) :
    (l ++ [e]).take k = l.take k ++ if l.length < k then [e] else [] := by
  rw [take_append]
  split
  · rw [take_of_length_le (l := [e]) (by rw [length_singleton]; omega)]
  · rw [show k - l.length = 0 by omega, take_zero]

variable {l' : List E}

theorem mem_take_filter_iff {survive : E → Bool} {k : ℕ} (he : e ∈ l.filter survive) :
    e ∈ (l.filter survive).take ((l.take k).filter survive).length ↔ e ∈ l.take k := by
  have hsplit : l.filter survive = (l.take k).filter survive ++ (l.drop k).filter survive := by
    rw [← filter_append, take_append_drop]
  rw [hsplit, take_left, mem_filter]
  exact and_iff_left (mem_filter.mp he).2

theorem eq_iff_of_pairwise {l₁ l₂ : List E} {R S : E → E → Prop} (hperm : l₁.Perm l₂)
    (hR : l₁.Pairwise R) (hS : l₂.Pairwise S) (hRasymm : ∀ x y, R x y → ¬ R y x)
    (hSasymm : ∀ x y, S x y → ¬ S y x) : l₁ = l₂ ↔ ∀ x ∈ l₁, ∀ y ∈ l₁, R x y ↔ S x y := by
  constructor
  · rintro rfl
    have hboth := (List.Pairwise.and hR hS)
    have htotal : ∀ x ∈ l₁, ∀ y ∈ l₁, x = y ∨ (R x y ∧ S x y) ∨ (R y x ∧ S y x) := by
      have hsome : l₁.Pairwise fun x y => x = y ∨ (R x y ∧ S x y) ∨ (R y x ∧ S y x) :=
        hboth.imp fun h => .inr (.inl h)
      have hflip : l₁.Pairwise (flip fun x y => x = y ∨ (R x y ∧ S x y) ∨ (R y x ∧ S y x)) :=
        hboth.imp fun h => .inr (.inr h)
      exact fun x hx y hy => hsome.forall_of_forall_of_flip (fun x _ => .inl rfl) hflip hx hy
    intro x hx y hy
    rcases htotal x hx y hy with rfl | ⟨hxy, hxy'⟩ | ⟨hyx, hyx'⟩
    · exact iff_of_false (fun h => hRasymm _ _ h h) fun h => hSasymm _ _ h h
    · exact iff_of_true hxy hxy'
    · exact iff_of_false (hRasymm _ _ hyx) (hSasymm _ _ hyx')
  · intro h
    have hR' : l₁.Pairwise S := hR.imp_of_mem fun hx hy hxy => (h _ hx _ hy).mp hxy
    exact hperm.eq_of_pairwise (fun x y _ _ hxy hyx => (hSasymm x y hxy hyx).elim) hR' hS

theorem mem_zip_unique {x x' : E} {y y' : E} (hnodup : l'.Nodup) (h : (x, y) ∈ l'.zip l)
    (h' : (x', y') ∈ l'.zip l) (heq : x = x') : y = y' := by
  obtain ⟨i, hi⟩ := mem_iff_getElem?.mp h
  obtain ⟨j, hj⟩ := mem_iff_getElem?.mp h'
  rw [getElem?_zip_eq_some] at hi hj
  have hlt := (List.getElem?_eq_some_iff.mp hi.1).1
  have hij : i = j := (getElem?_inj hlt hnodup).mp (by rw [hi.1, hj.1, heq])
  exact Option.some.inj (hi.2.symm.trans (hij ▸ hj.2))

theorem exists_mem_zip (hle : l'.length ≤ l.length) (hx : x ∈ l') : ∃ y, (x, y) ∈ l'.zip l := by
  obtain ⟨i, hi⟩ := mem_iff_getElem?.mp hx
  have hlt := (List.getElem?_eq_some_iff.mp hi).1
  refine ⟨l[i], mem_iff_getElem?.mpr ⟨i, ?_⟩⟩
  rw [getElem?_zip_eq_some]
  exact ⟨hi, getElem?_eq_getElem (by omega)⟩

variable [DecidableEq E]

theorem idxOf?_concat (l : List E) (e p : E) :
    (l ++ [e]).idxOf? p = (l.idxOf? p).or (if p = e then some l.length else none) := by
  rw [List.idxOf?, findIdx?_append]
  congr 1
  by_cases h : p = e
  · simp [h]
  · simp [h, Ne.symm h]

theorem foldl_serializeEditor (l : List E) (hnodup : l.Nodup) : l.zipIdx.foldl (m.serializeEditor
    serializer) ⟨[], [], none, m.sticky⟩ = ⟨l.filter fun e => (serializer e).isSome,
    l.filterMap serializer, m.preview.bind fun p => (l.filter fun e => (serializer e).isSome).idxOf?
    p, m.sticky - lost serializer (l.take (m.sticky + 1).toNat)⟩ := by
  induction l using reverseRecOn with
  | nil => cases m.preview <;> simp [lost]
  | append_singleton l e ih =>
    obtain ⟨hnodup, -, hnot⟩ := nodup_append.mp hnodup
    have hsticky : m.isSticky l.length = true ↔ l.length < (m.sticky + 1).toNat := by
      rw [isSticky_iff]
      omega
    rw [zipIdx_append, foldl_append, ih hnodup, Nat.zero_add, zipIdx_singleton,
      foldl_cons, foldl_nil, serializeEditor, filter_append, filterMap_append,
      take_concat, lost, lost, countP_append]
    cases hser : serializer e with
    | some value =>
      have hlost : (if l.length < (m.sticky + 1).toNat then [e] else []).countP
          (fun e => (serializer e).isNone) = 0 := by
        split <;> simp [hser]
      have hnew : e ∉ l.filter fun e => (serializer e).isSome := fun hmem =>
        hnot e (mem_of_mem_filter hmem) e (mem_singleton_self e) rfl
      have hpreview : (m.preview.bind fun p =>
          ((l.filter fun e => (serializer e).isSome) ++ [e]).idxOf? p) =
            if m.preview = some e then some (l.filter fun e => (serializer e).isSome).length
            else m.preview.bind fun p =>
              (l.filter fun e => (serializer e).isSome).idxOf? p := by
        cases hp : m.preview with
        | none => rfl
        | some p =>
          rw [Option.bind_some, Option.bind_some, idxOf?_concat]
          by_cases heq : p = e
          · rw [if_pos heq, if_pos (congrArg some heq), heq,
              List.idxOf?_eq_none_iff.mpr hnew, Option.none_or]
          · rw [if_neg heq, if_neg fun h => heq (Option.some.inj h), Option.or_none]
      rw [hlost, Nat.add_zero]
      simp [hser, hpreview]
    | none =>
      rw [filter_cons_of_neg (by simp [hser]), filter_nil, append_nil,
        filterMap_cons_none hser, filterMap_nil, append_nil]
      dsimp only
      by_cases hlt : l.length < (m.sticky + 1).toNat
      · rw [if_pos (hsticky.mpr hlt), if_pos hlt, countP_singleton,
          if_pos (by simp [hser]), Nat.cast_add, Nat.cast_one, ← sub_sub]
      · rw [if_neg fun h => hlt (hsticky.mp h), if_neg hlt, countP_nil, Nat.add_zero]

section Deserialize

omit [DecidableEq E]

variable (serializer deserializer)

def failed (l : List E) : ℕ := l.countP fun e => !survives serializer deserializer e

/-- The sticky index is right for every sticky editor that fails, if it is when it comes to it. -/
def Counts (l : List E) (sticky : Int) : Prop :=
  ∀ (d : ℕ) (e : E), l[d]? = some e → survives serializer deserializer e = false →
    (d : Int) ≤ sticky → d + failed serializer deserializer (l.take d) ≤ sticky

structure Adjusted (l : List E) (sticky adjusted : Int) : Prop where
  ge : -1 ≤ adjusted
  right : Counts serializer deserializer l sticky →
    adjusted = sticky - failed serializer deserializer (l.take (sticky + 1).toNat)
  wrong : ¬ Counts serializer deserializer l sticky →
    sticky - failed serializer deserializer (l.take (sticky + 1).toNat) < adjusted ∧
      adjusted < l.length

variable {serializer deserializer} {sticky adjusted : Int}

theorem failed_concat : failed serializer deserializer (l ++ [e]) = failed serializer deserializer l
    + if survives serializer deserializer e then 0 else 1 := by
  rw [failed, failed, countP_append, countP_singleton]
  cases survives serializer deserializer e <;> rfl

theorem failed_take_concat (k : ℕ) :
    failed serializer deserializer ((l ++ [e]).take k) = failed serializer deserializer (l.take k) +
      if survives serializer deserializer e = false ∧ l.length < k then 1 else 0 := by
  rw [take_concat]
  split
  · rw [failed_concat]
    cases survives serializer deserializer e <;> simp_all
  · simp_all

theorem counts_concat : Counts serializer deserializer (l ++ [e]) sticky ↔
    Counts serializer deserializer l sticky ∧ (survives serializer deserializer e = false →
      (l.length : Int) ≤ sticky → l.length + failed serializer deserializer l ≤ sticky) := by
  constructor
  · refine fun h => ⟨fun d x hx hnot hle => ?_, fun hnot hle => ?_⟩
    · have hd : d < l.length := (List.getElem?_eq_some_iff.mp hx).1
      have hcount := h d x (by rw [List.getElem?_append_left hd, hx]) hnot hle
      rw [take_append_of_le_length hd.le] at hcount
      exact hcount
    · have hcount := h l.length e (by simp) hnot hle
      rw [take_left] at hcount
      exact hcount
  · rintro ⟨hold, hnew⟩ d x hx hnot hle
    by_cases hd : d < l.length
    · rw [List.getElem?_append_left hd] at hx
      rw [take_append_of_le_length hd.le]
      exact hold d x hx hnot hle
    · have hd' : d = l.length := by
        have := (List.getElem?_eq_some_iff.mp hx).1
        rw [length_append, length_singleton] at this
        omega
      subst hd'
      rw [List.getElem?_append_right (le_refl _), Nat.sub_self] at hx
      obtain rfl : e = x := Option.some.inj hx
      rw [take_left]
      exact hnew hnot hle

theorem Adjusted.concat (h : Adjusted serializer deserializer l sticky adjusted) (hsticky : -1 ≤
    sticky) : Adjusted serializer deserializer (l ++ [e]) sticky (if survives serializer
    deserializer e = false then if (l.length : Int) ≤ adjusted then adjusted - 1 else adjusted else
    adjusted) := by
  obtain ⟨hge, hright, hwrong⟩ := h
  cases hsurvives : survives serializer deserializer e with
  | true =>
    have hcounts : Counts serializer deserializer (l ++ [e]) sticky ↔
        Counts serializer deserializer l sticky := by
      rw [counts_concat, hsurvives]
      exact and_iff_left fun h => absurd h (by decide)
    refine ⟨hge, fun h => ?_, fun h => ?_⟩
    · rw [failed_take_concat, hsurvives]
      exact hright (hcounts.mp h)
    · rw [failed_take_concat, hsurvives, length_append]
      obtain ⟨hlt, hlen⟩ := hwrong fun h' => h (hcounts.mpr h')
      exact ⟨hlt, by push_cast; omega⟩
  | false =>
    rw [if_pos rfl]
    have hcounts := @counts_concat _ _ serializer deserializer l e sticky
    rw [hsurvives] at hcounts
    have htake := @failed_take_concat _ _ serializer deserializer l e (sticky + 1).toNat
    rw [hsurvives] at htake
    have hlength : (l ++ [e]).length = l.length + 1 := by simp
    by_cases hold : Counts serializer deserializer l sticky
    · have heq := hright hold
      by_cases hle : (l.length : Int) ≤ sticky
      · -- A sticky editor: is the index still right for it?
        rw [take_of_length_le (l := l) (by omega)] at heq htake
        rw [if_pos ⟨rfl, by omega⟩] at htake
        by_cases hnew : (l.length : Int) ≤ adjusted
        · have hgood : Counts serializer deserializer (l ++ [e]) sticky :=
            hcounts.mpr ⟨hold, fun _ _ => by omega⟩
          rw [if_pos hnew]
          exact ⟨by omega, fun _ => by rw [htake]; push_cast; omega, fun h => (h hgood).elim⟩
        · have hbad : ¬ Counts serializer deserializer (l ++ [e]) sticky := fun h => by
            have := (hcounts.mp h).2 rfl hle
            omega
          rw [if_neg hnew]
          exact ⟨hge, fun h => (hbad h).elim, fun _ => ⟨by rw [htake]; push_cast; omega,
            by rw [hlength]; push_cast; omega⟩⟩
      · have hgood : Counts serializer deserializer (l ++ [e]) sticky :=
          hcounts.mpr ⟨hold, fun _ h => (hle h).elim⟩
        rw [if_neg (by omega)] at htake
        rw [if_neg (by omega)]
        exact ⟨hge, fun _ => by rw [htake]; omega, fun h => (h hgood).elim⟩
    · obtain ⟨hlt, hlen⟩ := hwrong hold
      have hbad : ¬ Counts serializer deserializer (l ++ [e]) sticky := fun h =>
        hold (hcounts.mp h).1
      rw [if_neg (by omega)]
      exact ⟨hge, fun h => (hbad h).elim, fun _ => ⟨by rw [htake]; push_cast; omega,
        by rw [hlength]; push_cast; omega⟩⟩

theorem foldl_deserializeEditor (l : List E) (hl : ∀ e ∈ l, (serializer e).isSome) :
    ((l.filterMap serializer).zipIdx.foldl (deserializeEditor deserializer) ([], none) =
    (l.map fun e => (serializer e).bind deserializer, none)) ∧ (-1 ≤ sticky → ∃ adjusted,
    (l.filterMap serializer).zipIdx.foldl (deserializeEditor deserializer) ([], some sticky) =
    (l.map fun e => (serializer e).bind deserializer, some adjusted) ∧
    Adjusted serializer deserializer l sticky adjusted) := by
  have hlength (l : List E) (hl : ∀ e ∈ l, (serializer e).isSome) :
      (l.filterMap serializer).length = l.length := by
    rw [length_filterMap_eq_countP, countP_eq_length]
    exact hl
  induction l using reverseRecOn with
  | nil =>
    refine ⟨rfl, fun hge => ⟨sticky, rfl, hge, fun _ => ?_, fun h => ?_⟩⟩
    · simp [failed]
    · exact (h fun d e he => by simp at he).elim
  | append_singleton l e ih =>
    have hold : ∀ x ∈ l, (serializer x).isSome := fun x hx => hl x (mem_append_left _ hx)
    obtain ⟨value, hvalue⟩ := Option.isSome_iff_exists.mp (hl e (by simp))
    obtain ⟨hnone, hsome⟩ := ih hold
    rw [filterMap_append, filterMap_cons_some hvalue, filterMap_nil, zipIdx_append,
      zipIdx_singleton, map_append, hlength l hold, Nat.zero_add, foldl_append, foldl_append, hnone]
    have hsurvives : survives serializer deserializer e = false ↔ deserializer value = none := by
      rw [survives, hvalue, Option.bind_some, Option.isSome_eq_false_iff, Option.isNone_iff_eq_none]
    refine ⟨by simp [deserializeEditor, hvalue], fun hge => ?_⟩
    obtain ⟨adjusted, hfold, hadjusted⟩ := hsome hge
    refine ⟨_, ?_, hadjusted.concat hge⟩
    rw [hfold, foldl_cons, foldl_nil, deserializeEditor]
    simp only [hsurvives, map_cons, map_nil, hvalue, Option.bind_some, Option.map_some]
    split <;> rfl

theorem stickyKept_iff {sticky adjusted : Int} (hnodup : l.Nodup) (hge : -1 ≤ sticky)
    (hlt : sticky < l.length) (h : Adjusted serializer deserializer l sticky adjusted) :
    let surviving := l.filter fun e => survives serializer deserializer e
    (∀ e ∈ surviving, e ∈ surviving.take (adjusted + 1).toNat ↔ e ∈ l.take (sticky + 1).toNat) ↔
      Counts serializer deserializer l sticky ∨ ∀ e ∈ surviving, e ∈ l.take (sticky + 1).toNat := by
  intro surviving
  generalize hk : (sticky + 1).toNat = k at *
  have hcount : ((l.take k).filter fun e => survives serializer deserializer e).length +
      failed serializer deserializer (l.take k) = k := by
    have hsum := length_eq_countP_add_countP (fun e => survives serializer deserializer e)
      (l := l.take k)
    rw [List.length_take, min_eq_left (by omega)] at hsum
    rw [failed, ← countP_eq_length_filter]
    simp only [Bool.not_eq_true, Bool.decide_eq_false] at hsum
    exact hsum.symm
  have hmem (e : E) (he : e ∈ surviving) := @mem_take_filter_iff _ l e _ k he
  have hadjusted := h.ge
  by_cases hcounts : Counts serializer deserializer l sticky
  · refine iff_of_true (fun e he => ?_) (.inl hcounts)
    have hright := h.right hcounts
    rw [hk] at hright
    rw [show (adjusted + 1).toNat = ((l.take k).filter fun e =>
      survives serializer deserializer e).length by omega]
    exact hmem e he
  · obtain ⟨hwrong, -⟩ := h.wrong hcounts
    rw [hk] at hwrong
    constructor
    · intro hkept
      have hlength : surviving.length ≤ ((l.take k).filter fun e =>
          survives serializer deserializer e).length := by
        by_contra hlong
        rw [not_le] at hlong
        -- The first survivor behind the boundary would be in front of it.
        have hin := (hkept _ (getElem_mem hlong)).mp
          (mem_take_iff_getElem.mpr ⟨_, by omega, rfl⟩)
        obtain ⟨i, hi, heq⟩ := mem_take_iff_getElem.mp
          ((hmem _ (getElem_mem hlong)).mpr hin)
        have := (List.Nodup.getElem_inj_iff (hnodup.filter _)).mp heq
        omega
      refine .inr fun e he => (hmem e he).mp ?_
      rw [take_of_length_le hlength]
      exact he
    · rintro (h | hall)
      · exact (hcounts h).elim
      · intro e he
        refine iff_of_true ?_ (hall e he)
        exact take_subset_take_left _ (by omega) ((hmem e he).mpr (hall e he))

theorem surviving_eq : surviving m serializer deserializer =
    (serialized m serializer).filter fun e => survives serializer deserializer e := by
  rw [surviving, serialized, filter_filter]
  congr 1
  funext e
  rw [survives]
  cases serializer e <;> simp

theorem reduceOption_map_bind
    (hinverse : ∀ e value, serializer e = some value → ∀ x ∈ deserializer value, x = e)
    (l : List E) : (l.map fun e => (serializer e).bind deserializer).reduceOption =
    l.filter fun e => survives serializer deserializer e := by
  induction l with
  | nil => rfl
  | cons e l ih =>
    rw [map_cons, filter_cons, survives, ← ih]
    cases hread : (serializer e).bind deserializer with
    | none => rw [reduceOption_cons_of_none, Option.isSome_none, if_neg Bool.false_ne_true]
    | some x =>
      obtain ⟨value, hvalue, hx⟩ := Option.bind_eq_some_iff.mp hread
      rw [reduceOption_cons_of_some, Option.isSome_some, if_pos rfl, hinverse e value hvalue x hx]

end Deserialize

section Restore

variable (m serializer deserializer)

/-- Exactly the surviving editors are there, in their order and by their recency, and the same ones
are sticky. -/
structure Restored (m' : EditorGroupModel E) : Prop where
  editors : m'.editors = surviving m serializer deserializer
  mru : m'.mru = m.mru.filter fun e => e ∈ surviving m serializer deserializer
  active : m'.active = (m.mru.filter fun e => e ∈ surviving m serializer deserializer).head?
  preview : m'.preview = m.preview.filter fun e => e ∈ surviving m serializer deserializer
  sticky : ∀ e ∈ m'.editors, e ∈ m'.stickyEditors ↔ e ∈ m.stickyEditors

/-- The editors that fail do not shift the indices. -/
structure Restorable : Prop where
  /-- By recency the surviving editors are as the serialized editors at their places. -/
  mru : ∀ p ∈ (surviving m serializer deserializer).zip (serialized m serializer),
    ∀ q ∈ (surviving m serializer deserializer).zip (serialized m serializer),
      m.mru.idxOf p.1 < m.mru.idxOf q.1 ↔ m.mru.idxOf p.2 < m.mru.idxOf q.2
  /-- No editor in front of the preview fails, or it fails and no editor is at its place. -/
  preview : ∀ p ∈ m.preview, p ∈ serialized m serializer →
    if survives serializer deserializer p then
      ∀ e ∈ (serialized m serializer).take ((serialized m serializer).idxOf p),
        survives serializer deserializer e
    else (surviving m serializer deserializer).length ≤ (serialized m serializer).idxOf p
  /-- A failing sticky editor is in front of the boundary when it is come to, or all are sticky. -/
  sticky : (∀ (d : ℕ) (e : E), (serialized m serializer)[d]? = some e → e ∈ m.stickyEditors →
      survives serializer deserializer e = false →
      d + failed serializer deserializer ((serialized m serializer).take d) <
        ((serialized m serializer).filter fun e => e ∈ m.stickyEditors).length) ∨
    ∀ e ∈ surviving m serializer deserializer, e ∈ m.stickyEditors

variable {m serializer deserializer}

theorem getAt_indexOf_eq_some (hnodup : l.Nodup) :
    getAt l' (indexOf (some e) l) = some x ↔ (x, e) ∈ l'.zip l := by
  rw [mem_iff_getElem?]
  simp only [getElem?_zip_eq_some]
  by_cases he : e ∈ l
  · obtain ⟨a, b, rfl, ha⟩ := eq_append_cons_of_mem he
    rw [indexOf_split ha, getAt, if_neg (by omega), Int.toNat_natCast]
    constructor
    · exact fun hx => ⟨a.length, hx, by simp⟩
    · rintro ⟨i, hx, hi⟩
      have hlt := (List.getElem?_eq_some_iff.mp hi).1
      have heq : i = a.length := (getElem?_inj hlt hnodup).mp (hi.trans (by simp))
      exact heq ▸ hx
  · rw [indexOf_of_not_mem he]
    refine iff_of_false (by simp [getAt]) ?_
    rintro ⟨i, -, hi⟩
    exact he (mem_of_getElem? hi)

theorem pairwise_idxOf (hnodup : l.Nodup) : l.Pairwise fun x y => l.idxOf x < l.idxOf y := by
  rw [pairwise_iff_getElem]
  intro i j hi hj hlt
  rw [hnodup.idxOf_getElem i hi, hnodup.idxOf_getElem j hj]
  exact hlt

theorem restoredMru_spec (hl : l.Nodup) (hl' : l'.Nodup) (hle : l'.length ≤ l.length)
    {mru : List E} (hmru : mru.Nodup) (hsub : ∀ x ∈ l, x ∈ mru) :
    let restored := mru.filterMap fun e => getAt l' (indexOf (some e) l)
    restored.Perm l' ∧ restored.Pairwise fun x y => ∃ x' y', (x, x') ∈ l'.zip l ∧
      (y, y') ∈ l'.zip l ∧ mru.idxOf x' < mru.idxOf y' := by
  intro restored
  constructor
  · rw [perm_ext_iff_of_nodup (hmru.filterMap ?_) hl']
    · intro x
      simp only [mem_filterMap, getAt_indexOf_eq_some hl]
      constructor
      · rintro ⟨e, -, hmem⟩
        exact (of_mem_zip hmem).1
      · intro hx
        obtain ⟨e, hmem⟩ := exists_mem_zip hle hx
        exact ⟨e, hsub e (of_mem_zip hmem).2, hmem⟩
    · intro e e' x hx hx'
      rw [Option.mem_def, getAt_indexOf_eq_some hl] at hx hx'
      exact mem_zip_unique hl' hx hx' rfl
  · refine pairwise_filterMap.mpr ((pairwise_idxOf hmru).imp fun hlt x hx y hy => ?_)
    exact ⟨_, _, (getAt_indexOf_eq_some hl).mp hx, (getAt_indexOf_eq_some hl).mp hy, hlt⟩

theorem restoredMru_eq_iff (hl : l.Nodup) (hl' : l'.Nodup) (hle : l'.length ≤ l.length)
    {mru : List E} (hmru : mru.Nodup) (hsub : ∀ x ∈ l, x ∈ mru) (hsub' : ∀ x ∈ l', x ∈ mru) :
    (mru.filterMap fun e => getAt l' (indexOf (some e) l)) = mru.filter (· ∈ l') ↔ ∀ p ∈
    l'.zip l, ∀ q ∈ l'.zip l, mru.idxOf p.1 < mru.idxOf q.1 ↔ mru.idxOf p.2 < mru.idxOf q.2 := by
  obtain ⟨hperm, hpairwise⟩ := restoredMru_spec hl hl' hle hmru hsub
  have hfilter : (mru.filter (· ∈ l')).Perm l' := by
    rw [perm_ext_iff_of_nodup (hmru.filter _) hl']
    intro x
    rw [mem_filter, decide_eq_true_eq]
    exact and_iff_right_of_imp (hsub' x)
  have hordered : (mru.filter (· ∈ l')).Pairwise fun x y => mru.idxOf x < mru.idxOf y :=
    (pairwise_idxOf hmru).filter _
  rw [eq_iff_of_pairwise (hperm.trans hfilter.symm) hpairwise hordered ?_
    fun _ _ h h' => absurd h (by omega)]
  · constructor
    · intro h p hp q hq
      have hpq := h p.1 (hperm.mem_iff.mpr (of_mem_zip hp).1) q.1
        (hperm.mem_iff.mpr (of_mem_zip hq).1)
      rw [← hpq]
      constructor
      · rintro ⟨x', y', hx', hy', hlt⟩
        rw [← mem_zip_unique hl' hx' hp rfl, ← mem_zip_unique hl' hy' hq rfl]
        exact hlt
      · exact fun hlt => ⟨p.2, q.2, hp, hq, hlt⟩
    · intro h x hx y hy
      obtain ⟨x', hx'⟩ := exists_mem_zip hle (hperm.mem_iff.mp hx)
      obtain ⟨y', hy'⟩ := exists_mem_zip hle (hperm.mem_iff.mp hy)
      rw [h _ hx' _ hy']
      constructor
      · rintro ⟨x'', y'', hx'', hy'', hlt⟩
        rw [mem_zip_unique hl' hx' hx'' rfl, mem_zip_unique hl' hy' hy'' rfl]
        exact hlt
      · exact fun hlt => ⟨x', y', hx', hy', hlt⟩
  · rintro x y ⟨x', y', hx', hy', hlt⟩ ⟨y'', x'', hy'', hx'', hlt'⟩
    rw [mem_zip_unique hl' hx' hx'' rfl, mem_zip_unique hl' hy' hy'' rfl] at hlt
    omega

theorem restoredPreview_iff (hnodup : l.Nodup) (hp : p ∈ l) {survive : E → Bool} :
    ((l.idxOf? p).bind fun i => (l.filter survive)[i]?) =
      (some p).filter (fun e => e ∈ l.filter survive) ↔
    if survive p then ∀ e ∈ l.take (l.idxOf p), survive e
    else (l.filter survive).length ≤ l.idxOf p := by
  obtain ⟨a, b, rfl, ha⟩ := eq_append_cons_of_mem hp
  have hidx : (a ++ p :: b).idxOf p = a.length := by
    rw [idxOf_append_of_notMem ha, idxOf_cons_self, Nat.add_zero]
  rw [idxOf?_split ha, Option.bind_some, hidx, take_left]
  cases hsurvive : survive p with
  | true =>
    have hmem : p ∈ (a ++ p :: b).filter survive := mem_filter.mpr ⟨hp, hsurvive⟩
    have hsplit : (a ++ p :: b).filter survive = a.filter survive ++ p :: b.filter survive := by
      rw [filter_append, filter_cons_of_pos hsurvive]
    rw [if_pos rfl, Option.filter_some, if_pos (decide_eq_true hmem)]
    constructor
    · intro hget
      have hat : ((a ++ p :: b).filter survive)[(a.filter survive).length]? = some p := by
        rw [hsplit]
        simp
      have hlt := (List.getElem?_eq_some_iff.mp hget).1
      have heq := (getElem?_inj hlt (hnodup.filter _)).mp (hget.trans hat.symm)
      exact length_filter_eq_length_iff.mp heq.symm
    · intro hall
      rw [hsplit, filter_eq_self.mpr hall]
      simp
  | false =>
    have hmem : p ∉ (a ++ p :: b).filter survive := fun h => by
      rw [mem_filter, hsurvive] at h
      exact Bool.false_ne_true h.2
    rw [if_neg Bool.false_ne_true, Option.filter_some, if_neg (by simpa using hmem),
      List.getElem?_eq_none_iff]

theorem serializedSticky_spec (hnodup : m.editors.Nodup) (hge : -1 ≤ m.sticky)
    (hlt : m.sticky < m.editors.length) :
    let sticky := m.sticky - lost serializer (m.editors.take (m.sticky + 1).toNat)
    sticky + 1 = ((serialized m serializer).filter fun e => e ∈ m.stickyEditors).length ∧
      sticky < (serialized m serializer).length ∧
      ∀ e ∈ serialized m serializer,
        e ∈ (serialized m serializer).take (sticky + 1).toNat ↔ e ∈ m.stickyEditors := by
  intro sticky
  have hsplit : m.editors = m.stickyEditors ++ m.editors.drop (m.sticky + 1).toNat :=
    (take_append_drop _ _).symm
  have hcount : m.stickyEditors.length = m.sticky + 1 := by
    rw [stickyEditors, List.length_take]
    omega
  have hsum := length_eq_countP_add_countP (fun e => (serializer e).isSome)
    (l := m.stickyEditors)
  have hlost : lost serializer m.stickyEditors =
      m.stickyEditors.countP fun a => decide ¬ (serializer a).isSome = true := by
    rw [lost]
    congr 1
    funext e
    cases serializer e <;> rfl
  rw [← hlost, countP_eq_length_filter] at hsum
  have hserialized : serialized m serializer =
      (m.stickyEditors.filter fun e => (serializer e).isSome) ++
        (m.editors.drop (m.sticky + 1).toNat).filter fun e => (serializer e).isSome := by
    rw [serialized, ← filter_append, stickyEditors, take_append_drop]
  have hnot (e : E) (he : e ∈ m.editors.drop (m.sticky + 1).toNat) : e ∉ m.stickyEditors :=
    fun h => (nodup_append.mp (hsplit ▸ hnodup)).2.2 e h e he rfl
  have hfilter : ((serialized m serializer).filter fun e => e ∈ m.stickyEditors) =
      m.stickyEditors.filter fun e => (serializer e).isSome := by
    have hfront := filter_eq_self.mpr fun e
      (he : e ∈ m.stickyEditors.filter fun e => (serializer e).isSome) =>
        decide_eq_true (mem_of_mem_filter he)
    have hback := filter_eq_nil_iff.mpr fun e
      (he : e ∈ (m.editors.drop (m.sticky + 1).toNat).filter fun e => (serializer e).isSome) =>
        fun h => hnot e (mem_of_mem_filter he) (of_decide_eq_true h)
    rw [hserialized, filter_append, hfront, hback, append_nil]
  have hsticky : sticky + 1 = (m.stickyEditors.filter fun e => (serializer e).isSome).length := by
    show m.sticky - lost serializer m.stickyEditors + 1 = _
    omega
  refine ⟨hfilter ▸ hsticky, ?_, fun e he => ?_⟩
  · have := congrArg List.length hserialized
    rw [length_append] at this
    omega
  · rw [show (sticky + 1).toNat = (m.stickyEditors.filter fun e => (serializer e).isSome).length by
      omega, hserialized, take_left, mem_filter]
    exact and_iff_left (mem_filter.mp he).2

theorem deserialize_serialized (hnodup : m.editors.Nodup) (hge : -1 ≤ m.sticky)
    (hlt : m.sticky < m.editors.length)
    (hinverse : ∀ e value, serializer e = some value → ∀ x ∈ deserializer value, x = e) :
    let restored := deserialize deserializer (serialize m serializer)
    restored.editors = surviving m serializer deserializer ∧
      restored.mru = m.mru.filterMap (fun e =>
        getAt (surviving m serializer deserializer) (indexOf (some e) (serialized m serializer))) ∧
      restored.active = restored.mru.head? ∧
      restored.preview = (m.preview.bind fun p => (serialized m serializer).idxOf? p).bind
        (fun i => (surviving m serializer deserializer)[i]?) ∧
      Adjusted serializer deserializer (serialized m serializer)
        (m.sticky - lost serializer (m.editors.take (m.sticky + 1).toNat)) restored.sticky := by
  obtain ⟨hcount, -, -⟩ := @serializedSticky_spec _ _ m serializer _ hnodup hge hlt
  have hserialized : m.editors.filterMap serializer =
      (serialized m serializer).filterMap serializer := by
    rw [serialized, filterMap_filter]
    congr 1
    funext e
    cases serializer e <;> rfl
  have hl : ∀ e ∈ serialized m serializer, (serializer e).isSome := fun e he =>
    (mem_filter.mp he).2
  have hstore := @foldl_serializeEditor _ _ m serializer _ m.editors hnodup
  rw [hserialized] at hstore
  generalize hsticky : m.sticky - (lost serializer (m.editors.take (m.sticky + 1).toNat) : Int) =
    sticky at *
  obtain ⟨hnone, hsome⟩ := @foldl_deserializeEditor _ _ serializer deserializer sticky
    (serialized m serializer) hl
  obtain ⟨adjusted, hfold, hadjusted⟩ := hsome (by omega)
  have hread : ∃ b, ((serialized m serializer).filterMap serializer).zipIdx.foldl
      (deserializeEditor deserializer) ([], if 0 ≤ sticky then some sticky else none) =
        ((serialized m serializer).map fun e => (serializer e).bind deserializer, b) ∧
      Adjusted serializer deserializer (serialized m serializer) sticky (b.getD (-1)) := by
    split
    · exact ⟨some adjusted, hfold, hadjusted⟩
    · -- No sticky editor is left.
      have hnegative : sticky = -1 := by omega
      refine ⟨none, hnone, le_refl _, fun _ => ?_, fun h => ?_⟩
      · rw [hnegative]
        simp [failed]
      · exact (h fun d e _ _ hle => by omega).elim
  obtain ⟨b, hread, hadjusted⟩ := hread
  simp only [deserialize, serialize, hstore, hread, reduceOption_map_bind hinverse, ← surviving_eq]
  refine ⟨trivial, ?_, ?_, rfl, hadjusted⟩
  · rw [filterMap_filter, filterMap_map]
    congr 1
    funext e
    dsimp only [Function.comp_apply]
    split
    · rfl
    · rename_i hneg
      rw [getAt, serialized, if_pos (not_le.mp fun h => hneg (decide_eq_true h))]
  · rw [active]
    cases filterMap _ _ <;> rfl

theorem counts_iff (hnodup : m.editors.Nodup) (hge : -1 ≤ m.sticky)
    (hlt : m.sticky < m.editors.length) : Counts serializer deserializer (serialized m serializer)
    (m.sticky - lost serializer (m.editors.take (m.sticky + 1).toNat)) ↔ ∀ (d : ℕ) (e : E),
    (serialized m serializer)[d]? = some e → e ∈ m.stickyEditors → survives serializer
    deserializer e = false → d + failed serializer deserializer ((serialized m serializer).take d) <
    ((serialized m serializer).filter fun e => e ∈ m.stickyEditors).length := by
  obtain ⟨hcount, -, hmem⟩ := @serializedSticky_spec _ _ m serializer _ hnodup hge hlt
  generalize m.sticky - (lost serializer (m.editors.take (m.sticky + 1).toNat) : Int) = sticky at *
  have hfront (d : ℕ) (e : E) (he : (serialized m serializer)[d]? = some e) :
      e ∈ m.stickyEditors ↔ (d : Int) ≤ sticky := by
    rw [← hmem e (mem_of_getElem? he)]
    obtain ⟨hd, hget⟩ := List.getElem?_eq_some_iff.mp he
    constructor
    · intro h
      obtain ⟨i, hi, heq⟩ := mem_take_iff_getElem.mp h
      have := (List.Nodup.getElem_inj_iff (hnodup.filter _)).mp (heq.trans hget.symm)
      omega
    · exact fun h => mem_take_iff_getElem.mpr ⟨d, by omega, hget⟩
  constructor
  · intro h d e he hsticky hnot
    have := h d e he hnot ((hfront d e he).mp hsticky)
    omega
  · intro h d e he hnot hle
    have := h d e he ((hfront d e he).mpr hle) hnot
    omega

/-- A group is restored just if the editors that fail do not shift the indices. -/
theorem restored_iff_restorable (m : EditorGroupModel E) (serializer : E → Option V)
    (deserializer : V → Option E) (hlisted : Listed m) (hge : -1 ≤ m.sticky)
    (hlt : m.sticky < m.editors.length)
    (hinverse : ∀ e value, serializer e = some value → ∀ x ∈ deserializer value, x = e) :
    Restored m serializer deserializer (deserialize deserializer (serialize m serializer)) ↔
      Restorable m serializer deserializer := by
  obtain ⟨heditors, hmru, hactive', hpreview, hadjusted⟩ :=
    @deserialize_serialized _ _ m serializer deserializer _ hlisted.nodup hge hlt hinverse
  generalize deserialize deserializer (serialize m serializer) = restored at *
  have hL : (serialized m serializer).Nodup := hlisted.nodup.filter _
  have hK : (surviving m serializer deserializer).Nodup := hlisted.nodup.filter _
  have hM := hlisted.mru.nodup_iff.mpr hlisted.nodup
  have hsub : ∀ x ∈ serialized m serializer, x ∈ m.mru := fun x hx =>
    hlisted.mru.mem_iff.mpr (mem_of_mem_filter hx)
  have hsub' : ∀ x ∈ surviving m serializer deserializer, x ∈ m.mru := fun x hx =>
    hlisted.mru.mem_iff.mpr (mem_of_mem_filter hx)
  have hle : (surviving m serializer deserializer).length ≤ (serialized m serializer).length := by
    rw [surviving_eq]
    exact length_filter_le _ _
  have hmruIff := restoredMru_eq_iff hL hK hle hM hsub hsub'
  have hpreviewIff : restored.preview =
      (m.preview.filter fun e => e ∈ surviving m serializer deserializer) ↔
      ∀ p ∈ m.preview, p ∈ serialized m serializer →
        if survives serializer deserializer p then
          ∀ e ∈ (serialized m serializer).take ((serialized m serializer).idxOf p),
            survives serializer deserializer e
        else (surviving m serializer deserializer).length ≤ (serialized m serializer).idxOf p := by
    rw [hpreview]
    cases m.preview with
    | none => exact iff_of_true rfl fun p hp => nomatch hp
    | some p =>
      rw [Option.bind_some]
      by_cases hp : p ∈ serialized m serializer
      · rw [surviving_eq, restoredPreview_iff hL hp]
        constructor
        · rintro h q hq -
          rw [← Option.some.inj hq]
          exact h
        · exact fun h => h p rfl hp
      · have hnot : p ∉ surviving m serializer deserializer := fun h => by
          rw [surviving_eq] at h
          exact hp (mem_of_mem_filter h)
        rw [List.idxOf?_eq_none_iff.mpr hp, Option.bind_none, Option.filter_some,
          if_neg fun h => hnot (of_decide_eq_true h)]
        exact iff_of_true rfl fun q hq hin => absurd (Option.some.inj hq ▸ hin) hp
  have hstickyIff : (∀ e ∈ restored.editors, e ∈ restored.stickyEditors ↔ e ∈ m.stickyEditors) ↔
      (∀ (d : ℕ) (e : E), (serialized m serializer)[d]? = some e → e ∈ m.stickyEditors →
        survives serializer deserializer e = false →
        d + failed serializer deserializer ((serialized m serializer).take d) <
          ((serialized m serializer).filter fun e => e ∈ m.stickyEditors).length) ∨
      ∀ e ∈ surviving m serializer deserializer, e ∈ m.stickyEditors := by
    obtain ⟨hcount, hlength, hmem⟩ :=
      @serializedSticky_spec _ _ m serializer _ hlisted.nodup hge hlt
    have hfront : ∀ e ∈ surviving m serializer deserializer, e ∈ (serialized m serializer).take
        (m.sticky - lost serializer (m.editors.take (m.sticky + 1).toNat) + 1).toNat ↔
          e ∈ m.stickyEditors := fun e he => by
      rw [surviving_eq] at he
      exact hmem e (mem_of_mem_filter he)
    have hkept := stickyKept_iff hL (by omega) hlength hadjusted
    rw [← surviving_eq] at hkept
    rw [← counts_iff hlisted.nodup hge hlt, stickyEditors, heditors]
    refine Iff.trans ?_ (hkept.trans (or_congr Iff.rfl (forall₂_congr hfront)))
    exact forall₂_congr fun e he => iff_congr Iff.rfl (hfront e he).symm
  constructor
  · intro h
    exact ⟨hmruIff.mp (hmru.symm.trans h.mru), hpreviewIff.mp h.preview, hstickyIff.mp h.sticky⟩
  · intro h
    have hrecency := hmru.trans (hmruIff.mpr h.mru)
    exact ⟨heditors, hrecency, hactive'.trans (congrArg List.head? hrecency),
      hpreviewIff.mpr h.preview, hstickyIff.mpr h.sticky⟩

end Restore

theorem restored_without_last :
    Restored (⟨[1, 2], [2, 1], [2], some 1, 0, ∅⟩ : EditorGroupModel ℕ) some
      (fun value => if value = 2 then none else some value)
      (deserialize (fun value => if value = 2 then none else some value)
        (serialize ⟨[1, 2], [2, 1], [2], some 1, 0, ∅⟩ some)) := by
  refine (restored_iff_restorable _ _ _ ⟨by decide, List.Perm.swap 1 2 []⟩ (by decide) (by decide)
    fun e value hvalue x hx => ?_).mpr ⟨by decide, by decide, .inr (by decide)⟩
  obtain rfl : e = value := Option.some.inj hvalue
  split at hx
  · exact nomatch hx
  · exact (Option.some.inj hx).symm

/-- Without its first editor a group of three comes back with the wrong one of the two active. -/
theorem not_restored_without_first :
    Consistent (⟨[1, 2, 3], [2, 3, 1], [2], none, -1, ∅⟩ : EditorGroupModel ℕ) ∧
      ¬ Restored (⟨[1, 2, 3], [2, 3, 1], [2], none, -1, ∅⟩ : EditorGroupModel ℕ) some
        (fun value => if value = 1 then none else some value)
        (deserialize (fun value => if value = 1 then none else some value)
          (serialize ⟨[1, 2, 3], [2, 3, 1], [2], none, -1, ∅⟩ some)) := by
  refine ⟨⟨⟨by decide, by decide⟩, ⟨by decide, by decide, rfl⟩, (fun _ h => nomatch h), by decide,
    by decide, by decide⟩, fun h => ?_⟩
  have hactive := h.active
  revert hactive
  decide

end EditorGroupModel

end CodeOss.EditorGroup
