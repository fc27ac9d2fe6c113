import Mathlib

/-! JavaScript `Map`s and string dictionaries: finite maps that list their
entries in the order the keys were first set. -/

namespace CodeOss

open List

variable {κ α β : Type}

structure JsMap (κ α : Type) where
  entries : List (κ × α)
  distinct : (entries.map Prod.fst).Nodup

namespace JsMap

theorem distinct_filter (m : JsMap κ α) (p : κ × α → Bool) :
    ((m.entries.filter p).map Prod.fst).Nodup :=
  m.distinct.sublist (filter_sublist.map _)

/-- `set` on the bare entries: an existing key keeps its place. -/
def upsert [DecidableEq κ] (key : κ) (value : α) : List (κ × α) → List (κ × α)
  | [] => [(key, value)]
  | (k, v) :: rest => if k = key then (k, value) :: rest else (k, v) :: upsert key value rest

variable [DecidableEq κ]

theorem upsert_keys (key : κ) (value : α) (l : List (κ × α)) : (upsert key value l).map Prod.fst =
    if key ∈ l.map Prod.fst then l.map Prod.fst else l.map Prod.fst ++ [key] := by
  induction l with
  | nil => simp [upsert]
  | cons p rest ih =>
    obtain ⟨k, v⟩ := p
    by_cases hk : k = key
    · simp [upsert, hk]
    · have hk' : ¬ key = k := fun h => hk h.symm
      simp only [upsert, hk, if_false, map_cons, ih, mem_cons, hk', false_or]
      split <;> rfl

theorem upsert_distinct (key : κ) (value : α) {l : List (κ × α)}
    (h : (l.map Prod.fst).Nodup) : ((upsert key value l).map Prod.fst).Nodup := by
  rw [upsert_keys]
  split
  · exact h
  · next hk =>
      refine nodup_append.mpr ⟨h, nodup_singleton key, ?_⟩
      intro a ha b hb hab
      rw [mem_singleton] at hb
      exact hk (hb ▸ hab ▸ ha)

theorem lookup_cons_eq (key k : κ) (value : α) (l : List (κ × α)) :
    ((key, value) :: l).lookup k = if k = key then some value else l.lookup k := by
  by_cases h : k = key
  · simp [h]
  · have hb : (k == key) = false := by simpa using h
    simp [lookup_cons, hb, h]

theorem lookup_upsert (key : κ) (value : α) (k : κ) (l : List (κ × α)) :
    (upsert key value l).lookup k = if k = key then some value else l.lookup k := by
  induction l with
  | nil => simp only [upsert, lookup_cons_eq]
  | cons p rest ih =>
    obtain ⟨k', v⟩ := p
    by_cases hk : k' = key
    · subst hk
      by_cases hkk : k = k' <;> simp [upsert, lookup_cons_eq, hkk]
    · by_cases hkk : k = k'
      · subst hkk
        simp [upsert, hk]
      · simp [upsert, lookup_cons_eq, hk, hkk, ih]

def empty : JsMap κ α := ⟨[], nodup_nil⟩

variable (m : JsMap κ α)

def get (key : κ) : Option α := m.entries.lookup key

def has (key : κ) : Bool := (m.get key).isSome

def set (key : κ) (value : α) : JsMap κ α :=
  ⟨upsert key value m.entries, upsert_distinct key value m.distinct⟩

def delete (key : κ) : JsMap κ α :=
  ⟨m.entries.filter (fun p => p.1 ≠ key), m.distinct_filter _⟩

/-- `Object.keys`, in insertion order. -/
def keys : List κ := m.entries.map Prod.fst

def values : List α := m.entries.map Prod.snd

def size : Nat := m.entries.length

@[simp] theorem get_empty (key : κ) : (empty : JsMap κ α).get key = none := rfl

@[simp] theorem has_empty (key : κ) : (empty : JsMap κ α).has key = false := rfl

theorem get_set (key k : κ) (value : α) :
    (m.set key value).get k = if k = key then some value else m.get k :=
  lookup_upsert key value k m.entries

@[simp] theorem get_set_self (key : κ) (value : α) : (m.set key value).get key = some value := by
  rw [get_set, if_pos rfl]

theorem get_set_of_ne {k key : κ} (h : k ≠ key) (m : JsMap κ α) (value : α) :
    (m.set key value).get k = m.get k := by
  rw [get_set, if_neg h]

theorem has_set (key k : κ) (value : α) :
    (m.set key value).has k = (decide (k = key) || m.has k) := by
  rw [has, get_set]
  by_cases h : k = key <;> simp [h, has]

theorem lookup_filter_ne (key k : κ) (l : List (κ × α)) :
    (l.filter (fun p => p.1 ≠ key)).lookup k = if k = key then none else l.lookup k := by
  induction l with
  | nil => simp
  | cons p rest ih =>
    obtain ⟨k', v⟩ := p
    by_cases hk : k' = key
    · subst hk
      rw [filter_cons_of_neg (by simp), ih, lookup_cons_eq]
      split <;> rfl
    · rw [filter_cons_of_pos (by simpa using hk), lookup_cons_eq, lookup_cons_eq, ih]
      by_cases hkk : k = k'
      · subst hkk
        simp [hk]
      · simp [hkk]

theorem get_delete (key k : κ) : (m.delete key).get k = if k = key then none else m.get k :=
  lookup_filter_ne key k m.entries

@[simp] theorem mem_keys {m : JsMap κ α} {key : κ} : key ∈ m.keys ↔ m.has key = true := by
  rw [has, get, lookup_isSome_iff, keys]
  simp only [mem_map, beq_iff_eq, Prod.exists, exists_and_right, exists_eq_right]
  constructor
  · rintro ⟨v, hv⟩
    exact ⟨key, ⟨v, hv⟩, rfl⟩
  · rintro ⟨k, ⟨v, hv⟩, rfl⟩
    exact ⟨v, hv⟩

theorem has_eq_true {m : JsMap κ α} {key : κ} : m.has key = true ↔ ∃ v, m.get key = some v := by
  rw [has, Option.isSome_iff_exists]

theorem mem_entries {m : JsMap κ α} {key : κ} {value : α} :
    (key, value) ∈ m.entries ↔ m.get key = some value := by
  obtain ⟨entries, hdistinct⟩ := m
  simp only [get]
  induction entries with
  | nil => simp
  | cons p rest ih =>
    obtain ⟨k, v⟩ := p
    obtain ⟨hk, hrest⟩ := nodup_cons.1 hdistinct
    rw [mem_cons, ih hrest, lookup_cons_eq, Prod.mk.injEq]
    by_cases he : key = k
    · subst he
      have hnone : ¬ rest.lookup key = some value := fun h =>
        hk (mem_map.2 ⟨(key, value), (ih hrest).2 h, rfl⟩)
      simp [hnone, eq_comm]
    · simp [he]

end JsMap

end CodeOss
