import CodeOss.Base.JsMap
import CodeOss.Library.KeyedCells

/-! The comparison of two dictionaries that every sync resource starts from, and the
writing of a set of changes back into a dictionary. -/

namespace CodeOss.UserDataSync

open List

variable {α : Type}

abbrev IStringDictionary (α : Type) := JsMap String α

/-- The three key sets of a `compare`, in the order the loops over them see. -/
structure Comparison where
  added : List String
  removed : List String
  updated : List String
  deriving DecidableEq

/-- The body shared by the `compare` functions; `same` is how each of them compares
the two values of a key that is on both sides. -/
def compareWith (same : α → α → Bool) (fromKeys toKeys : List String)
    (fromValue toValue : String → Option α) : Comparison :=
  let added := toKeys.filter fun key => !fromKeys.contains key
  let removed := fromKeys.filter fun key => !toKeys.contains key
  let updated := fromKeys.filter fun key =>
    !removed.contains key &&
      match fromValue key, toValue key with
      | some value1, some value2 => !same value1 value2
      | _, _ => true
  { added, removed, updated }

namespace Comparison

def isEmpty (c : Comparison) : Bool := c.added.isEmpty && c.removed.isEmpty && c.updated.isEmpty

/-- The comparison with nothing but additions that stands in for a missing base. -/
def allAdded (toMap : IStringDictionary α) : Comparison := ⟨toMap.keys, [], []⟩

structure Distinct (c : Comparison) : Prop where
  added : c.added.Nodup
  removed : c.removed.Nodup
  updated : c.updated.Nodup

structure Describes (c : Comparison) (same : α → α → Bool) (fromMap toMap : IStringDictionary α) :
    Prop extends Distinct c where
  mem_added : ∀ key, key ∈ c.added ↔ fromMap.get key = none ∧ (toMap.get key).isSome
  mem_removed : ∀ key, key ∈ c.removed ↔ (fromMap.get key).isSome ∧ toMap.get key = none
  mem_updated : ∀ key, key ∈ c.updated ↔ ∃ value1 value2, fromMap.get key = some value1 ∧
    toMap.get key = some value2 ∧ same value1 value2 = false

end Comparison

theorem compareWith_describes (same : α → α → Bool) (fromMap toMap : IStringDictionary α) :
    (compareWith same fromMap.keys toMap.keys fromMap.get toMap.get).Describes same
      fromMap toMap := by
  have hkeys : ∀ (m : IStringDictionary α) key, m.keys.contains key = (m.get key).isSome := by
    intro m key
    rw [Bool.eq_iff_iff, contains_iff_mem, JsMap.mem_keys, JsMap.has]
  constructor
  · exact ⟨toMap.distinct.filter _, fromMap.distinct.filter _, fromMap.distinct.filter _⟩
  · intro key
    simp only [compareWith, mem_filter, JsMap.mem_keys, JsMap.has, hkeys]
    cases fromMap.get key <;> simp
  · intro key
    simp only [compareWith, mem_filter, JsMap.mem_keys, JsMap.has, hkeys]
    cases toMap.get key <;> simp
  · intro key
    have hremoved : (fromMap.keys.filter fun key => !toMap.keys.contains key).contains key =
        ((fromMap.get key).isSome && (toMap.get key).isNone) := by
      rw [Bool.eq_iff_iff, contains_iff_mem]
      simp only [mem_filter, JsMap.mem_keys, JsMap.has, hkeys]
      cases toMap.get key <;> simp
    simp only [compareWith, mem_filter, JsMap.mem_keys, JsMap.has, hremoved]
    cases fromMap.get key <;> cases toMap.get key <;> simp

theorem Comparison.describes_allAdded (same : α → α → Bool) (toMap : IStringDictionary α) :
    (Comparison.allAdded toMap).Describes same .empty toMap where
  added := toMap.distinct
  removed := nodup_nil
  updated := nodup_nil
  mem_added key := by
    rw [allAdded, JsMap.mem_keys, JsMap.has]
    simp
  mem_removed key := by simp [allAdded]
  mem_updated key := by simp [allAdded]

theorem Comparison.Describes.mem_updated_iff_ne
    [DecidableEq α] {c : Comparison} {fromMap toMap : IStringDictionary α}
    (h : c.Describes (fun value1 value2 => decide (value1 = value2)) fromMap toMap) (key : String) :
    key ∈ c.updated ↔
    (fromMap.get key).isSome ∧ (toMap.get key).isSome ∧ fromMap.get key ≠ toMap.get key := by
  rw [h.mem_updated]
  cases fromMap.get key <;> cases toMap.get key <;> simp

theorem Comparison.Describes.get_eq_of_isEmpty [DecidableEq α] {c : Comparison}
    {fromMap toMap : IStringDictionary α}
    (h : c.Describes (fun value1 value2 => decide (value1 = value2)) fromMap toMap)
    (hempty : c.isEmpty = true) (key : String) : fromMap.get key = toMap.get key := by
  simp only [isEmpty, Bool.and_eq_true, List.isEmpty_iff] at hempty
  obtain ⟨⟨hadded, hremoved⟩, hupdated⟩ := hempty
  have hnotAdded := mt (h.mem_added key).2 (by simp [hadded])
  have hnotRemoved := mt (h.mem_removed key).2 (by simp [hremoved])
  have hnotUpdated := mt (h.mem_updated key).2 (by simp [hupdated])
  cases hfrom : fromMap.get key <;> cases hto : toMap.get key <;> simp_all

/-- `Object.assign(target, source)`. -/
def assign (target source : IStringDictionary α) : IStringDictionary α :=
  source.entries.foldl (fun m entry => m.set entry.1 entry.2) target

theorem get_assign (target source : IStringDictionary α) (key : String) :
    (assign target source).get key = (source.get key).or (target.get key) := by
  obtain ⟨entries, hdistinct⟩ := source
  simp only [assign, JsMap.get]
  induction entries generalizing target with
  | nil => simp
  | cons entry rest ih =>
    obtain ⟨k, v⟩ := entry
    obtain ⟨hk, hrest⟩ := nodup_cons.1 hdistinct
    rw [foldl_cons, ih _ hrest, JsMap.lookup_cons_eq]
    have hset := JsMap.get_set target k key v
    simp only [JsMap.get] at hset
    rw [hset]
    by_cases he : key = k
    · subst he
      have hnone : rest.lookup key = none := by
        rw [lookup_eq_none_iff]
        intro p hp
        rw [bne_iff_ne]
        exact fun h => hk (mem_map.2 ⟨p, hp, h.symm⟩)
      simp [hnone]
    · simp [he]

def deleteAll (target : IStringDictionary α) (keys : List String) : IStringDictionary α :=
  keys.foldl JsMap.delete target

theorem get_deleteAll (target : IStringDictionary α) (keys : List String) (key : String) :
    (deleteAll target keys).get key = if key ∈ keys then none else target.get key := by
  induction keys generalizing target with
  | nil => simp [deleteAll]
  | cons k rest ih =>
    rw [deleteAll, foldl_cons, ← deleteAll, ih, JsMap.get_delete]
    by_cases he : key = k <;> simp [he]

end CodeOss.UserDataSync
