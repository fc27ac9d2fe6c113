import CodeOss.UserDataSync.ExtensionsMerge

/-! The keys that identify an extension across lists: by uuid where some list knows one,
else by id. Where every id goes with one uuid, the keys tell extensions apart by id. -/

namespace CodeOss.UserDataSync.Extensions

open List

variable {V : Type} (platform : Platform)

theorem get_foldl_set (key : ISyncExtension V → String) (extensions : List (ISyncExtension V))
    (start : JsMap String (ISyncExtension V)) (k : String) :
    (extensions.foldl (fun map extension => map.set (key extension) extension) start).get k =
      ((extensions.filter fun extension => key extension = k).getLast?).or (start.get k) := by
  induction extensions generalizing start with
  | nil => simp
  | cons extension rest ih =>
    rw [foldl_cons, ih, JsMap.get_set]
    by_cases hk : k = key extension
    · subst hk
      simp only [if_true, filter_cons, decide_true, List.getLast?_cons]
      cases (rest.filter fun e => key e = key extension).getLast? <;> rfl
    · have hk' : ¬ key extension = k := fun h => hk h.symm
      simp [hk, hk']

theorem get_toMap (uuids : JsMap String String) (extensions : List (ISyncExtension V))
    (k : String) : (toMap platform uuids extensions).get k = (extensions.filter
    fun extension => getKey platform uuids extension.identifier = k).getLast? := by
  rw [toMap, get_foldl_set fun extension => getKey platform uuids extension.identifier]
  simp

variable {uuids : JsMap String String} {extension : ISyncExtension V} {u : String}
  {identifiers : List IExtensionIdentifier}

theorem mem_of_get_toMap {extensions : List (ISyncExtension V)} {k : String}
    (h : (toMap platform uuids extensions).get k = some extension) :
    extension ∈ extensions ∧ getKey platform uuids extension.identifier = k := by
  rw [get_toMap] at h
  have hmem := mem_of_getLast? h
  rw [mem_filter] at hmem
  exact ⟨hmem.1, by simpa using hmem.2⟩

theorem has_toMap {uuids : JsMap String String} {extensions : List (ISyncExtension V)}
    {k : String} : (toMap platform uuids extensions).has k = true ↔
      ∃ extension ∈ extensions, getKey platform uuids extension.identifier = k := by
  rw [JsMap.has, get_toMap, List.getLast?_isSome, ne_nil_iff_exists_cons]
  constructor
  · rintro ⟨extension, rest, h⟩
    have hmem : extension ∈ extensions.filter fun e =>
        getKey platform uuids e.identifier = k := by rw [h]; exact mem_cons_self
    rw [mem_filter] at hmem
    exact ⟨extension, hmem.1, by simpa using hmem.2⟩
  · rintro ⟨extension, hmem, hkey⟩
    rw [← ne_nil_iff_exists_cons]
    exact ne_nil_of_mem (mem_filter.2 ⟨hmem, by simpa using hkey⟩)

theorem get_toMap_of_mem {extensions : List (ISyncExtension V)}
    (hdistinct : (extensions.map fun e => getKey platform uuids e.identifier).Nodup)
    (hmem : extension ∈ extensions) : (toMap platform uuids extensions).get
    (getKey platform uuids extension.identifier) = some extension := by
  obtain ⟨found, hfound⟩ := JsMap.has_eq_true.1 ((has_toMap platform).2 ⟨extension, hmem, rfl⟩)
  obtain ⟨hmem', hkey⟩ := mem_of_get_toMap platform hfound
  rw [hfound, inj_on_of_nodup_map hdistinct hmem' hmem hkey]

theorem uuidOfKey_uuid (uuid : String) : uuidOfKey ("uuid:" ++ uuid) = some uuid := by
  have htake : ("uuid:" ++ uuid).toList.take 5 = "uuid:".toList := by simp
  have hdrop : ("uuid:" ++ uuid).toList.drop 5 = uuid.toList := by simp
  rw [uuidOfKey, if_pos htake, hdrop, String.ofList_toList]

theorem uuidOfKey_id (id : String) : uuidOfKey ("id:" ++ id) = none := by
  have htake : ¬ ("id:" ++ id).toList.take 5 = "uuid:".toList := by simp
  rw [uuidOfKey, if_neg htake]

theorem nonEmpty_eq_some {uuid : Option String} :
    nonEmpty uuid = some u ↔ uuid = some u ∧ u ≠ "" := by
  simp [nonEmpty, Option.filter_eq_some_iff]

theorem get_uuidsOf_some {a : String} (h : (uuidsOf platform identifiers).get a = some u) :
    ∃ i ∈ identifiers, platform.toLowerCase i.id = a ∧ nonEmpty i.uuid = some u := by
  suffices ∀ start : JsMap String String,
      (identifiers.foldl (addUUID platform) start).get a = some u →
      start.get a = some u ∨
        ∃ i ∈ identifiers, platform.toLowerCase i.id = a ∧ nonEmpty i.uuid = some u by
    rcases this .empty h with hempty | hfound
    · cases hempty
    · exact hfound
  clear h
  induction identifiers with
  | nil => exact fun start h => .inl h
  | cons i rest ih =>
    intro start h
    rcases ih _ h with hstart | ⟨j, hj, hfound⟩
    · rw [addUUID] at hstart
      cases huuid : nonEmpty i.uuid with
      | none => exact .inl (by simpa [huuid] using hstart)
      | some uuid =>
        rw [huuid] at hstart
        simp only [JsMap.get_set] at hstart
        split at hstart
        · next ha =>
            exact .inr ⟨i, mem_cons_self, ha.symm, by rw [huuid]; exact hstart⟩
        · exact .inl hstart
    · exact .inr ⟨j, mem_cons_of_mem _ hj, hfound⟩

theorem get_uuidsOf_isSome {i : IExtensionIdentifier} (hi : i ∈ identifiers)
    (huuid : nonEmpty i.uuid = some u) :
    ((uuidsOf platform identifiers).get (platform.toLowerCase i.id)).isSome := by
  have hkeeps : ∀ (rest : List IExtensionIdentifier) (start : JsMap String String) a,
      (start.get a).isSome → ((rest.foldl (addUUID platform) start).get a).isSome := by
    intro rest
    induction rest with
    | nil => exact fun start a h => h
    | cons j rest ih =>
      intro start a h
      refine ih _ a ?_
      rw [addUUID]
      cases nonEmpty j.uuid with
      | none => exact h
      | some uuid =>
        simp only [JsMap.get_set]
        split
        · rfl
        · exact h
  obtain ⟨before, after, rfl⟩ := append_of_mem hi
  rw [uuidsOf, foldl_append, foldl_cons]
  refine hkeeps _ _ _ ?_
  rw [addUUID, huuid]
  simp

/-- Across all lists, one id and one uuid go together. -/
def Identified (identifiers : List IExtensionIdentifier) : Prop :=
  ∀ i ∈ identifiers, ∀ j ∈ identifiers, ∀ u v, nonEmpty i.uuid = some u →
    nonEmpty j.uuid = some v → (platform.toLowerCase i.id = platform.toLowerCase j.id ↔ u = v)

/-- The key of everything whose id is `a` in lower case. -/
def idKey (uuids : JsMap String String) (a : String) : String :=
  match uuids.get a with
  | some uuid => "uuid:" ++ uuid
  | none => "id:" ++ a

variable {platform}

theorem nonEmpty_of_get_uuidsOf {a : String} (h : (uuidsOf platform identifiers).get a = some u) :
    u ≠ "" := by
  obtain ⟨i, -, -, huuid⟩ := get_uuidsOf_some platform h
  exact (nonEmpty_eq_some.1 huuid).2

theorem ignoredKey_eq (identifiers : List IExtensionIdentifier) (id : String) :
    ignoredKey platform (uuidsOf platform identifiers) id =
      idKey (uuidsOf platform identifiers) (platform.toLowerCase id) := by
  rw [ignoredKey, keyOf, idKey]
  cases hget : (uuidsOf platform identifiers).get (platform.toLowerCase id) with
  | none => rfl
  | some u => rw [nonEmpty_eq_some.2 ⟨rfl, nonEmpty_of_get_uuidsOf hget⟩]

/-- An identifier without another uuid than the lists know. -/
def Named (known : String → Option String) (platform : Platform) (i : IExtensionIdentifier) :
    Prop :=
  ∀ u, nonEmpty i.uuid = some u → known (platform.toLowerCase i.id) = some u

theorem getKey_of_named {i : IExtensionIdentifier}
    (h : Named (uuidsOf platform identifiers).get platform i) : getKey platform (uuidsOf
    platform identifiers) i = idKey (uuidsOf platform identifiers) (platform.toLowerCase i.id) := by
  rw [← ignoredKey_eq, getKey, ignoredKey]
  cases huuid : nonEmpty i.uuid with
  | none => rfl
  | some u => rw [Option.some_or, h u huuid]

/-- The identifiers name the uuid that `known` has for their id, and no two ids share one. -/
structure Names (platform : Platform) (known : String → Option String)
    (identifiers : List IExtensionIdentifier) :
    Prop where
  named : ∀ i ∈ identifiers, Named known platform i
  injective : ∀ a b u, known a = some u → known b = some u → a = b

theorem Identified.names (h : Identified platform identifiers) :
    Names platform (uuidsOf platform identifiers).get identifiers where
  named i hi u huuid := by
    obtain ⟨v, hv⟩ := Option.isSome_iff_exists.1 (get_uuidsOf_isSome platform hi huuid)
    obtain ⟨j, hj, hid, hjuuid⟩ := get_uuidsOf_some platform hv
    rw [hv, (h j hj i hi v u hjuuid huuid).1 hid]
  injective a b u ha hb := by
    obtain ⟨i, hi, rfl, hiuuid⟩ := get_uuidsOf_some platform ha
    obtain ⟨j, hj, rfl, hjuuid⟩ := get_uuidsOf_some platform hb
    exact (h i hi j hj u u hiuuid hjuuid).2 rfl

namespace Names

variable {known : String → Option String} {identifiers : List IExtensionIdentifier}

section

variable (h : Names platform known identifiers)
include h

theorem get_uuidsOf {a u : String}
    (hget : (uuidsOf platform identifiers).get a = some u) : known a = some u := by
  obtain ⟨i, hi, rfl, huuid⟩ := get_uuidsOf_some platform hget
  exact h.named i hi u huuid

theorem getKey_eq {i : IExtensionIdentifier} (hi : i ∈ identifiers) : getKey platform (uuidsOf
    platform identifiers) i = idKey (uuidsOf platform identifiers) (platform.toLowerCase i.id) := by
  refine getKey_of_named fun u huuid => ?_
  obtain ⟨v, hv⟩ := Option.isSome_iff_exists.1 (get_uuidsOf_isSome platform hi huuid)
  rw [hv, ← h.get_uuidsOf hv, h.named i hi u huuid]

theorem idKey_injective {a b : String}
    (hkey : idKey (uuidsOf platform identifiers) a = idKey (uuidsOf platform identifiers) b) :
    a = b := by
  simp only [idKey] at hkey
  cases ha : (uuidsOf platform identifiers).get a with
  | none =>
    cases hb : (uuidsOf platform identifiers).get b with
    | none =>
      rw [ha, hb] at hkey
      exact (String.append_right_inj "id:").1 hkey
    | some v =>
      rw [ha, hb] at hkey
      have := congrArg String.toList hkey
      simp at this
  | some u =>
    cases hb : (uuidsOf platform identifiers).get b with
    | none =>
      rw [ha, hb] at hkey
      have := congrArg String.toList hkey
      simp at this
    | some v =>
      rw [ha, hb] at hkey
      rw [(String.append_right_inj "uuid:").1 hkey] at ha
      exact h.injective a b v (h.get_uuidsOf ha) (h.get_uuidsOf hb)

end

theorem uuidOfKey_idKey (a : String) :
    uuidOfKey (idKey (uuidsOf platform identifiers) a) = (uuidsOf platform identifiers).get a := by
  rw [idKey]
  cases (uuidsOf platform identifiers).get a with
  | none => exact uuidOfKey_id a
  | some u => exact uuidOfKey_uuid u

end Names

theorem getKey_massageOutgoing (hnonEmpty : ∀ a u, uuids.get a = some u → u ≠ "") :
    getKey platform uuids (massageOutgoingExtension extension
      (getKey platform uuids extension.identifier)).identifier =
      getKey platform uuids extension.identifier := by
  have hkey : ∀ uuid : Option String, (∀ u, uuid = some u → u ≠ "") →
      nonEmpty (uuidOfKey (keyOf platform uuid extension.identifier.id)) = uuid := by
    intro uuid huuid
    cases uuid with
    | none => rw [keyOf, show nonEmpty none = none from rfl, uuidOfKey_id]; rfl
    | some u =>
      rw [keyOf, nonEmpty_eq_some.2 ⟨rfl, huuid u rfl⟩]
      exact (congrArg nonEmpty (uuidOfKey_uuid u)).trans (nonEmpty_eq_some.2 ⟨rfl, huuid u rfl⟩)
  have hor : ∀ u, (nonEmpty extension.identifier.uuid).or
      (uuids.get (platform.toLowerCase extension.identifier.id)) = some u → u ≠ "" := by
    intro u hu
    rw [Option.or_eq_some_iff] at hu
    rcases hu with hu | ⟨-, hu⟩
    · exact (nonEmpty_eq_some.1 hu).2
    · exact hnonEmpty _ u hu
  simp only [getKey, massageOutgoingExtension, hkey _ hor]
  cases hown : nonEmpty extension.identifier.uuid <;>
    cases huuids : uuids.get (platform.toLowerCase extension.identifier.id) <;> simp

end CodeOss.UserDataSync.Extensions
