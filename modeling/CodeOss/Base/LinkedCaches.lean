import CodeOss.Base.LinkedMapLaws

/-! Runs of the three maps. The entries of a cache stand from the least to the most recently touched
one, so that what an eviction leaves is an end of their list. -/

namespace CodeOss.Maps

open LinkedMap List

open LinkedChain

variable {K V : Type} [DecidableEq K]

inductive Answer (V : Type)
  | nothing
  | value (value : Option V)
  | deleted (deleted : Bool)

inductive Operation (K V : Type)
  | get (key : K) (touch : Touch)
  | set (key : K) (value : V) (touch : Touch)
  | delete (key : K)
  | remove (key : K)
  | shift
  | clear

inductive CacheOperation (K V : Type)
  | onMap (op : Operation K V)
  | peek (key : K)
  | setLimit (limit : ℕ)
  | setRatio (ratio : Option ℚ)

namespace Operation

/-- The entries of an ordered map behind an operation. -/
def onEntries (es : List (Item K V)) : Operation K V → List (Item K V)
  | get key touch => LinkedMap.touched touch key es
  | set key value touch => entered touch key value es
  | delete key => without key es
  | remove key => without key es
  | shift => es.tail
  | clear => []

def answer (es : List (Item K V)) : Operation K V → Answer V
  | get key _ => .value ((es.find? (·.key = key)).map (·.value))
  | set _ _ _ => .nothing
  | delete key => .deleted (key ∈ es.map (·.key))
  | remove key => .value ((es.find? (·.key = key)).map (·.value))
  | shift => .value (es.head?.map (·.value))
  | clear => .nothing

end Operation

namespace LinkedMap

variable (truthy : V → Bool)

def step (m : LinkedMap K V) : Operation K V → Option (LinkedMap K V × Answer V)
  | .get key touch => (m.get key touch).map fun p => (p.1, .value p.2)
  | .set key value touch => (m.set key value touch).map fun m => (m, .nothing)
  | .delete key => (m.delete truthy key).map fun p => (p.1, .deleted p.2)
  | .remove key => (m.remove key).map fun p => (p.1, .value p.2)
  | .shift => m.shift.map fun p => (p.1, .value p.2)
  | .clear => some (m.clear, .nothing)

/-- A key that is deleted has no falsy value. -/
def DeletesTruthy (m : LinkedMap K V) : Operation K V → Prop
  | .delete key => ∀ id item, m.map key = some id → m.items id = some item → truthy item.value
  | _ => True

def AllowedRun (m : LinkedMap K V) : List (Operation K V) → Prop
  | [] => True
  | op :: ops => m.DeletesTruthy truthy op ∧
      ∀ m' answer, m.step truthy op = some (m', answer) → AllowedRun m' ops

/-- No operation throws, each does to the entries what it does to an ordered map, and the links, the
inner map and the size describe the entries throughout. -/
def RunsAs (m : LinkedMap K V) (es : List (Item K V)) : List (Operation K V) → Prop
  | [] => ∃ ids, Holds m .head ids es
  | op :: ops => (∃ ids, Holds m .head ids es) ∧
      ∃ m', m.step truthy op = some (m', op.answer es) ∧ RunsAs m' (op.onEntries es) ops

section

variable {truthy} {m : LinkedMap K V} {ids : List ItemId} {es : List (Item K V)}

theorem Holds.step (h : Holds m .head ids es) {op : Operation K V}
    (hop : m.DeletesTruthy truthy op) : ∃ m' ids', m.step truthy op = some (m', op.answer es) ∧
    Holds m' .head ids' (op.onEntries es) := by
  cases op with
  | get key touch =>
    obtain ⟨m', ids', hsome, hholds⟩ := h.get key touch
    exact ⟨m', ids', by rw [LinkedMap.step, hsome]; rfl, hholds⟩
  | set key value touch =>
    obtain ⟨m', ids', hsome, hholds⟩ := h.set key value touch
    exact ⟨m', ids', by rw [LinkedMap.step, hsome]; rfl, hholds⟩
  | delete key =>
    obtain ⟨m', ids', hsome, hholds⟩ := h.remove key
    refine ⟨m', ids', ?_, hholds⟩
    rw [LinkedMap.step, LinkedMap.delete, hsome, Operation.answer]
    simp only [Option.bind_eq_bind, Option.bind_some, Option.map_some, Option.pure_def]
    congr 3
    cases hmap : m.map key with
    | none =>
      have hnot := h.map_eq_none_iff.1 hmap
      rw [find?_of_not_mem hnot, decide_eq_false hnot]
      rfl
    | some id =>
      obtain ⟨l, r, el, er, e, hplace⟩ := h.place hmap
      have hmem : key ∈ es.map (·.key) := by
        rw [hplace.es_eq]
        exact mem_map.2 ⟨e, mem_append_right _ mem_cons_self, hplace.key_eq⟩
      rw [← h.find hmap, hplace.item, decide_eq_true hmem]
      exact hop id e hmap hplace.item
  | remove key =>
    obtain ⟨m', ids', hsome, hholds⟩ := h.remove key
    exact ⟨m', ids', by rw [LinkedMap.step, hsome]; rfl, hholds⟩
  | shift =>
    obtain ⟨m', ids', hsome, hholds⟩ := h.shift
    exact ⟨m', ids', by rw [LinkedMap.step, hsome]; rfl, hholds⟩
  | clear => exact ⟨_, [], rfl, Holds.clear m .head⟩

theorem Holds.runsAs {ops : List (Operation K V)} (h : Holds m .head ids es)
    (hops : AllowedRun truthy m ops) : RunsAs truthy m es ops := by
  induction ops generalizing m ids es with
  | nil => exact ⟨ids, h⟩
  | cons op ops ih =>
    obtain ⟨m', ids', hsome, hholds⟩ := h.step hops.1
    exact ⟨⟨ids, h⟩, m', hsome, ih hholds (hops.2 m' _ hsome)⟩

omit [DecidableEq K] in
theorem new_holds : Holds (new : LinkedMap K V) .head [] [] where
  chain := Links.Chain.nil rfl rfl
  items := rfl
  keys := nodup_nil
  map key id := by simp [new]
  size := rfl
  created id hid := absurd hid not_mem_nil

end

end LinkedMap

namespace Cache

variable (truthy : V → Bool) (kind : CacheKind)

variable (c : Cache K V)

def step : CacheOperation K V → Option (Cache K V × Answer V)
  | .onMap (.set key value _) => (c.set kind key value).map fun c => (c, .nothing)
  | .onMap op => (c.toLinkedMap.step truthy op).map fun p => ({ c with toLinkedMap := p.1 }, p.2)
  | .peek key => (c.peek key).map fun p => ({ c with toLinkedMap := p.1 }, .value p.2)
  | .setLimit limit => (c.setLimit kind limit).map fun c => (c, .nothing)
  | .setRatio ratio => (c.setRatio kind ratio).map fun c => (c, .nothing)

/-- A trim leaves room for an entry. -/
def Roomy : Prop := ∃ n ∈ target c.limit c.ratio, 1 ≤ n

/-- The steps that do what they promise: a deleted value is not falsy, and a set that has to trim
leaves room for the new entry. -/
def Meets : CacheOperation K V → Prop
  | .onMap (.set key _ _) =>
    match kind with
    | .lru => c.limit < c.size + (if c.map key = none then 1 else 0) → c.Roomy
    | .mru => if c.map key = none then c.limit ≤ c.size → c.Roomy else c.size ≤ c.limit
  | .onMap op => c.DeletesTruthy truthy op
  | _ => True

def AllowedRun (c : Cache K V) : List (CacheOperation K V) → Prop
  | [] => True
  | op :: ops => c.Meets truthy kind op ∧
      ∀ c' answer, c.step truthy kind op = some (c', answer) → AllowedRun c' ops

/-- What is left when the entries touched first, or those touched last, are evicted. -/
def Evicts (before after : List (Item K V)) : Prop :=
  match kind with
  | .lru => after <:+ before
  | .mru => after <+: before

/-- What an operation may do to the entries and answer, with the limit behind it. -/
def Outcome (limit : ℕ) (es es' : List (Item K V)) (answer : Answer V) :
    CacheOperation K V → Prop
  | .onMap (.set key value _) =>
    answer = .nothing ∧ key ∈ es'.map (·.key) ∧ es'.length ≤ limit ∧
      match kind with
      | .lru => Evicts .lru (entered .asNew key value es) es'
      | .mru => ∃ rest, Evicts .mru es rest ∧ es' = entered .asNew key value rest
  | .onMap op => answer = op.answer es ∧ es' = op.onEntries es
  | .peek key => answer = .value ((es.find? (·.key = key)).map (·.value)) ∧ es' = es
  | .setLimit _ => answer = .nothing ∧ Evicts kind es es'
  | .setRatio _ => answer = .nothing ∧ Evicts kind es es'

def RunsAs (c : Cache K V) (es : List (Item K V)) : List (CacheOperation K V) → Prop
  | [] => ∃ ids, c.Holds .head ids es
  | op :: ops => (∃ ids, c.Holds .head ids es) ∧
      ∃ c' answer es', c.step truthy kind op = some (c', answer) ∧
        Outcome kind c'.limit es es' answer op ∧ RunsAs c' es' ops

section

variable {truthy} {kind} {c : Cache K V} {ids : List ItemId} {es : List (Item K V)}

def Sane (c : Cache K V) : Prop := ∀ ratio ∈ c.ratio, 0 ≤ ratio ∧ ratio ≤ 1

theorem clamp_sane (ratio : Option ℚ) : ∀ r ∈ clamp ratio, 0 ≤ r ∧ r ≤ 1 := by
  intro r hr
  obtain ⟨q, -, rfl⟩ := Option.mem_map.1 hr
  exact ⟨le_min (le_max_left 0 q) zero_le_one, min_le_right _ _⟩

theorem target_bounds {limit : ℕ} {ratio : Option ℚ} (h : ∀ r ∈ ratio, 0 ≤ r ∧ r ≤ 1) :
    ∀ n ∈ target limit ratio, 0 ≤ n ∧ n ≤ limit := by
  intro n hn
  obtain ⟨r, hr, rfl⟩ := Option.mem_map.1 hn
  obtain ⟨hnonneg, hle⟩ := h r hr
  have hlimit : (0 : ℚ) ≤ limit := Nat.cast_nonneg limit
  have hlow := mul_nonneg hlimit hnonneg
  have hhigh := mul_le_of_le_one_right hlimit hle
  refine ⟨Int.floor_nonneg.2 (by linarith), Int.lt_add_one_iff.1 (Int.floor_lt.2 ?_)⟩
  push_cast
  linarith

theorem trim_spec (h : c.Holds .head ids es) {newSize : Option ℤ} (hn : ∀ n ∈ newSize, 0 ≤ n) :
    ∃ m ids' es', c.trim kind newSize = some { c with toLinkedMap := m } ∧
      m.Holds .head ids' es' ∧ Evicts kind es es' ∧
        ∀ n ∈ newSize, (es'.length : ℤ) ≤ n ∧
          (1 ≤ n → kind = .lru → es'.getLast? = es.getLast?) := by
  cases kind with
  | lru =>
    obtain ⟨m, ids', hsome, hholds⟩ := h.trimOld hn
    refine ⟨m, ids', _, by rw [trim, hsome]; rfl, hholds, ?_, fun n hnew => ?_⟩
    · cases newSize with
      | none => exact List.suffix_rfl
      | some n => exact List.drop_suffix _ _
    · obtain rfl := Option.mem_def.1 hnew
      have hnonneg := hn n rfl
      rw [LinkedMap.kept, Option.elim_some, List.length_drop]
      refine ⟨by omega, fun hpos _ => ?_⟩
      rw [List.getLast?_drop]
      split
      · next hle =>
          obtain rfl : es = [] := List.eq_nil_of_length_eq_zero (by omega)
          rfl
      · rfl
  | mru =>
    obtain ⟨m, ids', hsome, hholds⟩ := h.trimNew hn
    refine ⟨m, ids', _, by rw [trim, hsome]; rfl, hholds, ?_, fun n hnew => ?_⟩
    · cases newSize with
      | none => exact List.prefix_rfl
      | some n => exact List.take_prefix _ _
    · obtain rfl := Option.mem_def.1 hnew
      have hnonneg := hn n rfl
      rw [Option.elim_some, List.length_take]
      exact ⟨by omega, fun _ hkind => absurd hkind (by decide)⟩

theorem checkTrim_spec (h : c.Holds .head ids es) (hsane : c.Sane) :
    ∃ m ids' es', c.checkTrim kind = some { c with toLinkedMap := m } ∧
      m.Holds .head ids' es' ∧ Evicts kind es es' ∧
        ((c.limit < c.size → c.Roomy) → es'.length ≤ c.limit ∧
          (kind = .lru → es'.getLast? = es.getLast?)) := by
  have hbounds : ∀ n ∈ target c.limit c.ratio, 0 ≤ n ∧ n ≤ c.limit := target_bounds hsane
  have hsize : c.size = es.length := h.size.trans (by rw [h.length_eq])
  rw [checkTrim]
  split
  · next habove =>
      obtain ⟨m, ids', es', hsome, hholds, hevicts, hkept⟩ :=
        trim_spec h fun n hn => (hbounds n hn).1
      refine ⟨m, ids', es', hsome, hholds, hevicts, fun hroomy => ?_⟩
      obtain ⟨n, hn, hpos⟩ := hroomy habove
      obtain ⟨hle, hlast⟩ := hkept n hn
      exact ⟨by exact_mod_cast hle.trans (hbounds n hn).2, hlast hpos⟩
  · next hfits =>
      refine ⟨c.toLinkedMap, ids, es, rfl, h, ?_, fun _ => ⟨by omega, fun _ => rfl⟩⟩
      cases kind with
      | lru => exact List.suffix_rfl
      | mru => exact List.prefix_rfl

theorem keys_written (key : K) (value : V) (es : List (Item K V)) :
    (written key value es).map (·.key) = es.map (·.key) := by
  rw [written, List.map_map]
  refine map_congr_left fun e _ => ?_
  by_cases he : e.key = key <;> simp [he]

theorem last_entered (key : K) (value : V) (es : List (Item K V)) :
    (entered .asNew key value es).getLast?.map (·.key) = some key := by
  rw [entered]
  split
  · next hmem =>
      rw [← keys_written key value es] at hmem
      obtain ⟨e, he, rfl⟩ := mem_map.1 hmem
      have honly : LinkedMap.only e.key (written e.key value es) ≠ [] :=
        ne_nil_of_mem (mem_filter.2 ⟨he, by simp⟩)
      obtain ⟨last, hlast⟩ := Option.ne_none_iff_exists'.1 (mt getLast?_eq_none_iff.1 honly)
      have hkey := (mem_filter.1 (mem_of_getLast? hlast)).2
      rw [touched_asNew, getLast?_append, hlast]
      simpa using hkey
  · rw [added_asNew, getLast?_concat]
    rfl

theorem length_entered (key : K) (value : V) {es : List (Item K V)} :
    (LinkedMap.entered .asNew key value es).length =
      es.length + (if key ∈ es.map (·.key) then 0 else 1) := by
  rw [LinkedMap.entered]
  split
  · have hperm := List.filter_append_perm (fun e : Item K V => decide (e.key ≠ key))
      (LinkedMap.written key value es)
    have hlength := hperm.length_eq
    simp only [LinkedMap.touched, LinkedMap.without, LinkedMap.only]
    simpa [LinkedMap.written] using hlength
  · simp [LinkedMap.added]

omit [DecidableEq K] in
theorem mem_of_last {key : K} (h : es.getLast?.map (·.key) = some key) : key ∈ es.map (·.key) := by
  obtain ⟨e, he, rfl⟩ := Option.map_eq_some_iff.1 h
  exact mem_map_of_mem (mem_of_getLast? he)

theorem set_spec (h : c.Holds .head ids es) (hsane : c.Sane) {key : K} {value : V} {touch : Touch}
    (hmeets : c.Meets truthy kind (.onMap (.set key value touch))) :
    ∃ m ids' es', c.set kind key value = some { c with toLinkedMap := m } ∧
      m.Holds .head ids' es' ∧
        Outcome kind c.limit es es' .nothing (.onMap (.set key value touch)) := by
  have hsize : c.size = es.length := h.size.trans (by rw [h.length_eq])
  have hnone := @LinkedMap.Holds.map_eq_none_iff _ _ _ _ _ _ _ key h
  have hlength := @length_entered _ _ _ key value es
  cases kind with
  | lru =>
    obtain ⟨m, ids', hsome, hholds⟩ := h.set key value .asNew
    have hsize' : m.size = (LinkedMap.entered .asNew key value es).length :=
      hholds.size.trans (by rw [hholds.length_eq])
    have hfull : ({ c with toLinkedMap := m } : Cache K V).Holds .head ids'
        (LinkedMap.entered .asNew key value es) := hholds
    have hchecked : ∃ m' ids'' es', checkTrim .lru { c with toLinkedMap := m } =
        some { c with toLinkedMap := m' } ∧ m'.Holds .head ids'' es' ∧
          Evicts .lru (LinkedMap.entered .asNew key value es) es' ∧
            ((c.limit < m.size → c.Roomy) → es'.length ≤ c.limit ∧ (CacheKind.lru = .lru →
              es'.getLast? = (LinkedMap.entered .asNew key value es).getLast?)) :=
      checkTrim_spec hfull hsane
    obtain ⟨m', ids'', es', htrim, hholds', hevicts, hkept⟩ := hchecked
    obtain ⟨hle, hlast⟩ := hkept fun habove => hmeets (by
      rw [hsize', hlength] at habove
      by_cases hmem : key ∈ es.map (·.key)
      · rw [if_pos hmem] at habove
        rw [if_neg (by rw [hnone]; exact not_not.2 hmem)]
        omega
      · rw [if_neg hmem] at habove
        rw [if_pos (hnone.2 hmem)]
        omega)
    refine ⟨m', ids'', es', ?_, hholds', rfl, ?_, hle, hevicts⟩
    · rw [set, hsome]
      exact htrim
    · exact mem_of_last (by rw [hlast rfl, last_entered])
  | mru =>
    have hstart : ∃ m ids' rest, c.makeRoom key = some { c with toLinkedMap := m } ∧
        m.Holds .head ids' rest ∧ Evicts .mru es rest ∧
          (LinkedMap.entered .asNew key value rest).length ≤ c.limit := by
      rw [makeRoom]
      by_cases hmap : c.map key = none
      · have hnot := hnone.1 hmap
        simp only [Meets, if_pos hmap] at hmeets
        by_cases hfull : c.limit ≤ c.size
        · obtain ⟨n, hn, hpos⟩ := hmeets hfull
          have hbound := (target_bounds hsane n hn).2
          rw [if_pos ⟨hfull, hmap⟩, Option.mem_def.1 hn, Option.map_some]
          have hnonneg : ∀ k ∈ some (n - 1), 0 ≤ k := by
            intro k hk
            rw [Option.mem_some_iff] at hk
            omega
          obtain ⟨m, ids', rest, hsome, hholds, hevicts, hkept⟩ :=
            @trim_spec _ _ _ .mru c ids es h (some (n - 1)) hnonneg
          have hle := (hkept (n - 1) rfl).1
          refine ⟨m, ids', rest, hsome, hholds, hevicts, ?_⟩
          have hmem : key ∉ rest.map (·.key) :=
            fun hmem => hnot ((hevicts.sublist.map _).subset hmem)
          rw [length_entered, if_neg hmem]
          omega
        · rw [if_neg fun hboth => hfull hboth.1]
          refine ⟨c.toLinkedMap, ids, es, rfl, h, List.prefix_rfl, ?_⟩
          rw [hlength, if_neg hnot]
          omega
      · simp only [Meets, if_neg hmap] at hmeets
        rw [if_neg fun hboth => hmap hboth.2]
        refine ⟨c.toLinkedMap, ids, es, rfl, h, List.prefix_rfl, ?_⟩
        rw [hlength, if_pos (not_not.1 (mt hnone.2 hmap))]
        omega
    obtain ⟨m, ids', rest, hstarted, hholds, hevicts, hle⟩ := hstart
    obtain ⟨m', ids'', hsome, hholds'⟩ := hholds.set key value .asNew
    refine ⟨m', ids'', _, ?_, hholds', rfl, mem_of_last (last_entered key value rest), hle, rest,
      hevicts, rfl⟩
    rw [set]
    simp only [Option.bind_eq_bind, hstarted, Option.bind_some, hsome]
    rfl

theorem step_spec (h : c.Holds .head ids es) (hsane : c.Sane) {op : CacheOperation K V}
    (hmeets : c.Meets truthy kind op) : ∃ c' answer ids' es', c.step truthy kind op = some
    (c', answer) ∧ c'.Holds .head ids' es' ∧ c'.Sane ∧ Outcome kind c'.limit es es' answer op := by
  have hmap : ∀ {op : Operation K V}, c.DeletesTruthy truthy op → ∃ m ids',
      (c.toLinkedMap.step truthy op).map (fun p => ({ c with toLinkedMap := p.1 }, p.2)) =
        some (({ c with toLinkedMap := m } : Cache K V), op.answer es) ∧
        m.Holds .head ids' (op.onEntries es) := by
    intro op hop
    obtain ⟨m, ids', hsome, hholds⟩ := LinkedMap.Holds.step h hop
    exact ⟨m, ids', by rw [hsome]; rfl, hholds⟩
  cases op with
  | onMap op =>
    cases op with
    | set key value touch =>
      obtain ⟨m, ids', es', hsome, hholds, houtcome⟩ := set_spec h hsane hmeets
      exact ⟨{ c with toLinkedMap := m }, .nothing, ids', es', by rw [step, hsome]; rfl,
        hholds, hsane, houtcome⟩
    | get key touch =>
      obtain ⟨m, ids', hsome, hholds⟩ := @hmap (.get key touch) hmeets
      exact ⟨_, _, ids', _, hsome, hholds, hsane, rfl, rfl⟩
    | delete key =>
      obtain ⟨m, ids', hsome, hholds⟩ := @hmap (.delete key) hmeets
      exact ⟨_, _, ids', _, hsome, hholds, hsane, rfl, rfl⟩
    | remove key =>
      obtain ⟨m, ids', hsome, hholds⟩ := @hmap (.remove key) hmeets
      exact ⟨_, _, ids', _, hsome, hholds, hsane, rfl, rfl⟩
    | shift =>
      obtain ⟨m, ids', hsome, hholds⟩ := @hmap (.shift) hmeets
      exact ⟨_, _, ids', _, hsome, hholds, hsane, rfl, rfl⟩
    | clear =>
      obtain ⟨m, ids', hsome, hholds⟩ := @hmap (.clear) hmeets
      exact ⟨_, _, ids', _, hsome, hholds, hsane, rfl, rfl⟩
  | peek key =>
    obtain ⟨m, ids', hsome, hholds⟩ := LinkedMap.Holds.get h key .none
    exact ⟨{ c with toLinkedMap := m }, _, ids', es, by rw [step, peek, hsome]; rfl, hholds,
      hsane, rfl, rfl⟩
  | setLimit limit =>
    have hlimit : ({ c with limit } : Cache K V).Holds .head ids es := h
    obtain ⟨m, ids', es', hsome, hholds, hevicts, -⟩ :=
      @checkTrim_spec _ _ _ kind _ _ _ hlimit hsane
    exact ⟨{ c with toLinkedMap := m, limit }, .nothing, ids', es',
      by rw [step, setLimit, hsome]; rfl, hholds, hsane, rfl, hevicts⟩
  | setRatio ratio =>
    have hratio : ({ c with ratio := clamp ratio } : Cache K V).Holds .head ids es := h
    obtain ⟨m, ids', es', hsome, hholds, hevicts, -⟩ :=
      @checkTrim_spec _ _ _ kind _ _ _ hratio (clamp_sane ratio)
    exact ⟨{ c with toLinkedMap := m, ratio := clamp ratio }, .nothing, ids', es',
      by rw [step, setRatio, hsome]; rfl, hholds, clamp_sane ratio, rfl, hevicts⟩

theorem runsAs {ops : List (CacheOperation K V)} (h : c.Holds .head ids es) (hsane : c.Sane)
    (hops : AllowedRun truthy kind c ops) : RunsAs truthy kind c es ops := by
  induction ops generalizing c ids es with
  | nil => exact ⟨ids, h⟩
  | cons op ops ih =>
    obtain ⟨c', answer, ids', es', hsome, hholds, hsane', houtcome⟩ := step_spec h hsane hops.1
    exact ⟨⟨ids, h⟩, c', answer, es', hsome, houtcome, ih hholds hsane' (hops.2 c' answer hsome)⟩

end

end Cache

/-- Every run of a linked map or a cache whose steps meet the condition goes well. -/
theorem linkedMaps_runAs (truthy : V → Bool) :
    (∀ ops : List (Operation K V), LinkedMap.AllowedRun truthy .new ops →
      LinkedMap.RunsAs truthy .new [] ops) ∧
    ∀ (kind : CacheKind) (limit : ℕ) (ratio : Option ℚ) (ops : List (CacheOperation K V)),
      Cache.AllowedRun truthy kind (.new limit ratio) ops →
        Cache.RunsAs truthy kind (.new limit ratio) [] ops :=
  ⟨fun _ hops => LinkedMap.new_holds.runsAs hops,
    fun _ _ ratio _ hops => Cache.runsAs LinkedMap.new_holds (Cache.clamp_sane ratio) hops⟩

def truthyNumber (value : ℕ) : Bool := value ≠ 0

/-- A delete of a truthy value, and a cache that evicts an entry for the next one. -/
theorem linkedMaps_runAs_sample :
    LinkedMap.RunsAs truthyNumber .new [] [.set 1 5 .none, .delete 1] ∧
      Cache.RunsAs truthyNumber .lru (.new 1 (some 1)) []
        [.onMap (.set 1 5 .asNew), .onMap (.set 2 6 .asNew)] := by
  refine ⟨(linkedMaps_runAs truthyNumber).1 _ ⟨trivial, fun m' answer h => ?_⟩,
    (linkedMaps_runAs truthyNumber).2 _ _ _ _ ⟨fun h => ?_, fun c' answer h => ⟨fun _ => ?_, ?_⟩⟩⟩
  · cases h
    refine ⟨fun id item hmap hitem => ?_, fun _ _ _ => trivial⟩
    cases hmap
    cases hitem
    rfl
  · exact absurd h (by decide)
  · cases h
    exact ⟨1, by decide +kernel, le_rfl⟩
  · exact fun _ _ _ => trivial

/-- The delete of a falsy value answers that there was none, a cache whose target is zero loses the
entry that it sets, and one that evicts the other end throws at it. -/
theorem linkedMaps_not_runAs :
    ¬LinkedMap.RunsAs truthyNumber .new [] [.set 1 0 .none, .delete 1] ∧
      ¬Cache.RunsAs truthyNumber .lru (.new 1 (some 0)) []
        [.onMap (.set 1 5 .asNew), .onMap (.set 2 6 .asNew)] ∧
      ¬Cache.RunsAs truthyNumber .mru (.new 1 (some 0)) []
        [.onMap (.set 1 5 .asNew), .onMap (.set 2 6 .asNew)] := by
  refine ⟨?_, ?_, ?_⟩
  · rintro ⟨-, m, hset, -, m', hdelete, -⟩
    cases hset
    cases hdelete
  · rintro ⟨-, c, answer, es, hset, -, -, c', answer', es', hset', ⟨-, hmem, -⟩, ids, hholds⟩
    have hcleared : ((Cache.step truthyNumber .lru (.new 1 (some 0))
        (.onMap (.set 1 5 .asNew))).bind fun p =>
          p.1.step truthyNumber .lru (.onMap (.set 2 6 .asNew))).map (·.1.size) = some 0 := by
      decide +kernel
    rw [hset, Option.bind_some, hset'] at hcleared
    have hlength := hholds.length_eq
    have hsize := hholds.size.symm.trans (Option.some.inj hcleared)
    rw [List.eq_nil_of_length_eq_zero (show es'.length = 0 by omega)] at hmem
    exact List.not_mem_nil hmem
  · rintro ⟨-, c, answer, es, hset, -, -, c', answer', es', hset', -⟩
    have hthrows : ((Cache.step truthyNumber .mru (.new 1 (some 0))
        (.onMap (.set 1 5 .asNew))).bind fun p =>
          p.1.step truthyNumber .mru (.onMap (.set 2 6 .asNew))).isNone = true := by
      decide +kernel
    rw [hset, Option.bind_some, hset'] at hthrows
    exact Bool.false_ne_true hthrows

end CodeOss.Maps
