import CodeOss.Events.Emitter

/-! How emitters relate to the protocol of events: the places that a queue at work has still to pass
hold those who are due. Subscriptions and disposals keep the relation. -/

namespace CodeOss.Event

open List List Function

section Places

variable {E V : Type} {L : List (Option ℕ)} {l i i' m n fin x : ℕ} {dq : DeliveryQueue E V}

def segment (L : List (Option ℕ)) (i fin : ℕ) : List ℕ := ((L.drop i).take (fin - i)).reduceOption

theorem segment_of_le (h : fin ≤ i) : segment L i fin = [] := by
  rw [segment, Nat.sub_eq_zero_of_le h, take_zero]
  rfl

theorem segment_zero_length : segment L 0 L.length = L.reduceOption := by
  rw [segment, drop_zero, Nat.sub_zero, take_length]

theorem segment_append (h : fin ≤ L.length) {R : List (Option ℕ)} :
    segment (L ++ R) i fin = segment L i fin := by
  by_cases hi : i ≤ L.length
  · rw [segment, drop_append_of_le_length hi, take_append_of_le_length, segment]
    rw [List.length_drop]
    omega
  · rw [segment_of_le (by omega), segment_of_le (by omega)]

theorem segment_step (hi : i < fin) (hfin : fin ≤ L.length) :
    segment L i fin = (L[i]?.join).toList ++ segment L (i + 1) fin := by
  have hlt : i < L.length := by omega
  have hcons : L.drop i = L[i] :: L.drop (i + 1) := drop_eq_getElem_cons hlt
  rw [segment, hcons, show fin - i = (fin - (i + 1)) + 1 by omega, take_succ_cons,
    List.getElem?_eq_getElem hlt]
  cases L[i] with
  | none => rfl
  | some l => rfl

theorem nextListener_spec (hfin : i + n ≤ L.length) :
    nextListener L n i = none ∧ segment L i (i + n) = [] ∨ ∃ l i', nextListener L n i =
    some (l, i') ∧ i' ≤ i + n ∧ segment L i (i + n) = l :: segment L i' (i + n) := by
  induction n generalizing i with
  | zero => exact .inl ⟨rfl, segment_of_le (le_refl _)⟩
  | succ n ih =>
    have hstep := @segment_step L i (i + (n + 1)) (by omega) hfin
    have hrest := @ih (i + 1) (by omega)
    rw [show i + 1 + n = i + (n + 1) by omega] at hrest
    have hlt : i < L.length := by omega
    rw [List.getElem?_eq_getElem hlt] at hstep
    rw [nextListener, List.getElem?_eq_getElem hlt]
    cases hentry : L[i] with
    | none =>
      rw [hentry] at hstep
      rw [hstep]
      exact hrest
    | some l =>
      rw [hentry] at hstep
      exact .inr ⟨l, i + 1, rfl, by omega, hstep⟩

theorem reduceOption_map_some (ls : List ℕ) : (ls.map some).reduceOption = ls := by
  rw [reduceOption, filterMap_map]
  exact filterMap_some

theorem set_none_eq_map (hnodup : L.reduceOption.Nodup) (hmem : some l ∈ L) :
    L.set (L.idxOf (some l)) none = L.map fun x => if x = some l then none else x := by
  induction L with
  | nil => exact (not_mem_nil hmem).elim
  | cons first L ih =>
    rw [map_cons]
    by_cases hfirst : first = some l
    · rw [hfirst, idxOf_cons_self, set_cons_zero, if_pos rfl]
      rw [hfirst, reduceOption_cons_of_some, nodup_cons] at hnodup
      rw [map_congr_left fun x hx => if_neg ?_, map_id']
      rintro rfl
      exact hnodup.1 (reduceOption_mem_iff.mpr hx)
    · have hrest : L.reduceOption.Nodup := by
        cases first with
        | none => exact hnodup
        | some l' => exact (nodup_cons.mp (reduceOption_cons_of_some l' L ▸ hnodup)).2
      rw [idxOf_cons_ne _ hfirst, set_cons_succ, if_neg hfirst,
        ih hrest ((mem_cons.mp hmem).resolve_left (Ne.symm hfirst))]

theorem reduceOption_map_remove : (L.map fun x => if x = some l then none else x).reduceOption =
    L.reduceOption.filter (· ≠ l) := by
  induction L with
  | nil => rfl
  | cons first L ih =>
    cases first with
    | none => exact ih
    | some l' =>
      rw [map_cons, reduceOption_cons_of_some, filter_cons, ← ih]
      by_cases hl : l' = l
      · rw [if_pos (congrArg some hl), if_neg (by simp [hl])]
        rfl
      · rw [if_neg fun h => hl (Option.some.inj h), if_pos (by simp [hl]),
          reduceOption_cons_of_some]

theorem segment_set_none (hnodup : L.reduceOption.Nodup) (hmem : some l ∈ L) :
    segment (L.set (L.idxOf (some l)) none) i fin = (segment L i fin).filter (· ≠ l) := by
  rw [set_none_eq_map hnodup hmem, segment, ← map_drop, ← map_take,
    reduceOption_map_remove, segment]

theorem reduceOption_set_none (hnodup : L.reduceOption.Nodup) (hmem : some l ∈ L) :
    (L.set (L.idxOf (some l)) none).reduceOption = L.reduceOption.filter (· ≠ l) := by
  rw [set_none_eq_map hnodup hmem, reduceOption_map_remove]

theorem compact_false (L : List (Option ℕ)) (n : ℕ) (dq : DeliveryQueue E V) :
    compact false L n dq = (L.reduceOption.map some, dq) := by
  induction L generalizing n with
  | nil => rfl
  | cons first L ih =>
    cases first with
    | none => exact ih n
    | some l =>
      rw [compact, ih, reduceOption_cons_of_some]
      rfl

/-- Where an index goes to, the listeners before the places being `n`. -/
def closed (L : List (Option ℕ)) (n x : ℕ) : ℕ :=
  if x ≤ n then x else n + (L.take (x - n)).reduceOption.length

theorem closed_of_le (h : x ≤ n) : closed L n x = x := if_pos h

theorem closed_add : closed L n (n + x) = n + (L.take x).reduceOption.length := by
  rw [closed, Nat.add_sub_cancel_left]
  split
  · rw [show x = 0 by omega]
    rfl
  · rfl

theorem closed_some : closed (some l :: L) n x = closed L (n + 1) x := by
  by_cases h : x ≤ n
  · rw [closed_of_le h, closed_of_le (by omega)]
  · obtain ⟨y, rfl⟩ := Nat.exists_eq_add_of_lt (not_le.mp h)
    rw [show n + y + 1 = n + (y + 1) by omega, closed_add, take_succ_cons,
      reduceOption_cons_of_some, length_cons, show n + (y + 1) = n + 1 + y by omega,
      closed_add]
    omega

theorem closed_none : closed (none :: L) n x = closed L n (if n < x then x - 1 else x) := by
  by_cases h : x ≤ n
  · rw [closed_of_le h, if_neg (by omega), closed_of_le h]
  · obtain ⟨y, rfl⟩ := Nat.exists_eq_add_of_lt (not_le.mp h)
    rw [if_pos (by omega), show n + y + 1 = n + (y + 1) by omega, closed_add,
      show n + (y + 1) - 1 = n + y by omega, closed_add]
    rfl

theorem compact_true (hle : dq.i ≤ dq.fin) (hfin : dq.fin ≤ n + L.length) :
    compact true L n dq =
      (L.reduceOption.map some, { dq with i := closed L n dq.i, fin := closed L n dq.fin }) := by
  induction L generalizing n dq with
  | nil =>
    have hfin : dq.fin ≤ n := hfin
    rw [closed_of_le (hle.trans hfin), closed_of_le hfin]
    rfl
  | cons first L ih =>
    rw [length_cons] at hfin
    cases first with
    | some l =>
      rw [compact, ih hle (by omega), reduceOption_cons_of_some, closed_some, closed_some]
      rfl
    | none =>
      rw [compact, if_pos rfl, closed_none, closed_none]
      by_cases hn : n < dq.fin
      · rw [DeliveryQueue.closeUp, if_pos hn, ih (by dsimp only; split <;> omega)
          (by dsimp only; omega), if_pos hn]
        rfl
      · rw [DeliveryQueue.closeUp, if_neg hn, ih hle (by omega), if_neg hn,
          if_neg (by omega : ¬ n < dq.i)]
        rfl

theorem closeUp_keeps (hle : dq.i ≤ dq.fin) :
    (dq.closeUp n).current = dq.current ∧ (dq.closeUp n).value = dq.value ∧ (dq.closeUp n).i ≤
    (dq.closeUp n).fin ∧ (dq.fin ≤ dq.i → (dq.closeUp n).fin ≤ (dq.closeUp n).i) := by
  rw [DeliveryQueue.closeUp]
  split
  · refine ⟨rfl, rfl, ?_, fun hidle => ?_⟩
    · dsimp only
      split <;> omega
    · dsimp only
      split <;> omega
  · exact ⟨rfl, rfl, hle, id⟩

theorem compact_keeps (adjust : Bool) (L : List (Option ℕ)) (n : ℕ) (hle : dq.i ≤ dq.fin) :
    (compact adjust L n dq).1 = L.reduceOption.map some ∧
    (compact adjust L n dq).2.current = dq.current ∧ (compact adjust L n dq).2.value = dq.value ∧
    (compact adjust L n dq).2.i ≤ (compact adjust L n dq).2.fin ∧
    (dq.fin ≤ dq.i → (compact adjust L n dq).2.fin ≤ (compact adjust L n dq).2.i) := by
  induction L generalizing n dq with
  | nil => exact ⟨rfl, rfl, rfl, hle, id⟩
  | cons first L ih =>
    cases first with
    | some l =>
      obtain ⟨hlist, hkeeps⟩ := ih (n + 1) hle
      refine ⟨?_, hkeeps⟩
      rw [reduceOption_cons_of_some, map_cons, ← hlist]
      rfl
    | none =>
      cases adjust with
      | false => exact ih n hle
      | true =>
        obtain ⟨hcurrent, hvalue, hle', hidle⟩ := @closeUp_keeps E V n dq hle
        obtain ⟨hlist, hcurrent', hvalue', hle'', hidle'⟩ := ih n hle'
        exact ⟨hlist, hcurrent'.trans hcurrent, hvalue'.trans hvalue, hle'',
          fun h => hidle' (hidle h)⟩

theorem segment_closed (hle : i ≤ fin) :
    segment (L.reduceOption.map some) (closed L 0 i) (closed L 0 fin) = segment L i fin ∧
      closed L 0 i ≤ closed L 0 fin ∧ closed L 0 fin ≤ (L.reduceOption.map some).length := by
  have hclosed (y : ℕ) : closed L 0 y = (L.take y).reduceOption.length := by
    have h := @closed_add L 0 y
    rwa [Nat.zero_add, Nat.zero_add] at h
  have hsplit (y : ℕ) : L.reduceOption = (L.take y).reduceOption ++ (L.drop y).reduceOption := by
    rw [← reduceOption_append, take_append_drop]
  have htake : (L.take fin).reduceOption = (L.take i).reduceOption ++ segment L i fin := by
    have htwo : L.take fin = L.take i ++ (L.drop i).take (fin - i) := by
      rw [← take_add, Nat.add_sub_cancel' hle]
    rw [htwo, reduceOption_append, segment]
  have hdrop : (L.drop i).reduceOption = segment L i fin ++ (L.drop fin).reduceOption := by
    have htwo : L.drop i = (L.drop i).take (fin - i) ++ L.drop fin := by
      nth_rewrite 1 [← take_append_drop (fin - i) (L.drop i)]
      rw [List.drop_drop, Nat.add_sub_cancel' hle]
    nth_rewrite 1 [htwo]
    rw [reduceOption_append, segment]
  have hlength := congrArg List.length htake
  rw [length_append] at hlength
  rw [hclosed, hclosed]
  refine ⟨?_, by omega, ?_⟩
  · rw [segment, hlength, Nat.add_sub_cancel_left, ← map_drop, ← map_take,
      reduceOption_map_some, hsplit i, drop_left, hdrop, take_left]
  · rw [length_map, hsplit fin, length_append]
    omega

theorem closedUp_spec {adjust : Bool} {c : Prop} [Decidable c]
    {p : List (Option ℕ) × DeliveryQueue E V}
    (hp : p = if c then compact adjust L 0 dq else (L, dq)) (hle : dq.i ≤ dq.fin) :
    (p.1.reduceOption = L.reduceOption ∧ p.2.current = dq.current ∧ p.2.value = dq.value) ∧
      p.2.i ≤ p.2.fin ∧ (dq.fin ≤ dq.i → p.2.fin ≤ p.2.i) ∧ (adjust = false → p.2 = dq) ∧
      (adjust = true → dq.fin ≤ L.length →
        p.2.fin ≤ p.1.length ∧ segment p.1 p.2.i p.2.fin = segment L dq.i dq.fin) := by
  rw [hp]
  split
  · obtain ⟨hlist, hcurrent, hvalue, hle', hidle⟩ := compact_keeps adjust L 0 hle
    refine ⟨⟨?_, hcurrent, hvalue⟩, hle', hidle, ?_, ?_⟩
    · rw [hlist, reduceOption_map_some]
    · rintro rfl
      rw [compact_false]
    · rintro rfl hfin
      rw [compact_true hle (by rwa [Nat.zero_add])]
      obtain ⟨hsegment, -, hlength⟩ := @segment_closed L dq.i dq.fin hle
      exact ⟨hlength, hsegment⟩
  · exact ⟨⟨rfl, rfl, rfl⟩, hle, id, fun _ => rfl, fun _ hfin => ⟨hfin, rfl⟩⟩

end Places

section Relation

variable {E V : Type} [DecidableEq E]

/-- The listeners that are subscribed, in the slot or in the array. -/
def Holds (arrays : ℕ → List (Option ℕ)) : Listeners → List ℕ → Prop
  | .none, live => live = []
  | .one l, live => live = [l]
  | .many array, live => (arrays array).reduceOption = live

structure Agrees (s : State E V) (a : Protocol E V) (e : E) : Prop where
  holds : Holds s.arrays (s.emitters e).listeners (a.live e)
  size : (s.emitters e).size = (a.live e).length
  nodup : (a.live e).Nodup
  mem : ∀ l, l ∈ a.live e ↔
    s.owner[l]? = some e ∧ l ∉ s.removed ∧ (s.emitters e).disposed = false
  queue : ∀ array, (s.emitters e).listeners = .many array →
    array < s.nextArray ∧ (s.emitters e).deliveryQueue ≠ none
  disposed : (s.emitters e).disposed = true → (s.emitters e).listeners = .none

def Frame.on (q : QueueName E) : Frame E V → Bool
  | .deliver q' _ _ => q' = q
  | .single _ => false

/-- A queue at work: the loop that goes on first has captured the array of its emitter, and the
call of `fire` that has filled it has not returned. -/
structure Working (s : State E V) (a : Protocol E V) (q : QueueName E) (e : E) (k : ℕ) (v : V)
    (pending : List ℕ) (array : ℕ) : Prop where
  current : (s.queues q).current = some e
  value : (s.queues q).value = some (k, v)
  delivery : a.deliveries k = some ⟨e, v, pending⟩
  listeners : (s.emitters e).listeners = .many array
  fin_le : (s.queues q).fin ≤ (s.arrays array).length
  due : a.due ⟨e, v, pending⟩ =
    segment (s.arrays array) (s.queues q).i (s.queues q).fin
  filled : ∃ listeners, .deliver q listeners (.finish k) ∈ s.stack
  first : ∃ after, s.stack.find? (Frame.on q) = some (.deliver q (.many array) after)

def calls (w : List (E × ℕ × V)) (stack : List (Frame E V)) : List ℕ :=
  w.map (·.2.1) ++ stack.map Frame.fire

/-- `w` are calls of `fire` that wait and are on no frame, as they are about to go on. -/
structure Core (s : State E V) (a : Protocol E V) (w : List (E × ℕ × V)) : Prop where
  agrees : ∀ e, Agrees s a e
  distinct : ∀ e e' array, (s.emitters e).listeners = .many array →
    (s.emitters e').listeners = .many array → e = e'
  current : ∀ q e, (s.queues q).current = some e → (s.emitters e).deliveryQueue = some q
  le : ∀ q, (s.queues q).i ≤ (s.queues q).fin
  working : ∀ q, (s.queues q).i < (s.queues q).fin → ∃ e k v pending array,
    Working s a q e k v pending array
  waiting : ∀ e k v, (e, k, v) ∈ w ++ s.stack.filterMap Frame.waiting →
    ∃ pending, a.deliveries k = some ⟨e, v, pending⟩ ∧ a.due ⟨e, v, pending⟩ = a.live e ∧
      ∀ k' d, a.deliveries k' = some d → d.emitter = e → a.due d ≠ [] → k' ≤ k
  due : ∀ k d, a.deliveries k = some d → a.due d ≠ [] →
    (∃ e v, (e, k, v) ∈ w ++ s.stack.filterMap Frame.waiting) ∨
      ∃ q v, (s.queues q).i < (s.queues q).fin ∧ (s.queues q).value = some (k, v)
  route : ∀ q listeners e k v, .deliver q listeners (.fire e k v) ∈ s.stack →
    (s.emitters e).deliveryQueue = some q
  known : ∀ k, (a.deliveries k).isSome ↔ k ∈ calls w s.stack
  nodup : (calls w s.stack).Nodup
  fresh : ∀ k ∈ calls w s.stack, k < s.fired
  pending : ∀ k d, a.deliveries k = some d → ∀ l ∈ d.pending, l < s.owner.length
  removed : ∀ l ∈ s.removed, l < s.owner.length

variable {s : State E V} {a : Protocol E V} {w : List (E × ℕ × V)} {o : Observation E V}
variable {e e' : E} {k k' : ℕ} {v : V} {l : ℕ} {q : QueueName E}

theorem setLive_self {live : List ℕ} : (a.setLive e live).live e = live :=
  update_self _ _ _

theorem setLive_of_ne {live : List ℕ} (h : e' ≠ e) : (a.setLive e live).live e' = a.live e' :=
  update_of_ne h _ _

omit [DecidableEq E] in
theorem setDelivery_self {d : Option (Delivery E V)} : (a.setDelivery k d).deliveries k = d :=
  update_self _ _ _

omit [DecidableEq E] in
theorem setDelivery_of_ne {d : Option (Delivery E V)} (h : k' ≠ k) :
    (a.setDelivery k d).deliveries k' = a.deliveries k' :=
  update_of_ne h _ _

variable {s' : State E V} {a' : Protocol E V}

omit [DecidableEq E] in
theorem Agrees.of_eq (h : Agrees s a e) (hemitter : s'.emitters e = s.emitters e)
    (harrays : ∀ array, (s.emitters e).listeners = .many array → s'.arrays array = s.arrays array)
    (hlive : a'.live e = a.live e)
    (howner : ∀ l, s'.owner[l]? = some e ∧ l ∉ s'.removed ↔ s.owner[l]? = some e ∧ l ∉ s.removed)
    (hnext : s.nextArray ≤ s'.nextArray) : Agrees s' a' e where
  holds := by
    have hholds := h.holds
    rw [hemitter, hlive]
    cases hlisteners : (s.emitters e).listeners with
    | none => rwa [hlisteners] at hholds
    | one l => rwa [hlisteners] at hholds
    | many array =>
      rw [hlisteners] at hholds
      exact (congrArg _ (harrays array hlisteners)).trans hholds
  size := by rw [hemitter, hlive, h.size]
  nodup := hlive ▸ h.nodup
  mem l := by rw [hlive, hemitter, h.mem, ← and_assoc, ← howner, and_assoc]
  queue array hlisteners := by
    rw [hemitter] at hlisteners ⊢
    exact ⟨(h.queue array hlisteners).1.trans_le hnext, (h.queue array hlisteners).2⟩
  disposed hdisposed := by
    rw [hemitter] at hdisposed ⊢
    exact h.disposed hdisposed

theorem Working.of_eq {pending : List ℕ} {array : ℕ} (h : Working s a q e k v pending array)
    (hqueue : s'.queues q = s.queues q) (hdelivery : a'.deliveries k = a.deliveries k)
    (hlisteners : (s'.emitters e).listeners = (s.emitters e).listeners)
    (harray : s'.arrays array = s.arrays array)
    (hdue : a'.due ⟨e, v, pending⟩ = a.due ⟨e, v, pending⟩) (hstack : s'.stack = s.stack) :
    Working s' a' q e k v pending array where
  current := by rw [hqueue, h.current]
  value := by rw [hqueue, h.value]
  delivery := hdelivery.trans h.delivery
  listeners := hlisteners.trans h.listeners
  fin_le := by rw [hqueue, harray]; exact h.fin_le
  due := by rw [hdue, hqueue, harray, h.due]
  filled := hstack ▸ h.filled
  first := hstack ▸ h.first

theorem Core.observe (h : Core s a w) : Core (s.observe o) a w where
  agrees e := (h.agrees e).of_eq rfl (fun _ _ => rfl) rfl (fun _ => Iff.rfl) (le_refl _)
  distinct := h.distinct
  current := h.current
  le := h.le
  working q hq := by
    obtain ⟨e, k, v, pending, array, hworking⟩ := h.working q hq
    exact ⟨e, k, v, pending, array, hworking.of_eq rfl rfl rfl rfl rfl rfl⟩
  waiting := h.waiting
  due := h.due
  route := h.route
  known := h.known
  nodup := h.nodup
  fresh := h.fresh
  pending := h.pending
  removed := h.removed

theorem core_init (options : E → Option ℕ) :
    Core (State.init options : State E V) Protocol.init [] where
  agrees e := ⟨rfl, rfl, nodup_nil, fun l => by simp [Protocol.init, State.init],
    fun _ h => (nomatch h), fun h => nomatch h⟩
  distinct _ _ _ h := nomatch h
  current _ _ h := nomatch h
  le _ := le_refl _
  working _ h := absurd h (lt_irrefl 0)
  waiting _ _ _ h := nomatch h
  due _ _ h := nomatch h
  route _ _ _ _ _ h := nomatch h
  known _ := by simp [Protocol.init, calls, State.init]
  nodup := nodup_nil
  fresh _ h := nomatch h
  pending _ _ h := nomatch h
  removed _ h := nomatch h

omit [DecidableEq E] in
theorem getElem?_owner_append {owner : List E} (hne : e' ≠ e) :
    (owner ++ [e])[l]? = some e' ↔ owner[l]? = some e' := by
  rcases lt_trichotomy l owner.length with hl | rfl | hl
  · rw [getElem?_append_left hl]
  · rw [getElem?_concat_length, getElem?_eq_none (le_refl _)]
    exact iff_of_false (fun h => hne (Option.some.inj h).symm) (fun h => nomatch h)
  · rw [getElem?_eq_none (by simpa using hl), getElem?_eq_none hl.le]

variable {d : Delivery E V}

theorem due_subscribed (hpending : ∀ l' ∈ d.pending, l' < l) :
    (a.setLive e (a.live e ++ [l])).due d = a.due d := by
  refine filter_congr fun l' hl' => ?_
  have hlt := hpending l' hl'
  by_cases hd : d.emitter = e
  · simp [hd, setLive_self, hlt.ne]
  · simp [setLive_of_ne hd]

theorem Core.subscribed (h : Core s a []) (hdisposed : (s.emitters e).disposed = false)
    (hwaits : ¬ s.Waits e) (hothers : ∀ e' ≠ e, s'.emitters e' = s.emitters e')
    (harrays : ∀ e' ≠ e, ∀ array, (s.emitters e').listeners = .many array →
    s'.arrays array = s.arrays array ∧ (s'.emitters e).listeners ≠ .many array)
    (hqueues : s'.queues = s.queues) (hstack : s'.stack = s.stack)
    (hremoved : s'.removed = s.removed) (hfired : s'.fired = s.fired)
    (howner : s'.owner = s.owner ++ [e]) (hnext : s.nextArray ≤ s'.nextArray)
    (hholds : Holds s'.arrays (s'.emitters e).listeners (a.live e ++ [s.owner.length]))
    (hsize : (s'.emitters e).size = (s.emitters e).size + 1)
    (hdisposed' : (s'.emitters e).disposed = false)
    (hqueue : ∀ array, (s'.emitters e).listeners = .many array → array < s'.nextArray ∧
    (s'.emitters e).deliveryQueue ≠ none)
    (hkeeps : ∀ q, (s.emitters e).deliveryQueue = some q → (s'.emitters e).deliveryQueue = some q)
    (hmany : ∀ array, (s.emitters e).listeners = .many array → (s'.emitters e).listeners = .many
    array ∧ s'.arrays array = s.arrays array ++ [some s.owner.length]) :
    Core s' (a.setLive e (a.live e ++ [s.owner.length])) [] := by
  have hnotmem : s.owner.length ∉ a.live e := fun hmem => by
    have hsome := ((h.agrees e).mem _).mp hmem
    rw [getElem?_eq_none (le_refl _)] at hsome
    exact (nomatch hsome.1)
  have hdue (d : Delivery E V) (k : ℕ) (hk : a.deliveries k = some d) :=
    @due_subscribed E V _ a e s.owner.length d (h.pending k d hk)
  constructor
  case agrees =>
    intro e'
    by_cases he : e' = e
    · subst he
      refine ⟨?_, ?_, ?_, fun l => ?_, hqueue, fun hd => ?_⟩
      · rwa [setLive_self]
      · rw [setLive_self, hsize, (h.agrees e').size, length_append, length_singleton]
      · rw [setLive_self]
        exact nodup_append.mpr ⟨(h.agrees e').nodup, nodup_singleton _,
          fun x hx y hy heq => hnotmem (mem_singleton.mp hy ▸ heq ▸ hx)⟩
      · rw [setLive_self, howner, hremoved, hdisposed', List.mem_append,
          mem_singleton, (h.agrees e').mem, hdisposed]
        by_cases hl : l = s.owner.length
        · subst hl
          have hfresh : s.owner.length ∉ s.removed := fun hmem =>
            (h.removed _ hmem).ne rfl
          simp [hfresh]
        · have hget : (s.owner ++ [e'])[l]? = some e' ↔ s.owner[l]? = some e' := by
            rcases lt_or_gt_of_ne hl with hlt | hgt
            · rw [getElem?_append_left hlt]
            · rw [getElem?_eq_none (by simpa using hgt), getElem?_eq_none hgt.le]
          rw [hget]
          simp [hl]
      · rw [hdisposed'] at hd
        exact (nomatch hd)
    · refine (h.agrees e').of_eq (hothers e' he) (fun array hlisteners =>
        (harrays e' he array hlisteners).1) (setLive_of_ne he) (fun l => ?_) hnext
      rw [howner, hremoved, getElem?_owner_append he]
  case distinct =>
    intro e₁ e₂ array h₁ h₂
    by_cases he₁ : e₁ = e <;> by_cases he₂ : e₂ = e
    · rw [he₁, he₂]
    · rw [hothers e₂ he₂] at h₂
      rw [he₁] at h₁
      exact ((harrays e₂ he₂ array h₂).2 h₁).elim
    · rw [hothers e₁ he₁] at h₁
      rw [he₂] at h₂
      exact ((harrays e₁ he₁ array h₁).2 h₂).elim
    · rw [hothers e₁ he₁] at h₁
      rw [hothers e₂ he₂] at h₂
      exact h.distinct e₁ e₂ array h₁ h₂
  case current =>
    intro q e' hq
    rw [hqueues] at hq
    by_cases he : e' = e
    · exact he ▸ hkeeps q (h.current q e (he ▸ hq))
    · rw [hothers e' he]
      exact h.current q e' hq
  case le => exact fun q => hqueues ▸ h.le q
  case working =>
    intro q hq
    rw [hqueues] at hq
    obtain ⟨e', k, v, pending, array, hworking⟩ := h.working q hq
    have hdue' := hdue _ k hworking.delivery
    refine ⟨e', k, v, pending, array, ?_⟩
    by_cases he : e' = e
    · subst he
      obtain ⟨hlisteners, harray⟩ := hmany array hworking.listeners
      refine ⟨hqueues ▸ hworking.current, hqueues ▸ hworking.value, hworking.delivery, hlisteners,
        ?_, ?_, hstack ▸ hworking.filled, hstack ▸ hworking.first⟩
      · rw [hqueues, harray, length_append]
        exact hworking.fin_le.trans (Nat.le_add_right _ _)
      · rw [hdue', hqueues, harray, segment_append hworking.fin_le, hworking.due]
    · exact hworking.of_eq (by rw [hqueues]) rfl (by rw [hothers e' he])
        (harrays e' he array hworking.listeners).1 hdue' hstack
  case waiting =>
    intro e' k v hmem
    rw [hstack] at hmem
    have he : e' ≠ e := fun he => hwaits ⟨_, by simpa using hmem, he⟩
    obtain ⟨pending, hdelivery, hlive, hlast⟩ := h.waiting e' k v hmem
    refine ⟨pending, hdelivery, ?_, fun k' d hk' hd hne => ?_⟩
    · rw [hdue _ k hdelivery, hlive]
      exact (setLive_of_ne he).symm
    · rw [hdue d k' hk'] at hne
      exact hlast k' d hk' hd hne
  case due =>
    intro k d hk hne
    rw [hdue d k hk] at hne
    rw [hstack, hqueues]
    exact h.due k d hk hne
  case route =>
    intro q listeners e' k v hmem
    have hroute := h.route q listeners e' k v (hstack ▸ hmem)
    by_cases he : e' = e
    · exact he ▸ hkeeps q (he ▸ hroute)
    · rw [hothers e' he]
      exact hroute
  case known => exact fun k => hstack ▸ h.known k
  case nodup => exact hstack ▸ h.nodup
  case fresh => exact hstack ▸ hfired ▸ h.fresh
  case pending =>
    intro k d hk l hl
    rw [howner, length_append]
    exact (h.pending k d hk l hl).trans_le (Nat.le_add_right _ _)
  case removed =>
    intro l hl
    rw [howner, length_append]
    exact (h.removed l (hremoved ▸ hl)).trans_le (Nat.le_add_right _ _)

/-- What is observed on the way from one state to another is a run of the protocol. -/
def Follows [DecidableEq V] (s : State E V) (a : Protocol E V) (s' : State E V)
    (a' : Protocol E V) : Prop :=
  ∃ os, s'.log = s.log ++ os ∧ a.run os = some a'

theorem Follows.of_log [DecidableEq V] (h : s'.log = s.log) : Follows s a s' a :=
  ⟨[], by rw [h, append_nil], rfl⟩

theorem Follows.of_step [DecidableEq V] (h : s'.log = s.log ++ [o]) (hstep : a.step o = some a') :
    Follows s a s' a' :=
  ⟨[o], h, by rw [Protocol.run, foldlM_cons, hstep]; rfl⟩

theorem Follows.trans [DecidableEq V] {s'' : State E V} {a'' : Protocol E V} (h : Follows s a s' a')
    (h' : Follows s' a' s'' a'') : Follows s a s'' a'' := by
  obtain ⟨os, hlog, hrun⟩ := h
  obtain ⟨os', hlog', hrun'⟩ := h'
  refine ⟨os ++ os', by rw [hlog', hlog, append_assoc], ?_⟩
  rw [Protocol.run, foldlM_append]
  exact (congrArg (· >>= _) hrun).trans hrun'

theorem subscribe_follows [DecidableEq V] (h : Core s a []) (hcareful : s.Careful (.subscribe e)) :
    ∃ a', Follows s a (s.subscribe e) a' ∧ Core (s.subscribe e) a' [] := by
  rw [State.subscribe]
  split
  · exact ⟨a, .of_log rfl, h⟩
  · rename_i hdisposed
    rw [Bool.not_eq_true] at hdisposed
    have hagrees := h.agrees e
    have hholds := hagrees.holds
    have hwaits := hcareful hdisposed
    refine ⟨a.setLive e (a.live e ++ [s.owner.length]), ?_⟩
    cases hlisteners : (s.emitters e).listeners with
    | none =>
      rw [hlisteners] at hholds
      simp only [State.observe, State.setEmitter, hlisteners]
      refine ⟨.of_step rfl rfl, h.subscribed hdisposed hwaits (fun e' he => update_of_ne he _ _)
        (fun e' he array _ => ⟨rfl, ?_⟩) rfl rfl rfl rfl rfl (le_refl _) ?_ ?_ ?_ ?_ ?_ ?_⟩
      all_goals simp only [update_self]
      · exact nofun
      · rw [show a.live e = [] from hholds]
        rfl
      · exact hdisposed
      · exact nofun
      · exact fun q hq => hq
      · exact fun array harray => nomatch hlisteners.symm.trans harray
    | one first =>
      rw [hlisteners] at hholds
      simp only [State.observe, State.setEmitter, State.setArray, hlisteners]
      refine ⟨.of_step rfl rfl, h.subscribed hdisposed hwaits (fun e' he => update_of_ne he _ _)
        (fun e' he array harray => ⟨?_, ?_⟩) rfl rfl rfl rfl rfl (Nat.le_succ _)
        ?_ ?_ ?_ ?_ ?_ ?_⟩
      all_goals simp only [update_self]
      · exact update_of_ne ((h.agrees e').queue array harray).1.ne _ _
      · exact fun heq => ((h.agrees e').queue array harray).1.ne (Listeners.many.inj heq).symm
      · rw [show a.live e = [first] from hholds, Holds, update_self]
        rfl
      · exact hdisposed
      · rintro array heq
        rw [← Listeners.many.inj heq]
        exact ⟨Nat.lt_succ_self _, nofun⟩
      · rintro q hq
        rw [hq]
        rfl
      · exact fun array harray => nomatch hlisteners.symm.trans harray
    | many array =>
      rw [hlisteners] at hholds
      simp only [State.observe, State.setEmitter, State.setArray, hlisteners]
      refine ⟨.of_step rfl rfl, h.subscribed hdisposed hwaits (fun e' he => update_of_ne he _ _)
        (fun e' he array' harray => ⟨?_, ?_⟩) rfl rfl rfl rfl rfl (le_refl _) ?_ ?_ ?_ ?_ ?_ ?_⟩
      all_goals simp only [update_self]
      · have hne : array' ≠ array := fun heq =>
          he (h.distinct _ _ _ harray (heq ▸ hlisteners))
        exact update_of_ne hne _ _
      · exact fun heq => he (h.distinct _ _ _ harray (hlisteners.trans heq))
      · rw [Holds, update_self, reduceOption_append,
          show _ = a.live e from hholds]
        rfl
      · exact hdisposed
      · exact fun array' harray => hagrees.queue array' (hlisteners.trans harray)
      · exact fun q hq => hq
      · intro array' harray
        obtain rfl := Listeners.many.inj (hlisteners.symm.trans harray)
        exact ⟨rfl, update_self _ _ _⟩

theorem due_unsubscribed :
    (a.setLive e ((a.live e).filter (· ≠ l))).due d =
      if d.emitter = e then (a.due d).filter (· ≠ l) else a.due d := by
  split
  · rename_i hd
    rw [Protocol.due, Protocol.due, filter_filter, hd, setLive_self]
    exact filter_congr fun x _ => by simp [and_comm]
  · rename_i hd
    rw [Protocol.due, Protocol.due, setLive_of_ne hd]

theorem Core.unsubscribed (h : Core s a []) (howned : s.owner[l]? = some e)
    (hothers : ∀ e' ≠ e, s'.emitters e' = s.emitters e')
    (harrays : ∀ e' ≠ e, ∀ array, (s.emitters e').listeners = .many array →
    s'.arrays array = s.arrays array)
    (hcurrent : ∀ q, (s'.queues q).current = (s.queues q).current)
    (hvalue : ∀ q, (s'.queues q).value = (s.queues q).value)
    (hle : ∀ q, (s'.queues q).i ≤ (s'.queues q).fin)
    (hqueues : ∀ q, (s.queues q).current ≠ some e → s'.queues q = s.queues q)
    (hidle : ∀ q, (s.queues q).fin ≤ (s.queues q).i → (s'.queues q).fin ≤ (s'.queues q).i)
    (hworking : ∀ q array, (s.queues q).current = some e → (s.queues q).i < (s.queues q).fin →
    (s.emitters e).listeners = .many array → (s.queues q).fin ≤ (s.arrays array).length →
    (s'.emitters e).listeners = .many array ∧ (s'.queues q).fin ≤ (s'.arrays array).length ∧ segment
    (s'.arrays array) (s'.queues q).i (s'.queues q).fin =
    (segment (s.arrays array) (s.queues q).i (s.queues q).fin).filter (· ≠ l))
    (hstack : s'.stack = s.stack) (howner : s'.owner = s.owner)
    (hremoved : s'.removed = l :: s.removed) (hfired : s'.fired = s.fired)
    (hnext : s.nextArray = s'.nextArray)
    (hholds : Holds s'.arrays (s'.emitters e).listeners ((a.live e).filter (· ≠ l)))
    (hsize : (s'.emitters e).size = ((a.live e).filter (· ≠ l)).length)
    (hdisposed : (s'.emitters e).disposed = (s.emitters e).disposed)
    (hdelivery : (s'.emitters e).deliveryQueue = (s.emitters e).deliveryQueue)
    (hlisteners : (s'.emitters e).listeners = .none ∨ (s'.emitters e).listeners =
    (s.emitters e).listeners) :
    Core s' (a.setLive e ((a.live e).filter (· ≠ l))) [] := by
  have hbound : l < s.owner.length := (List.getElem?_eq_some_iff.mp howned).1
  have hmany (array : ℕ) (harray : (s'.emitters e).listeners = .many array) :
      (s.emitters e).listeners = .many array := by
    rcases hlisteners with hnone | hsame
    · exact (nomatch hnone.symm.trans harray)
    · exact hsame.symm.trans harray
  have hmany' (e' : E) (array : ℕ) (harray : (s'.emitters e').listeners = .many array) :
      (s.emitters e').listeners = .many array := by
    by_cases he : e' = e
    · exact he ▸ hmany array (he ▸ harray)
    · exact hothers e' he ▸ harray
  have hwork (q : QueueName E) (hq : (s.queues q).i < (s.queues q).fin) :
      ∃ e' k v pending array, Working s a q e' k v pending array ∧
        ((s'.queues q).i < (s'.queues q).fin → Working s'
          (a.setLive e ((a.live e).filter (· ≠ l))) q e' k v pending array) ∧
        ((a.setLive e ((a.live e).filter (· ≠ l))).due ⟨e', v, pending⟩ ≠ [] →
          (s'.queues q).i < (s'.queues q).fin) := by
    obtain ⟨e', k, v, pending, array, hold⟩ := h.working q hq
    refine ⟨e', k, v, pending, array, hold, ?_⟩
    by_cases he : e' = e
    · subst he
      obtain ⟨hlisteners', hfin, hsegment⟩ :=
        hworking q array hold.current hq hold.listeners hold.fin_le
      have hdue : (a.setLive e' ((a.live e').filter (· ≠ l))).due ⟨e', v, pending⟩ =
          segment (s'.arrays array) (s'.queues q).i (s'.queues q).fin := by
        rw [due_unsubscribed, if_pos rfl, hold.due, hsegment]
      refine ⟨fun _ => ⟨?_, ?_, hold.delivery, hlisteners', hfin, hdue, hstack ▸ hold.filled,
        hstack ▸ hold.first⟩, fun hne => ?_⟩
      · rw [hcurrent, hold.current]
      · rw [hvalue, hold.value]
      · rw [hdue] at hne
        exact not_le.mp fun hle => hne (segment_of_le hle)
    · have hqueue := hqueues q fun hc => he (Option.some.inj (hold.current.symm.trans hc))
      refine ⟨fun _ => hold.of_eq hqueue rfl (by rw [hothers e' he])
        (harrays e' he array hold.listeners) ?_ hstack, fun _ => hqueue ▸ hq⟩
      rw [due_unsubscribed, if_neg he]
  constructor
  case agrees =>
    intro e'
    by_cases he : e' = e
    · subst he
      have hagrees := h.agrees e'
      refine ⟨?_, ?_, ?_, fun l' => ?_, fun array harray => ?_, fun hd => ?_⟩
      · rwa [setLive_self]
      · rwa [setLive_self]
      · rw [setLive_self]
        exact hagrees.nodup.filter _
      · rw [setLive_self, mem_filter, hagrees.mem, howner, hremoved, hdisposed, mem_cons, not_or]
        simp only [decide_eq_true_eq, ne_eq]
        tauto
      · rw [hdelivery, ← hnext]
        exact hagrees.queue array (hmany array harray)
      · rcases hlisteners with hnone | hsame
        · exact hnone
        · exact hsame.trans (hagrees.disposed (hdisposed ▸ hd))
    · refine (h.agrees e').of_eq (hothers e' he) (harrays e' he) (setLive_of_ne he) (fun l' => ?_)
        hnext.le
      rw [howner, hremoved, mem_cons, not_or]
      refine and_congr_right fun howned' => ⟨And.right, fun hnot => ⟨?_, hnot⟩⟩
      rintro rfl
      exact he (Option.some.inj (howned'.symm.trans howned))
  case distinct =>
    exact fun e₁ e₂ array h₁ h₂ => h.distinct e₁ e₂ array (hmany' e₁ array h₁) (hmany' e₂ array h₂)
  case current =>
    intro q e' hq
    rw [hcurrent] at hq
    by_cases he : e' = e
    · rw [he, hdelivery]
      exact h.current q e (he ▸ hq)
    · rw [hothers e' he]
      exact h.current q e' hq
  case le => exact hle
  case working =>
    intro q hq
    have hq' := not_le.mp fun hle => not_le.mpr hq (hidle q hle)
    obtain ⟨e', k, v, pending, array, -, hnew, -⟩ := hwork q hq'
    exact ⟨e', k, v, pending, array, hnew hq⟩
  case waiting =>
    intro e' k v hmem
    rw [hstack] at hmem
    obtain ⟨pending, hdelivery, hlive, hlast⟩ := h.waiting e' k v hmem
    refine ⟨pending, hdelivery, ?_, fun k' d hk' hd hne => hlast k' d hk' hd fun hnil => hne ?_⟩
    · rw [due_unsubscribed, hlive]
      by_cases he : e' = e
      · rw [if_pos he, he, setLive_self]
      · rw [if_neg he, setLive_of_ne he]
    · rw [due_unsubscribed, hnil]
      split <;> rfl
  case due =>
    intro k d hk hne
    have hne' : a.due d ≠ [] := fun hnil => hne (by
      rw [due_unsubscribed, hnil]
      split <;> rfl)
    rw [hstack]
    rcases h.due k d hk hne' with hwaiting | ⟨q, v, hq, hv⟩
    · exact .inl hwaiting
    · obtain ⟨e', k', v', pending, array, hold, -, hstill⟩ := hwork q hq
      obtain ⟨rfl, rfl⟩ := Prod.ext_iff.mp (Option.some.inj (hold.value.symm.trans hv))
      obtain rfl := Option.some.inj (hold.delivery.symm.trans hk)
      exact .inr ⟨q, _, hstill hne, by rw [hvalue, hv]⟩
  case route =>
    intro q listeners e' k v hmem
    have hroute := h.route q listeners e' k v (hstack ▸ hmem)
    by_cases he : e' = e
    · rw [he, hdelivery, ← he]
      exact hroute
    · rw [hothers e' he]
      exact hroute
  case known => exact fun k => hstack ▸ h.known k
  case nodup => exact hstack ▸ h.nodup
  case fresh => exact hstack ▸ hfired ▸ h.fresh
  case pending => exact fun k d hk l hl => howner ▸ h.pending k d hk l hl
  case removed =>
    intro l' hl'
    rw [hremoved] at hl'
    rw [howner]
    rcases mem_cons.mp hl' with rfl | hl'
    · exact hbound
    · exact h.removed l' hl'

theorem removeListener_none (h : (s.emitters e).listeners = .none) : s.removeListener e l = s := by
  rw [State.removeListener, h]

theorem removeListener_last (h : (s.emitters e).listeners ≠ .none)
    (hsize : (s.emitters e).size = 1) : s.removeListener e l =
      s.setEmitter e { s.emitters e with listeners := .none, size := 0 } := by
  rw [State.removeListener]
  cases hlisteners : (s.emitters e).listeners with
  | none => exact (h hlisteners).elim
  | one first => simp only [hsize, if_true]
  | many array => simp only [hsize, if_true]

theorem removeListener_many {array : ℕ} (h : (s.emitters e).listeners = .many array)
    (hsize : (s.emitters e).size ≠ 1) (hmem : some l ∈ s.arrays array)
    (hq : (s.emitters e).deliveryQueue = some q) {places : List (Option ℕ)}
    (hplaces : places = (s.arrays array).set ((s.arrays array).idxOf (some l)) none)
    {closedUp : List (Option ℕ) × DeliveryQueue E V}
    (hclosed : closedUp = if ((s.emitters e).size - 1) * 2 ≤ places.length then
      compact (decide ((s.queues q).current = some e)) places 0 (s.queues q)
      else (places, s.queues q)) :
    s.removeListener e l =
      ((s.setEmitter e { s.emitters e with size := (s.emitters e).size - 1 }).setArray array
        closedUp.1).setQueue q closedUp.2 := by
  have hself (emitter : Emitter E) : (s.setEmitter e emitter).emitters e = emitter :=
    update_self _ _ _
  simp only [State.removeListener, h, if_neg hsize, if_pos hmem, hself, hq, ← hplaces]
  rw [hclosed]
  split
  · rfl
  · simp only [State.setQueue, State.setArray, State.setEmitter, update_eq_self]

theorem unsubscribe_follows [DecidableEq V] (h : Core s a [])
    (hcareful : s.Careful (.unsubscribe l)) :
    ∃ a', Follows s a (s.unsubscribe l) a' ∧ Core (s.unsubscribe l) a' [] := by
  rw [State.unsubscribe]
  cases howned : s.owner[l]? with
  | none => exact ⟨a, .of_log rfl, h⟩
  | some e =>
    dsimp only
    by_cases hgone : l ∈ s.removed
    · rw [if_pos hgone]
      exact ⟨a, .of_log rfl, h⟩
    · rw [if_neg hgone]
      have hagrees := h.agrees e
      have hholds := hagrees.holds
      refine ⟨a.setLive e ((a.live e).filter (· ≠ l)), ?_⟩
      have hlive : (s.emitters e).listeners ≠ .none → l ∈ a.live e := fun hsome =>
        (hagrees.mem l).mpr ⟨howned, hgone, Bool.eq_false_iff.mpr fun hd =>
          hsome (hagrees.disposed hd)⟩
      have hlast (hsize : (s.emitters e).size = 1) (hl : l ∈ a.live e) :
          (a.live e).filter (· ≠ l) = [] := by
        obtain ⟨l', hl'⟩ := length_eq_one_iff.mp (hagrees.size ▸ hsize)
        rw [hl', mem_singleton] at hl
        rw [hl', hl]
        simp
      have hidle (hsize : (s.emitters e).size = 1) (q : QueueName E)
          (hq : (s.queues q).current = some e) : ¬ (s.queues q).i < (s.queues q).fin := fun hlt =>
        hcareful e howned hgone hsize ⟨q, h.current q e hq, hq, hlt⟩
      have hone (hsize : (s.emitters e).size = 1) (hl : l ∈ a.live e) :
          Core ((s.markAsDisposed e l).setEmitter e
            { s.emitters e with listeners := .none, size := 0 })
            (a.setLive e ((a.live e).filter (· ≠ l))) [] := by
        refine h.unsubscribed howned (fun _ he => update_of_ne he _ _) (fun _ _ _ _ => rfl)
          (fun _ => rfl) (fun _ => rfl)
          h.le (fun _ _ => rfl) (fun _ => id)
          (fun q array hq hlt => (hidle hsize q hq hlt).elim) rfl rfl rfl rfl rfl ?_ ?_ ?_ ?_ ?_
        all_goals simp only [State.setEmitter, State.markAsDisposed, State.observe, update_self]
        · rw [hlast hsize hl]
          rfl
        · rw [hlast hsize hl]
          rfl
        · exact .inl trivial
      cases hlisteners : (s.emitters e).listeners with
      | none =>
        rw [hlisteners] at hholds
        have hnil : a.live e = [] := hholds
        rw [@removeListener_none _ _ _ (s.markAsDisposed e l) _ _ hlisteners]
        refine ⟨.of_step rfl rfl, h.unsubscribed howned (fun _ _ => rfl) (fun _ _ _ _ => rfl)
          (fun _ => rfl) (fun _ => rfl) h.le (fun _ _ => rfl) (fun _ => id)
          (fun q array _ _ harray => nomatch hlisteners.symm.trans harray) rfl rfl rfl rfl rfl
          ?_ ?_ rfl rfl (.inr rfl)⟩
        · simp only [State.markAsDisposed, State.observe, hlisteners, hnil]
          rfl
        · show (s.emitters e).size = _
          rw [hagrees.size, hnil]
          rfl
      | one first =>
        rw [hlisteners] at hholds
        have hsome : (s.emitters e).listeners ≠ .none := by rw [hlisteners]; nofun
        have hsize : (s.emitters e).size = 1 := by
          rw [hagrees.size, show a.live e = [first] from hholds]
          rfl
        rw [@removeListener_last _ _ _ (s.markAsDisposed e l) _ _ hsome hsize]
        exact ⟨.of_step rfl rfl, hone hsize (hlive hsome)⟩
      | many array =>
        rw [hlisteners] at hholds
        have hsome : (s.emitters e).listeners ≠ .none := by rw [hlisteners]; nofun
        by_cases hsize : (s.emitters e).size = 1
        · rw [@removeListener_last _ _ _ (s.markAsDisposed e l) _ _ hsome hsize]
          exact ⟨.of_step rfl rfl, hone hsize (hlive hsome)⟩
        · have hreduce : (s.arrays array).reduceOption = a.live e := hholds
          have hnodup : (s.arrays array).reduceOption.Nodup := hreduce ▸ hagrees.nodup
          have hmem : some l ∈ s.arrays array :=
            reduceOption_mem_iff.mp (hreduce ▸ hlive hsome)
          obtain ⟨q₀, hq₀⟩ := Option.ne_none_iff_exists'.mp (hagrees.queue array hlisteners).2
          generalize hplaces : (s.arrays array).set ((s.arrays array).idxOf (some l)) none = places
          have hsegment (i fin : ℕ) : segment places i fin =
              (segment (s.arrays array) i fin).filter (· ≠ l) := by
            rw [← hplaces, segment_set_none hnodup hmem]
          have hleft : places.reduceOption = (a.live e).filter (· ≠ l) := by
            rw [← hplaces, reduceOption_set_none hnodup hmem, hreduce]
          have hlength : places.length = (s.arrays array).length := by
            rw [← hplaces, List.length_set]
          obtain ⟨p, hp⟩ : ∃ p, p = if ((s.emitters e).size - 1) * 2 ≤ places.length then
              compact (decide ((s.queues q₀).current = some e)) places 0 (s.queues q₀)
              else (places, s.queues q₀) := ⟨_, rfl⟩
          rw [@removeListener_many _ _ _ (s.markAsDisposed e l) _ _ _ _ hlisteners hsize hmem
            hq₀ _ hplaces.symm _ hp]
          obtain ⟨⟨hlist, hcurrent, hvalue⟩, hle, hidle', hsame, hactive⟩ :=
            closedUp_spec hp (h.le q₀)
          have hupdate (q : QueueName E) (hq : q ≠ q₀) :
              Function.update s.queues q₀ p.2 q = s.queues q := update_of_ne hq _ _
          have hupdate₀ : Function.update s.queues q₀ p.2 q₀ = p.2 := update_self _ _ _
          refine ⟨.of_step rfl rfl, h.unsubscribed howned (fun _ he => update_of_ne he _ _)
            (fun e' he array' harray' =>
            ?_) (fun q => ?_) (fun q => ?_) (fun q => ?_) (fun q hq => ?_) (fun q hq => ?_)
            (fun q array' hq hlt harray' hfin => ?_) rfl rfl rfl rfl rfl ?_ ?_ ?_ ?_ ?_⟩
          all_goals simp only [State.setQueue, State.setArray, State.setEmitter,
            State.markAsDisposed, State.observe, update_self]
          · have hne' : array' ≠ array := by
              rintro rfl
              exact he (h.distinct _ _ _ harray' hlisteners)
            exact update_of_ne hne' _ _
          · by_cases hq : q = q₀
            · rw [hq, hupdate₀, hcurrent]
            · rw [hupdate q hq]
          · by_cases hq : q = q₀
            · rw [hq, hupdate₀, hvalue]
            · rw [hupdate q hq]
          · by_cases hq : q = q₀
            · rw [hq, hupdate₀]
              exact hle
            · rw [hupdate q hq]
              exact h.le q
          · by_cases heq : q = q₀
            · rw [heq, hupdate₀]
              exact hsame (decide_eq_false (heq ▸ hq))
            · exact hupdate q heq
          · by_cases heq : q = q₀
            · rw [heq, hupdate₀]
              exact hidle' (heq ▸ hq)
            · rw [hupdate q heq]
              exact hq
          · obtain rfl := Listeners.many.inj (hlisteners.symm.trans harray')
            obtain rfl := Option.some.inj ((h.current q e hq).symm.trans hq₀)
            obtain ⟨hfin', hsegment'⟩ := hactive (decide_eq_true hq) (hlength ▸ hfin)
            rw [hupdate₀, update_self, hsegment', hsegment]
            exact ⟨hlisteners, hfin', rfl⟩
          · rw [hlisteners, Holds, update_self, hlist, hleft]
          · have herase : (a.live e).filter (· ≠ l) = (a.live e).erase l := by
              rw [hagrees.nodup.erase_eq_filter]
              exact filter_congr fun x _ => by by_cases hx : x = l <;> simp [hx]
            rw [hagrees.size, herase, length_erase_of_mem (hlive hsome)]
          · exact .inr trivial

theorem due_disposed : (a.setLive e []).due d = if d.emitter = e then [] else a.due d := by
  split
  · rename_i hd
    rw [Protocol.due, hd, setLive_self]
    simp
  · rename_i hd
    rw [Protocol.due, Protocol.due, setLive_of_ne hd]

def State.queuesWithout (s : State E V) (e : E) (q : QueueName E) : DeliveryQueue E V :=
  if (s.queues q).current = some e then (s.queues q).reset else s.queues q

theorem resetQueue_eq (h : Core s a w) :
    s.resetQueue e = { s with queues := s.queuesWithout e } := by
  have hqueues (q : QueueName E) (hq : (s.emitters e).deliveryQueue ≠ some q) :
      s.queuesWithout e q = s.queues q := if_neg fun hc => hq (h.current q e hc)
  rw [State.resetQueue]
  cases hqueue : (s.emitters e).deliveryQueue with
  | none =>
    have hsame : s.queuesWithout e = s.queues :=
      funext fun q => hqueues q (by rw [hqueue]; nofun)
    rw [hsame]
  | some q₀ =>
    have hwithout : s.queuesWithout e = Function.update s.queues q₀ (s.queuesWithout e q₀) := by
      funext q
      by_cases hq : q = q₀
      · rw [hq, update_self]
      · rw [update_of_ne hq,
          hqueues q (by rw [hqueue]; exact fun heq => hq (Option.some.inj heq).symm)]
    rw [hwithout, State.queuesWithout]
    dsimp only
    split
    · rfl
    · rw [update_eq_self]

theorem dispose_eq (h : Core s a []) (hdisposed : (s.emitters e).disposed = false) :
    s.dispose e = { s.observe (.disposed e) with
      queues := s.queuesWithout e
      emitters := Function.update s.emitters e
        { s.emitters e with disposed := true, listeners := .none, size := 0 } } := by
  have hholds := (h.agrees e).holds
  have hsize := (h.agrees e).size
  rw [State.dispose, @resetQueue_eq _ _ _ (s.observe (.disposed e)) _ _ _ h.observe]
  simp only [hdisposed, if_neg Bool.false_ne_true]
  cases hlisteners : (s.emitters e).listeners with
  | none =>
    rw [hlisteners] at hholds
    rw [show a.live e = [] from hholds] at hsize
    simp only [State.setEmitter, State.observe, hsize]
    rfl
  | one first => rfl
  | many array => rfl

theorem dispose_follows [DecidableEq V] (h : Core s a []) :
    ∃ a', Follows s a (s.dispose e) a' ∧ Core (s.dispose e) a' [] := by
  by_cases hdisposed : (s.emitters e).disposed = true
  · rw [State.dispose, if_pos hdisposed]
    exact ⟨a, .of_log rfl, h⟩
  · rw [dispose_eq h (Bool.eq_false_iff.mpr hdisposed)]
    refine ⟨a.setLive e [], .of_step rfl rfl, ?_⟩
    have hgone (q : QueueName E) (hq : (s.queues q).current = some e) :
        s.queuesWithout e q = (s.queues q).reset := if_pos hq
    have hkept (q : QueueName E) (hq : (s.queues q).current ≠ some e) :
        s.queuesWithout e q = s.queues q := if_neg hq
    constructor
    case agrees =>
      intro e'
      by_cases he : e' = e
      · subst he
        refine ⟨?_, ?_, ?_, fun l => ?_, fun array harray => ?_, fun _ => ?_⟩
        all_goals simp only [update_self, setLive_self] at *
        · rfl
        · rfl
        · exact nodup_nil
        · simp
        · exact (nomatch harray)
      · exact (h.agrees e').of_eq (update_of_ne he _ _) (fun _ _ => rfl) (setLive_of_ne he)
          (fun _ => Iff.rfl) (le_refl _)
    case distinct =>
      intro e₁ e₂ array h₁ h₂
      by_cases he₁ : e₁ = e
      · rw [he₁] at h₁
        simp only [update_self] at h₁
        exact (nomatch h₁)
      · by_cases he₂ : e₂ = e
        · rw [he₂] at h₂
          simp only [update_self] at h₂
          exact (nomatch h₂)
        · simp only [update_of_ne he₁, update_of_ne he₂] at h₁ h₂
          exact h.distinct e₁ e₂ array h₁ h₂
    case current =>
      intro q e' hq
      by_cases hcurrent : (s.queues q).current = some e
      · simp only [hgone q hcurrent] at hq
        exact (nomatch hq)
      · simp only [hkept q hcurrent] at hq
        have he : e' ≠ e := fun he => hcurrent (he ▸ hq)
        simp only [update_of_ne he]
        exact h.current q e' hq
    case le =>
      intro q
      by_cases hcurrent : (s.queues q).current = some e
      · simp only [hgone q hcurrent]
        exact le_refl _
      · simp only [hkept q hcurrent]
        exact h.le q
    case working =>
      intro q hq
      by_cases hcurrent : (s.queues q).current = some e
      · simp only [hgone q hcurrent] at hq
        exact (lt_irrefl _ hq).elim
      · simp only [hkept q hcurrent] at hq
        obtain ⟨e', k, v, pending, array, hworking⟩ := h.working q hq
        have he : e' ≠ e := fun he => hcurrent (he ▸ hworking.current)
        refine ⟨e', k, v, pending, array, hworking.of_eq (hkept q hcurrent) rfl ?_ rfl ?_ rfl⟩
        · simp only [update_of_ne he]
        · rw [due_disposed, if_neg he]
    case waiting =>
      intro e' k v hmem
      obtain ⟨pending, hdelivery, hlive, hlast⟩ := h.waiting e' k v hmem
      refine ⟨pending, hdelivery, ?_, fun k' d hk' hd hne => hlast k' d hk' hd fun hnil => hne ?_⟩
      · rw [due_disposed, hlive]
        by_cases he : e' = e
        · rw [if_pos he, he, setLive_self]
        · rw [if_neg he, setLive_of_ne he]
      · rw [due_disposed, hnil]
        split <;> rfl
    case due =>
      intro k d hk hdue
      rw [due_disposed] at hdue
      split at hdue
      · exact (hdue rfl).elim
      · rename_i hemitter
        refine (h.due k d hk hdue).imp_right fun ⟨q, v, hq, hv⟩ => ⟨q, v, ?_⟩
        obtain ⟨e', k', v', pending, array, hworking⟩ := h.working q hq
        obtain ⟨rfl, rfl⟩ := Prod.ext_iff.mp (Option.some.inj (hworking.value.symm.trans hv))
        obtain rfl := Option.some.inj (hworking.delivery.symm.trans hk)
        have hcurrent : (s.queues q).current ≠ some e := fun hc =>
          hemitter (Option.some.inj (hworking.current.symm.trans hc))
        simp only [hkept q hcurrent]
        exact ⟨hq, hv⟩
    case route =>
      intro q listeners e' k v hmem
      have hroute := h.route q listeners e' k v hmem
      by_cases he : e' = e
      · rw [he] at hroute ⊢
        simp only [update_self]
        exact hroute
      · simp only [update_of_ne he]
        exact hroute
    case known => exact h.known
    case nodup => exact h.nodup
    case fresh => exact h.fresh
    case pending => exact h.pending
    case removed => exact h.removed

end Relation

end CodeOss.Event
