import CodeOss.Events.EmitterRelation

/-! Every run with care is a run of the protocol of events. -/

namespace CodeOss.Event

open List Option Function

section Delivery

variable {E V : Type} [DecidableEq E] {s : State E V} {a : Protocol E V} {w : List (E × ℕ × V)}
variable {e : E} {k k' : ℕ} {v : V} {l : ℕ} {q : QueueName E}

variable {pending : List ℕ} {array : ℕ} {listeners : Listeners} {after : Continuation E V}
  {a' : Protocol E V}

theorem Working.deliveries_eq {d : Delivery E V} (hworking : Working s a q e k v pending array)
    (hd : a.deliveries k = some d) :
    d = ⟨e, v, pending⟩ := (Option.some.inj (hworking.delivery.symm.trans hd)).symm

omit [DecidableEq E] in
theorem Frame.fire_of_waiting {frame : Frame E V} (h : frame.waiting = some (e, k, v)) :
    frame.fire = k := by
  cases frame with
  | single k' => exact (nomatch h)
  | deliver q listeners after =>
    cases after with
    | finish k' => exact (nomatch h)
    | fire e' k' v' => exact congrArg (·.2.1) (Option.some.inj h)

theorem Core.not_waiting (h : Core s a w) (hworking : Working s a q e k v pending array)
    {e' : E} {v' : V} : (e', k, v') ∉ w ++ s.stack.filterMap Frame.waiting := by
  obtain ⟨listeners, hfilled⟩ := hworking.filled
  have hnodup := nodup_append.mp h.nodup
  intro hmem
  rcases List.mem_append.mp hmem with hw | hstack
  · exact hnodup.2.2 k (mem_map.mpr ⟨_, hw, rfl⟩) k (mem_map.mpr ⟨_, hfilled, rfl⟩) rfl
  · obtain ⟨frame, hframe, hwaiting⟩ := mem_filterMap.mp hstack
    have heq := inj_on_of_nodup_map hnodup.2.1 hframe hfilled
      (Frame.fire_of_waiting hwaiting)
    rw [heq] at hwaiting
    exact (nomatch hwaiting)

theorem Core.queue_eq (h : Core s a w) {q' : QueueName E} (hq : (s.queues q).current = some e)
    (hq' : (s.queues q').current = some e) : q' = q :=
  Option.some.inj ((h.current q' e hq').symm.trans (h.current q e hq))

theorem Core.reset (h : Core s a w) (hq : ∀ e k v pending array, Working s a q e k v pending array →
    (s.queues q).i < (s.queues q).fin → a.due ⟨e, v, pending⟩ = []) :
    Core (s.setQueue q (s.queues q).reset) a w := by
  have hself : (s.setQueue q (s.queues q).reset).queues q = (s.queues q).reset :=
    update_self _ _ _
  have hne (q' : QueueName E) (hq' : q' ≠ q) :
      (s.setQueue q (s.queues q).reset).queues q' = s.queues q' := update_of_ne hq' _ _
  constructor
  case agrees =>
    exact fun e => (h.agrees e).of_eq rfl (fun _ _ => rfl) rfl (fun _ => Iff.rfl) (le_refl _)
  case distinct => exact h.distinct
  case current =>
    intro q' e hcurrent
    by_cases hq' : q' = q
    · rw [hq', hself] at hcurrent
      exact (nomatch hcurrent)
    · rw [hne q' hq'] at hcurrent
      exact h.current q' e hcurrent
  case le =>
    intro q'
    by_cases hq' : q' = q
    · rw [hq', hself]
      exact le_refl _
    · rw [hne q' hq']
      exact h.le q'
  case working =>
    intro q' hlt
    by_cases hq' : q' = q
    · rw [hq', hself] at hlt
      exact (lt_irrefl _ hlt).elim
    · rw [hne q' hq'] at hlt
      obtain ⟨e, k, v, pending, array, hworking⟩ := h.working q' hlt
      exact ⟨e, k, v, pending, array, hworking.of_eq (hne q' hq') rfl rfl rfl rfl rfl⟩
  case waiting => exact h.waiting
  case due =>
    intro k d hk hdue
    refine (h.due k d hk hdue).imp_right fun ⟨q', v, hlt, hv⟩ => ⟨q', v, ?_⟩
    have hq' : q' ≠ q := by
      rintro rfl
      obtain ⟨e, k', v', pending, array, hworking⟩ := h.working q' hlt
      obtain ⟨rfl, rfl⟩ := Prod.ext_iff.mp (Option.some.inj (hworking.value.symm.trans hv))
      exact hdue (hworking.deliveries_eq hk ▸ hq _ _ _ _ _ hworking hlt)
    rw [hne q' hq']
    exact ⟨hlt, hv⟩
  case route => exact h.route
  case known => exact h.known
  case nodup => exact h.nodup
  case fresh => exact h.fresh
  case pending => exact h.pending
  case removed => exact h.removed

omit [DecidableEq E] in
theorem mem_due {d : Delivery E V} (h : l ∈ a.due d) : l ∈ d.pending ∧ l ∈ a.live d.emitter := by
  simpa [Protocol.due] using h

variable {frame : Frame E V} {stack : List (Frame E V)}

theorem find?_on : (Frame.deliver q listeners after :: stack).find? (Frame.on q) =
    some (.deliver q listeners after) :=
  find?_cons_of_pos (decide_eq_true rfl)

theorem Working.pop (h : Working s a q e k v pending array) (hstack : s.stack = frame :: stack)
    (hframe : frame.on q = false) (hdelivery : a'.deliveries k = a.deliveries k)
    (hlive : a'.live = a.live) :
    Working { s with stack } a' q e k v pending array := by
  obtain ⟨listeners, hfilled⟩ := h.filled
  obtain ⟨after, hfirst⟩ := h.first
  rw [hstack] at hfilled hfirst
  refine ⟨h.current, h.value, hdelivery.trans h.delivery, h.listeners, h.fin_le, ?_,
    ⟨listeners, (mem_cons.mp hfilled).resolve_left ?_⟩, after, ?_⟩
  · rw [Protocol.due, hlive]
    exact h.due
  · rintro rfl
    rw [Frame.on, decide_eq_false_iff_not] at hframe
    exact hframe rfl
  · rwa [find?_cons_of_neg (by rw [hframe]; exact Bool.false_ne_true)] at hfirst

theorem Working.push (h : Working s a q e k v pending array) (hframe : frame.on q = false)
    (hdelivery : a'.deliveries k = a.deliveries k) (hlive : a'.live = a.live) :
    Working { s with stack := frame :: s.stack } a' q e k v pending array := by
  obtain ⟨listeners, hfilled⟩ := h.filled
  obtain ⟨after, hfirst⟩ := h.first
  refine ⟨h.current, h.value, hdelivery.trans h.delivery, h.listeners, h.fin_le, ?_,
    ⟨listeners, mem_cons_of_mem _ hfilled⟩, after, ?_⟩
  · rw [Protocol.due, hlive]
    exact h.due
  · rw [find?_cons_of_neg (by rw [hframe]; exact Bool.false_ne_true)]
    exact hfirst

omit [DecidableEq E] in
theorem Agrees.of_stack (h : Agrees s a e) {s' : State E V} (hemitters : s'.emitters = s.emitters)
    (harrays : s'.arrays = s.arrays) (howner : s'.owner = s.owner)
    (hremoved : s'.removed = s.removed) (hnext : s'.nextArray = s.nextArray)
    (hlive : a'.live = a.live) : Agrees s' a' e :=
  h.of_eq (by rw [hemitters]) (fun _ _ => by rw [harrays]) (by rw [hlive])
    (fun _ => by rw [howner, hremoved]) hnext.ge

/-- The call of `fire` of the upper frame returns: nobody is due any more. -/
theorem Core.pop_finish (h : Core s a []) (hstack : s.stack = frame :: stack)
    (hwaiting : frame.waiting = none)
    (hidle : ∀ q, (s.queues q).i < (s.queues q).fin → frame.on q = false) :
    (∃ d, a.deliveries frame.fire = some d ∧ a.due d = []) ∧
      Core { s with stack } (a.setDelivery frame.fire none) [] := by
  have hnodup := h.nodup
  rw [hstack] at hnodup
  have hnot : frame.fire ∉ stack.map Frame.fire := (nodup_cons.mp hnodup).1
  have hwaits : s.stack.filterMap Frame.waiting = stack.filterMap Frame.waiting := by
    rw [hstack, filterMap_cons_none hwaiting]
  have hknown (k : ℕ) : (a.deliveries k).isSome ↔ k = frame.fire ∨ k ∈ stack.map Frame.fire := by
    rw [h.known, hstack]
    exact mem_cons
  have hworking {q : QueueName E} {e : E} {k : ℕ} {v : V} {pending : List ℕ} {array : ℕ}
      (hlt : (s.queues q).i < (s.queues q).fin)
      (hworking : Working s a q e k v pending array) : k ≠ frame.fire := by
    rintro rfl
    obtain ⟨listeners, hfilled⟩ := hworking.filled
    rw [hstack] at hfilled
    rcases mem_cons.mp hfilled with heq | hmem
    · have hon := hidle q hlt
      rw [← heq, Frame.on, decide_eq_false_iff_not] at hon
      exact hon rfl
    · exact hnot (mem_map.mpr ⟨_, hmem, rfl⟩)
  have hwait {e : E} {k : ℕ} {v : V} (hmem : (e, k, v) ∈ stack.filterMap Frame.waiting) :
      k ≠ frame.fire := by
    rintro rfl
    obtain ⟨frame', hframe', heq⟩ := mem_filterMap.mp hmem
    exact hnot (mem_map.mpr ⟨frame', hframe', Frame.fire_of_waiting heq⟩)
  refine ⟨?_, ?_⟩
  · obtain ⟨d, hd⟩ := isSome_iff_exists.mp ((hknown frame.fire).mpr (.inl rfl))
    refine ⟨d, hd, not_not.mp fun hne => ?_⟩
    rcases h.due _ d hd hne with ⟨e, v, hmem⟩ | ⟨q, v, hlt, hv⟩
    · rw [nil_append, hwaits] at hmem
      exact hwait hmem rfl
    · obtain ⟨e, k, v', pending, array, hwork⟩ := h.working q hlt
      exact hworking hlt hwork (congrArg Prod.fst (Option.some.inj (hwork.value.symm.trans hv)))
  · constructor
    case agrees => exact fun e => (h.agrees e).of_stack rfl rfl rfl rfl rfl rfl
    case distinct => exact h.distinct
    case current => exact h.current
    case le => exact h.le
    case working =>
      intro q hlt
      obtain ⟨e, k, v, pending, array, hwork⟩ := h.working q hlt
      exact ⟨e, k, v, pending, array, hwork.pop hstack (hidle q hlt)
        (setDelivery_of_ne (hworking hlt hwork)) rfl⟩
    case waiting =>
      intro e k v hmem
      obtain ⟨pending, hdelivery, hlive, hlast⟩ := h.waiting e k v (hwaits ▸ hmem)
      refine ⟨pending, (setDelivery_of_ne (hwait hmem)).trans hdelivery, hlive,
        fun k' d hd => ?_⟩
      by_cases hk' : k' = frame.fire
      · rw [hk', setDelivery_self] at hd
        exact (nomatch hd)
      · exact hlast k' d ((setDelivery_of_ne hk').symm.trans hd)
    case due =>
      intro k d hd hne
      by_cases hk : k = frame.fire
      · rw [hk, setDelivery_self] at hd
        exact (nomatch hd)
      · have hdue := h.due k d ((setDelivery_of_ne hk).symm.trans hd) hne
        rwa [hwaits] at hdue
    case route =>
      exact fun q listeners e k v hmem =>
        h.route q listeners e k v (hstack ▸ mem_cons_of_mem _ hmem)
    case known =>
      intro k
      by_cases hk : k = frame.fire
      · rw [hk, setDelivery_self]
        exact iff_of_false nofun hnot
      · rw [setDelivery_of_ne hk, hknown]
        exact or_iff_right hk
    case nodup => exact (nodup_cons.mp hnodup).2
    case fresh =>
      intro k hk
      refine h.fresh k ?_
      rw [hstack]
      exact mem_cons_of_mem _ hk
    case pending =>
      intro k d hd
      by_cases hk : k = frame.fire
      · rw [hk, setDelivery_self] at hd
        exact (nomatch hd)
      · exact h.pending k d ((setDelivery_of_ne hk).symm.trans hd)
    case removed => exact h.removed

theorem Core.pop_wait (h : Core s a [])
    (hstack : s.stack = .deliver q listeners (.fire e k v) :: stack)
    (hidle : (s.queues q).fin ≤ (s.queues q).i) : Core { s with stack } a [(e, k, v)] := by
  have hwaits : [] ++ s.stack.filterMap Frame.waiting =
      [(e, k, v)] ++ stack.filterMap Frame.waiting := by
    rw [hstack]
    rfl
  have hcalls : calls [] s.stack = calls [(e, k, v)] stack := by
    rw [hstack]
    rfl
  constructor
  case agrees => exact fun e => (h.agrees e).of_stack rfl rfl rfl rfl rfl rfl
  case distinct => exact h.distinct
  case current => exact h.current
  case le => exact h.le
  case working =>
    intro q' hlt
    obtain ⟨e', k', v', pending, array, hwork⟩ := h.working q' hlt
    refine ⟨e', k', v', pending, array, hwork.pop hstack ?_ rfl rfl⟩
    rw [Frame.on, decide_eq_false_iff_not]
    rintro rfl
    exact not_lt.mpr hidle hlt
  case waiting => exact fun e' k' v' hmem => h.waiting e' k' v' (hwaits ▸ hmem)
  case due => exact fun k' d hd hne => hwaits ▸ h.due k' d hd hne
  case route =>
    exact fun q' listeners e' k' v' hmem =>
      h.route q' listeners e' k' v' (hstack ▸ mem_cons_of_mem _ hmem)
  case known => exact fun k' => hcalls ▸ h.known k'
  case nodup => exact hcalls ▸ h.nodup
  case fresh => exact hcalls ▸ h.fresh
  case pending => exact h.pending
  case removed => exact h.removed

theorem Core.push_wait (h : Core s a [(e, k, v)]) (hq : (s.emitters e).deliveryQueue = some q)
    {current : E} (hcurrent : (s.queues q).current = some current) :
    Core { s with
      stack := .deliver q (s.emitters current).listeners (.fire e k v) :: s.stack } a [] := by
  constructor
  case agrees => exact fun e => (h.agrees e).of_stack rfl rfl rfl rfl rfl rfl
  case distinct => exact h.distinct
  case current => exact h.current
  case le => exact h.le
  case working =>
    intro q' hlt
    obtain ⟨e', k', v', pending, array, hwork⟩ := h.working q' hlt
    refine ⟨e', k', v', pending, array, ?_⟩
    by_cases hq' : q = q'
    · subst hq'
      obtain ⟨listeners, hfilled⟩ := hwork.filled
      obtain rfl := Option.some.inj (hcurrent.symm.trans hwork.current)
      refine ⟨hwork.current, hwork.value, hwork.delivery, hwork.listeners, hwork.fin_le, hwork.due,
        ⟨listeners, mem_cons_of_mem _ hfilled⟩, .fire e k v, ?_⟩
      rw [hwork.listeners]
      exact find?_on
    · refine hwork.push ?_ rfl rfl
      exact decide_eq_false hq'
  case waiting => exact h.waiting
  case due => exact h.due
  case route =>
    intro q' listeners e' k' v' hmem
    rcases mem_cons.mp hmem with heq | hmem
    · injection heq with hq' _ hafter
      injection hafter with he'
      rw [he', hq']
      exact hq
    · exact h.route q' listeners e' k' v' hmem
  case known => exact h.known
  case nodup => exact h.nodup
  case fresh => exact h.fresh
  case pending => exact h.pending
  case removed => exact h.removed

theorem Core.push_single (h : Core s a [(e, k, v)])
    (hpending : ∀ d, a.deliveries k = some d → pending ⊆ d.pending)
    (hdue : a.due ⟨e, v, pending⟩ = []) :
    Core { s with stack := .single k :: s.stack } (a.setDelivery k (some ⟨e, v, pending⟩)) [] := by
  obtain ⟨pending₀, hdelivery, -⟩ := h.waiting e k v (mem_append_left _ mem_cons_self)
  have hnot : k ∉ s.stack.map Frame.fire := (nodup_cons.mp h.nodup).1
  constructor
  case agrees => exact fun e => (h.agrees e).of_stack rfl rfl rfl rfl rfl rfl
  case distinct => exact h.distinct
  case current => exact h.current
  case le => exact h.le
  case working =>
    intro q hlt
    obtain ⟨e', k', v', pending', array, hwork⟩ := h.working q hlt
    have hk : k' ≠ k := by
      rintro rfl
      exact h.not_waiting hwork (mem_append_left _ mem_cons_self)
    refine ⟨e', k', v', pending', array, hwork.push ?_ (setDelivery_of_ne hk) rfl⟩
    rfl
  case waiting =>
    intro e' k' v' hmem
    have hmem : (e', k', v') ∈ s.stack.filterMap Frame.waiting := hmem
    have hk : k' ≠ k := by
      obtain ⟨frame', hframe', heq⟩ := mem_filterMap.mp hmem
      rintro rfl
      exact hnot (mem_map.mpr ⟨frame', hframe', Frame.fire_of_waiting heq⟩)
    obtain ⟨pending', hdelivery', hlive, hlast⟩ :=
      h.waiting e' k' v' (mem_append_right _ hmem)
    refine ⟨pending', (setDelivery_of_ne hk).trans hdelivery', hlive, fun k'' d hd he hne => ?_⟩
    by_cases hk'' : k'' = k
    · rw [hk'', setDelivery_self] at hd
      obtain rfl := Option.some.inj hd
      exact (hne hdue).elim
    · exact hlast k'' d ((setDelivery_of_ne hk'').symm.trans hd) he hne
  case due =>
    intro k' d hd hne
    by_cases hk : k' = k
    · rw [hk, setDelivery_self] at hd
      obtain rfl := Option.some.inj hd
      exact (hne hdue).elim
    · refine (h.due k' d ((setDelivery_of_ne hk).symm.trans hd) hne).imp_left ?_
      rintro ⟨e', v', hmem⟩
      refine ⟨e', v', (mem_cons.mp hmem).resolve_left fun heq => hk ?_⟩
      exact congrArg (·.2.1) heq
  case route =>
    exact fun q listeners e' k' v' hmem =>
      h.route q listeners e' k' v' ((mem_cons.mp hmem).resolve_left nofun)
  case known =>
    intro k'
    refine Iff.trans ?_ (h.known k')
    by_cases hk : k' = k
    · rw [hk, setDelivery_self, hdelivery]
      exact Iff.rfl
    · rw [setDelivery_of_ne hk]
  case nodup => exact h.nodup
  case fresh => exact h.fresh
  case pending =>
    intro k' d hd
    by_cases hk : k' = k
    · rw [hk, setDelivery_self] at hd
      obtain rfl := Option.some.inj hd
      exact fun l hl => h.pending k _ hdelivery l (hpending _ hdelivery hl)
    · exact h.pending k' d ((setDelivery_of_ne hk).symm.trans hd)
  case removed => exact h.removed

theorem Core.push_deliver (h : Core s a [(e, k, v)])
    (hlisteners : (s.emitters e).listeners = .many array)
    (hq : (s.emitters e).deliveryQueue = some q) (hidle : (s.queues q).fin ≤ (s.queues q).i) :
    Core { s.setQueue q (.enqueue e (k, v) (s.arrays array).length) with
      stack := .deliver q (.many array) (.finish k) :: s.stack } a [] := by
  obtain ⟨pending, hdelivery, hlive, -⟩ :=
    h.waiting e k v (mem_append_left _ mem_cons_self)
  have hholds := (h.agrees e).holds
  rw [hlisteners] at hholds
  generalize hdq : DeliveryQueue.enqueue e (k, v) (s.arrays array).length = dq
  have hself : (s.setQueue q dq).queues q = dq := update_self _ _ _
  have hne (q' : QueueName E) (hq' : q' ≠ q) : (s.setQueue q dq).queues q' = s.queues q' :=
    update_of_ne hq' _ _
  have hsegment : a.due ⟨e, v, pending⟩ = segment (s.arrays array) dq.i dq.fin := by
    rw [hlive, ← hdq]
    exact hholds.symm.trans segment_zero_length.symm
  constructor
  case agrees => exact fun e => (h.agrees e).of_stack rfl rfl rfl rfl rfl rfl
  case distinct => exact h.distinct
  case current =>
    intro q' e' hcurrent
    dsimp only at hcurrent ⊢
    by_cases hq' : q' = q
    · rw [hq', hself, ← hdq] at hcurrent
      rw [hq', ← Option.some.inj hcurrent]
      exact hq
    · rw [hne q' hq'] at hcurrent
      exact h.current q' e' hcurrent
  case le =>
    intro q'
    dsimp only
    by_cases hq' : q' = q
    · rw [hq', hself, ← hdq]
      exact Nat.zero_le _
    · rw [hne q' hq']
      exact h.le q'
  case working =>
    intro q' hlt
    dsimp only at hlt
    by_cases hq' : q' = q
    · subst hq'
      refine ⟨e, k, v, pending, array, ?_, ?_, hdelivery, hlisteners, ?_, ?_,
        ⟨_, mem_cons_self⟩, _, find?_on⟩
      all_goals dsimp only
      all_goals rw [hself]
      · rw [← hdq]
        rfl
      · rw [← hdq]
        rfl
      · rw [← hdq]
        exact le_refl _
      · exact hsegment
    · rw [hne q' hq'] at hlt
      obtain ⟨e', k', v', pending', array', hwork⟩ := h.working q' hlt
      refine ⟨e', k', v', pending', array', (hwork.push ?_ rfl rfl).of_eq (hne q' hq') rfl rfl rfl
        rfl rfl⟩
      exact decide_eq_false fun heq => hq' heq.symm
  case waiting => exact fun e' k' v' hmem => h.waiting e' k' v' (mem_append_right _ hmem)
  case due =>
    intro k' d hd hnil
    rcases h.due k' d hd hnil with ⟨e', v', hmem⟩ | ⟨q', v', hlt, hv⟩
    · rcases mem_cons.mp hmem with heq | hmem
      · obtain rfl : k' = k := congrArg (·.2.1) heq
        obtain rfl := Option.some.inj (hdelivery.symm.trans hd)
        refine .inr ⟨q, v, ?_⟩
        dsimp only
        rw [hself]
        refine ⟨not_le.mp fun hle => hnil (hsegment.trans (segment_of_le hle)), ?_⟩
        rw [← hdq]
        rfl
      · exact .inl ⟨e', v', hmem⟩
    · refine .inr ⟨q', v', ?_⟩
      have hq' : q' ≠ q := by
        rintro rfl
        exact not_lt.mpr hidle hlt
      dsimp only
      rw [hne q' hq']
      exact ⟨hlt, hv⟩
  case route =>
    exact fun q' listeners e' k' v' hmem =>
      h.route q' listeners e' k' v' ((mem_cons.mp hmem).resolve_left nofun)
  case known => exact h.known
  case nodup => exact h.nodup
  case fresh => exact h.fresh
  case pending => exact h.pending
  case removed => exact h.removed

theorem Core.fired (h : Core s a []) (hcareful : s.Careful (.fire e v)) :
    Core { s.observe (.fired e s.fired v) with fired := s.fired + 1 }
      (a.setDelivery s.fired (some ⟨e, v, a.live e⟩)) [(e, s.fired, v)] := by
  have hfresh : s.fired ∉ calls [] s.stack := fun hmem => (h.fresh _ hmem).ne rfl
  have hagrees := h.agrees e
  have hdue : (a.setDelivery s.fired (some ⟨e, v, a.live e⟩)).due ⟨e, v, a.live e⟩ = a.live e :=
    filter_eq_self.mpr fun l hl => decide_eq_true hl
  have hne {k : ℕ} {d : Delivery E V} (hd : a.deliveries k = some d) : k ≠ s.fired := by
    rintro rfl
    exact hfresh ((h.known _).mp (by rw [hd]; rfl))
  constructor
  case agrees => exact fun e => (h.agrees e).of_stack rfl rfl rfl rfl rfl rfl
  case distinct => exact h.distinct
  case current => exact h.current
  case le => exact h.le
  case working =>
    intro q hlt
    obtain ⟨e', k, v', pending, array, hwork⟩ := h.working q hlt
    exact ⟨e', k, v', pending, array, hwork.of_eq rfl (setDelivery_of_ne (hne hwork.delivery)) rfl
      rfl rfl rfl⟩
  case waiting =>
    intro e' k v' hmem
    rcases mem_cons.mp hmem with heq | hmem
    · obtain ⟨rfl, rfl, rfl⟩ : e' = e ∧ k = s.fired ∧ v' = v := by simpa using heq
      refine ⟨a.live e', setDelivery_self, hdue, fun k' d hd _ _ => ?_⟩
      by_cases hk' : k' = s.fired
      · exact hk'.le
      · rw [setDelivery_of_ne hk'] at hd
        exact (h.fresh k' ((h.known k').mp (by rw [hd]; rfl))).le
    · obtain ⟨pending, hdelivery, hlive, hlast⟩ := h.waiting e' k v' hmem
      refine ⟨pending, (setDelivery_of_ne (hne hdelivery)).trans hdelivery, hlive,
        fun k' d hd he hnil => ?_⟩
      by_cases hk' : k' = s.fired
      · rw [hk', setDelivery_self] at hd
        obtain rfl := Option.some.inj hd
        have hsize : (s.emitters e).size ≠ 0 := fun hzero =>
          hnil (hdue.trans (length_eq_zero_iff.mp (hagrees.size.symm.trans hzero)))
        exact (hcareful hsize ⟨_, hmem, he.symm⟩).elim
      · exact hlast k' d ((setDelivery_of_ne hk').symm.trans hd) he hnil
  case due =>
    intro k d hd hnil
    by_cases hk : k = s.fired
    · exact .inl ⟨e, v, hk ▸ mem_cons_self⟩
    · refine (h.due k d ((setDelivery_of_ne hk).symm.trans hd) hnil).imp_left ?_
      exact fun ⟨e', v', hmem⟩ => ⟨e', v', mem_cons_of_mem _ hmem⟩
  case route => exact h.route
  case known =>
    intro k
    by_cases hk : k = s.fired
    · rw [hk, setDelivery_self]
      exact iff_of_true rfl mem_cons_self
    · rw [setDelivery_of_ne hk, h.known]
      exact (mem_cons.trans (or_iff_right hk)).symm
  case nodup => exact nodup_cons.mpr ⟨hfresh, h.nodup⟩
  case fresh =>
    intro k hk
    rcases mem_cons.mp hk with rfl | hk
    · exact Nat.lt_succ_self _
    · exact (h.fresh k hk).trans (Nat.lt_succ_self _)
  case pending =>
    intro k d hd
    by_cases hk : k = s.fired
    · rw [hk, setDelivery_self] at hd
      obtain rfl := Option.some.inj hd
      exact fun l hl => (List.getElem?_eq_some_iff.mp ((hagrees.mem l).mp hl).1).1
    · exact h.pending k d ((setDelivery_of_ne hk).symm.trans hd)
  case removed => exact h.removed

variable [DecidableEq V]

/-- The next listener is called: the first of those who are due. -/
theorem Core.called (h : Core s a w) {i : ℕ} (hworking : Working s a q e k v pending array)
    (hlt : (s.queues q).i < (s.queues q).fin) (hi : i ≤ (s.queues q).fin)
    (hdue : segment (s.arrays array) (s.queues q).i (s.queues q).fin = l :: segment (s.arrays array)
    i (s.queues q).fin) :
    ∃ a', a.step (.called l (s.queues q).value) = some a' ∧
      Core (s.setQueue q { s.queues q with i }) a' w := by
  have hself : (s.setQueue q { s.queues q with i }).queues q = { s.queues q with i } :=
    update_self _ _ _
  have hne (q' : QueueName E) (hq' : q' ≠ q) :
      (s.setQueue q { s.queues q with i }).queues q' = s.queues q' := update_of_ne hq' _ _
  have hall := hworking.due.trans hdue
  generalize hrest : segment (s.arrays array) i (s.queues q).fin = rest at hall
  have hkey (q' : QueueName E) (hlt' : (s.queues q').i < (s.queues q').fin) {v' : V}
      (hv' : (s.queues q').value = some (k, v')) : q' = q := by
    obtain ⟨e', k', v'', pending', array', hworking'⟩ := h.working q' hlt'
    obtain ⟨rfl, -⟩ := Prod.ext_iff.mp (Option.some.inj (hworking'.value.symm.trans hv'))
    have hemitter : e = e' := congrArg Delivery.emitter (hworking'.deliveries_eq hworking.delivery)
    exact h.queue_eq hworking.current (by rw [hworking'.current, hemitter])
  refine ⟨a.setDelivery k (some ⟨e, v, rest⟩), ?_, ?_⟩
  · have hfirst : ∀ k' < k, ∀ d' ∈ a.deliveries k', d'.emitter = e → l ∉ a.due d' := by
      intro k' hk' d' hd' hemitter hl
      have hnonempty : a.due d' ≠ [] := ne_nil_of_mem hl
      rcases h.due k' d' hd' hnonempty with ⟨e', v', hwaiting⟩ | ⟨q', v', hlt', hv'⟩
      · -- It waits, so nothing behind it is due.
        obtain ⟨pending', hdelivery, -, hlast⟩ := h.waiting e' k' v' hwaiting
        obtain rfl := Option.some.inj (hdelivery.symm.trans hd')
        have hk := hlast k _ hworking.delivery hemitter.symm (by rw [hall]; exact cons_ne_nil _ _)
        omega
      · obtain ⟨e', k'', v'', pending', array', hworking'⟩ := h.working q' hlt'
        obtain ⟨rfl, rfl⟩ := Prod.ext_iff.mp (Option.some.inj (hworking'.value.symm.trans hv'))
        have heq := hworking'.deliveries_eq hd'
        have hq' : q' = q := by
          refine h.queue_eq hworking.current ?_
          rw [hworking'.current, ← hemitter, heq]
        rw [hq', hworking.value] at hv'
        obtain ⟨rfl, -⟩ := Prod.ext_iff.mp (Option.some.inj hv')
        omega
    simp only [Protocol.step, hworking.value, hworking.delivery, bind_eq_bind, bind_some]
    rw [if_pos ⟨trivial, by rw [hall]; rfl, hfirst⟩, hall]
    rfl
  · have hlive (x : ℕ) (hx : x ∈ rest) : x ∈ a.live e ∧ x ∈ pending := by
      have hmem : x ∈ a.due ⟨e, v, pending⟩ := hall ▸ mem_cons_of_mem _ hx
      exact (mem_due hmem).symm
    have hdue' : (a.setDelivery k (some ⟨e, v, rest⟩)).due ⟨e, v, rest⟩ = rest :=
      filter_eq_self.mpr fun x hx => decide_eq_true (hlive x hx).1
    constructor
    case agrees =>
      exact fun e' => (h.agrees e').of_eq rfl (fun _ _ => rfl) rfl (fun _ => Iff.rfl) (le_refl _)
    case distinct => exact h.distinct
    case current =>
      intro q' e' hcurrent
      by_cases hq' : q' = q
      · rw [hq', hself] at hcurrent
        exact hq' ▸ h.current q e' hcurrent
      · rw [hne q' hq'] at hcurrent
        exact h.current q' e' hcurrent
    case le =>
      intro q'
      by_cases hq' : q' = q
      · rw [hq', hself]
        exact hi
      · rw [hne q' hq']
        exact h.le q'
    case working =>
      intro q' hlt'
      by_cases hq' : q' = q
      · subst hq'
        refine ⟨e, k, v, rest, array, ?_, ?_, setDelivery_self, hworking.listeners, ?_, ?_,
          hworking.filled, hworking.first⟩
        · rw [hself]
          exact hworking.current
        · rw [hself]
          exact hworking.value
        · rw [hself]
          exact hworking.fin_le
        · rw [hself, hdue']
          exact hrest.symm
      · rw [hne q' hq'] at hlt'
        obtain ⟨e', k', v', pending', array', hworking'⟩ := h.working q' hlt'
        have hk' : k' ≠ k := fun hk' => hq' (hkey q' hlt' (hk' ▸ hworking'.value))
        exact ⟨e', k', v', pending', array', hworking'.of_eq (hne q' hq')
          (setDelivery_of_ne hk') rfl rfl rfl rfl⟩
    case waiting =>
      intro e' k' v' hmem
      obtain ⟨pending', hdelivery, hlive', hlast⟩ := h.waiting e' k' v' hmem
      have hk' : k' ≠ k := by
        rintro rfl
        exact h.not_waiting hworking hmem
      refine ⟨pending', (setDelivery_of_ne hk').trans hdelivery, hlive', fun k'' d hd he hnil => ?_⟩
      by_cases hk'' : k'' = k
      · rw [hk'', setDelivery_self] at hd
        obtain rfl := Option.some.inj hd
        exact hk'' ▸ hlast k _ hworking.delivery he (by rw [hall]; exact cons_ne_nil _ _)
      · exact hlast k'' d ((setDelivery_of_ne hk'').symm.trans hd) he hnil
    case due =>
      intro k' d hd hnil
      by_cases hk' : k' = k
      · rw [hk', setDelivery_self] at hd
        obtain rfl := Option.some.inj hd
        rw [hdue', ← hrest] at hnil
        refine .inr ⟨q, v, ?_, ?_⟩
        · rw [hself]
          exact not_le.mp fun hle => hnil (segment_of_le hle)
        · rw [hself, hk']
          exact hworking.value
      · have hd' := (setDelivery_of_ne hk').symm.trans hd
        refine (h.due k' d hd' hnil).imp_right fun ⟨q', v', hlt', hv'⟩ => ⟨q', v', ?_⟩
        have hq' : q' ≠ q := by
          rintro rfl
          rw [hworking.value] at hv'
          exact hk' (congrArg Prod.fst (Option.some.inj hv')).symm
        rw [hne q' hq']
        exact ⟨hlt', hv'⟩
    case route => exact h.route
    case known =>
      intro k'
      refine Iff.trans ?_ (h.known k')
      by_cases hk' : k' = k
      · rw [hk', setDelivery_self, hworking.delivery]
        exact Iff.rfl
      · rw [setDelivery_of_ne hk']
    case nodup => exact h.nodup
    case fresh => exact h.fresh
    case pending =>
      intro k' d hd x hx
      by_cases hk' : k' = k
      · rw [hk', setDelivery_self] at hd
        obtain rfl := Option.some.inj hd
        exact h.pending k _ hworking.delivery x (hlive x hx).2
      · exact h.pending k' d ((setDelivery_of_ne hk').symm.trans hd) x hx
    case removed => exact h.removed

theorem deliverQueue_follows (h : Core s a [])
    (hstack : s.stack = .deliver q listeners after :: stack) :
    (∃ s', ({ s with stack } : State E V).deliverQueue q listeners after = .calls s' ∧
      ∃ a', Follows s a s' a' ∧ Core s' a' []) ∨
    ({ s with stack } : State E V).deliverQueue q listeners after =
        .ends { s.setQueue q (s.queues q).reset with stack } ∧
      Core (s.setQueue q (s.queues q).reset) a [] := by
  by_cases hlt : (s.queues q).i < (s.queues q).fin
  · obtain ⟨e, k, v, pending, array, hworking⟩ := h.working q hlt
    obtain ⟨after', hfirst⟩ := hworking.first
    rw [hstack, find?_on] at hfirst
    injection hfirst with hframe
    injection hframe with _ hlisteners _
    subst hlisteners
    have hle : (s.queues q).i + ((s.queues q).fin - (s.queues q).i) = (s.queues q).fin := by omega
    have hnext := @nextListener_spec (s.arrays array) (s.queues q).i
      ((s.queues q).fin - (s.queues q).i) (by rw [hle]; exact hworking.fin_le)
    rw [hle] at hnext
    rcases hnext with ⟨hnone, hsegment⟩ | ⟨l, i, hsome, hi, hsegment⟩
    · refine .inr ⟨by simp only [State.deliverQueue, hnone]; rfl, h.reset ?_⟩
      intro e' k' v' pending' array' hworking' _
      obtain rfl := Option.some.inj (hworking.current.symm.trans hworking'.current)
      obtain rfl := Listeners.many.inj (hworking.listeners.symm.trans hworking'.listeners)
      rw [hworking'.due, hsegment]
    · obtain ⟨a', hstep, h'⟩ := h.called hworking hlt hi hsegment
      refine .inl ⟨(s.setQueue q { s.queues q with i }).observe (.called l (s.queues q).value), ?_,
        a', .of_step rfl hstep, h'.observe⟩
      simp only [State.deliverQueue, hsome]
      rw [← hstack]
      rfl
  · refine .inr ⟨?_, h.reset fun _ _ _ _ _ _ hlt' => (hlt hlt').elim⟩
    cases listeners with
    | none => simp only [State.deliverQueue, if_neg hlt]; rfl
    | one l => rfl
    | many array =>
      simp only [State.deliverQueue, Nat.sub_eq_zero_of_le (not_lt.mp hlt), nextListener]
      rfl

theorem finish_follows (h : Core s a [])
    (hstack : s.stack = .deliver q listeners (.finish k) :: stack) :
    ∃ a', Follows s a (State.goOn (.finish k)
      (({ s with stack } : State E V).deliverQueue q listeners (.finish k))) a' ∧
      Core (State.goOn (.finish k)
        (({ s with stack } : State E V).deliverQueue q listeners (.finish k))) a' [] := by
  rcases deliverQueue_follows h hstack with ⟨s', heq, a', hfollows, h'⟩ | ⟨heq, h'⟩
  · rw [heq]
    exact ⟨a', hfollows, h'⟩
  · rw [heq]
    have hself : (s.setQueue q (s.queues q).reset).queues q = (s.queues q).reset :=
      update_self _ _ _
    obtain ⟨⟨d, hd, hnil⟩, hpop⟩ := h'.pop_finish hstack rfl fun q' hlt => by
      refine decide_eq_false ?_
      rintro rfl
      rw [hself] at hlt
      exact lt_irrefl _ hlt
    refine ⟨a.setDelivery k none, .of_step rfl ?_, hpop.observe⟩
    simp only [Protocol.step, show a.deliveries k = some d from hd, bind_eq_bind,
      bind_some, if_pos hnil]

theorem fireListeners_follows (h : Core s a [(e, k, v)])
    (hidle : ∀ q, (s.emitters e).deliveryQueue = some q → (s.queues q).fin ≤ (s.queues q).i) :
    ∃ a', Follows s a (s.fireListeners e k v) a' ∧ Core (s.fireListeners e k v) a' [] := by
  obtain ⟨pending, hdelivery, hlive, -⟩ :=
    h.waiting e k v (mem_append_left _ mem_cons_self)
  have hagrees := h.agrees e
  have hholds := hagrees.holds
  cases hlisteners : (s.emitters e).listeners with
  | none =>
    rw [hlisteners] at hholds
    simp only [State.fireListeners, hlisteners]
    have hdue : a.due ⟨e, v, pending⟩ = [] := hlive.trans hholds
    have hsame : a.setDelivery k (some ⟨e, v, pending⟩) = a := by
      rw [Protocol.setDelivery, ← hdelivery, update_eq_self]
    have hpush := h.push_single (fun d hd =>
      Option.some.inj (hdelivery.symm.trans hd) ▸ List.Subset.refl pending) hdue
    rw [hsame] at hpush
    obtain ⟨⟨d, hd, hnil⟩, hpop⟩ := hpush.pop_finish rfl rfl fun _ _ => rfl
    refine ⟨a.setDelivery k none, .of_step rfl ?_, hpop.observe⟩
    simp only [Protocol.step, show a.deliveries k = some d from hd, bind_eq_bind,
      bind_some, if_pos hnil]
  | one l =>
    rw [hlisteners] at hholds
    simp only [State.fireListeners, hlisteners]
    have hone : a.live e = [l] := hholds
    have hdue : a.due ⟨e, v, pending⟩ = [l] := hlive.trans hone
    refine ⟨a.setDelivery k (some ⟨e, v, []⟩), .of_step rfl ?_,
      (h.push_single (fun _ _ => nil_subset _) rfl).observe⟩
    have hfirst : ∀ k' < k, ∀ d' ∈ a.deliveries k', d'.emitter = e → l ∉ a.due d' := by
      intro k' hk' d' hd' hemitter hl
      rcases h.due k' d' hd' (ne_nil_of_mem hl) with ⟨e', v', hmem⟩ | ⟨q', v', hlt, hv⟩
      · obtain ⟨pending', hdelivery', -, hlast⟩ := h.waiting e' k' v' hmem
        obtain rfl := Option.some.inj (hdelivery'.symm.trans hd')
        have hk := hlast k _ hdelivery hemitter.symm (by rw [hdue]; exact cons_ne_nil _ _)
        omega
      · obtain ⟨e', k'', v'', pending', array', hwork⟩ := h.working q' hlt
        obtain ⟨rfl, rfl⟩ := Prod.ext_iff.mp (Option.some.inj (hwork.value.symm.trans hv))
        have hemitter' : e' = e :=
          (congrArg Delivery.emitter (hwork.deliveries_eq hd')).symm.trans hemitter
        have hmany := hwork.listeners
        rw [hemitter', hlisteners] at hmany
        cases hmany
    simp only [Protocol.step, hdelivery, bind_eq_bind, bind_some]
    rw [if_pos ⟨trivial, by rw [hdue]; rfl, hfirst⟩, hdue]
    rfl
  | many array =>
    obtain ⟨q, hq⟩ := ne_none_iff_exists'.mp (hagrees.queue array hlisteners).2
    have hpush := h.push_deliver hlisteners hq (hidle q hq)
    have heq : s.fireListeners e k v = State.goOn (.finish k)
        ((s.setQueue q (.enqueue e (k, v) (s.arrays array).length)).deliverQueue q (.many array)
          (.finish k)) := by
      simp only [State.fireListeners, hlisteners, hq]
      rw [show ((s.setQueue q (.enqueue e (k, v) (s.arrays array).length)).emitters e).listeners =
        .many array from hlisteners]
      rfl
    rw [heq]
    exact finish_follows hpush rfl

section

variable (h : Core s a [])
include h

theorem goOn_follows (hstack : s.stack = .deliver q listeners after :: stack) :
    ∃ a', Follows s a (State.goOn after
      (({ s with stack } : State E V).deliverQueue q listeners after)) a' ∧
      Core (State.goOn after
        (({ s with stack } : State E V).deliverQueue q listeners after)) a' [] := by
  cases after with
  | finish k => exact finish_follows h hstack
  | fire e k v =>
    have hself : (s.setQueue q (s.queues q).reset).queues q = (s.queues q).reset :=
      update_self _ _ _
    rcases deliverQueue_follows h hstack with ⟨s', heq, a', hfollows, h'⟩ | ⟨heq, h'⟩
    · rw [heq]
      exact ⟨a', hfollows, h'⟩
    · rw [heq]
      have hroute := h.route q listeners e k v (hstack ▸ mem_cons_self)
      have hpop := h'.pop_wait hstack (by rw [hself]; exact le_refl _)
      obtain ⟨a', hfollows, hcore⟩ := fireListeners_follows hpop fun q' hq' => by
        obtain rfl := Option.some.inj (hroute.symm.trans hq')
        dsimp only
        rw [hself]
        exact le_refl _
      exact ⟨a', hfollows, hcore⟩

theorem fire_follows (hcareful : s.Careful (.fire e v)) :
    ∃ a', Follows s a (s.fire e v) a' ∧ Core (s.fire e v) a' [] := by
  have hfired := h.fired hcareful
  have hstep : Follows s a { s.observe (.fired e s.fired v) with fired := s.fired + 1 }
      (a.setDelivery s.fired (some ⟨e, v, a.live e⟩)) := .of_step rfl rfl
  have hidle (q : QueueName E) (hcurrent : (s.queues q).current = none) :
      (s.queues q).fin ≤ (s.queues q).i := by
    refine not_lt.mp fun hlt => ?_
    obtain ⟨e', k, v', pending, array, hworking⟩ := h.working q hlt
    exact (nomatch hcurrent.symm.trans hworking.current)
  cases hqueue : (s.emitters e).deliveryQueue with
  | none =>
    obtain ⟨a', hfollows, hcore⟩ := fireListeners_follows hfired fun q hq =>
      (nomatch hqueue.symm.trans hq)
    simp only [State.fire, State.observe, hqueue]
    exact ⟨a', hstep.trans hfollows, hcore⟩
  | some q =>
    cases hcurrent : (s.queues q).current with
    | none =>
      obtain ⟨a', hfollows, hcore⟩ := fireListeners_follows hfired fun q' hq' => by
        obtain rfl := Option.some.inj (hqueue.symm.trans hq')
        exact hidle q hcurrent
      simp only [State.fire, State.observe, hqueue, hcurrent]
      exact ⟨a', hstep.trans hfollows, hcore⟩
    | some current =>
      obtain ⟨a', hfollows, hcore⟩ := goOn_follows (hfired.push_wait hqueue hcurrent) rfl
      simp only [State.fire, State.observe, hqueue, hcurrent]
      exact ⟨a', hstep.trans hfollows, hcore⟩

theorem ret_follows : ∃ a', Follows s a s.ret a' ∧ Core s.ret a' [] := by
  cases hstack : s.stack with
  | nil =>
    rw [State.ret, hstack]
    exact ⟨a, .of_log rfl, h⟩
  | cons frame stack =>
    cases frame with
    | single k =>
      obtain ⟨⟨d, hd, hnil⟩, hpop⟩ := h.pop_finish hstack rfl fun _ _ => rfl
      rw [State.ret, hstack]
      refine ⟨a.setDelivery k none, .of_step rfl ?_, hpop.observe⟩
      simp only [Protocol.step, show a.deliveries k = some d from hd, bind_eq_bind,
        bind_some, if_pos hnil]
    | deliver q listeners after =>
      rw [State.ret, hstack]
      exact goOn_follows h hstack

theorem step_follows {action : Action E V} (hcareful : s.Careful action) :
    ∃ a', Follows s a (s.step action) a' ∧ Core (s.step action) a' [] := by
  cases action with
  | subscribe e => exact subscribe_follows h hcareful
  | unsubscribe l => exact unsubscribe_follows h hcareful
  | dispose e => exact dispose_follows h
  | fire e v => exact fire_follows h hcareful
  | ret => exact ret_follows h

theorem run_follows {actions : List (Action E V)} (hcareful : s.CarefulRun actions) :
    ∃ a', Follows s a (s.run actions) a' ∧ Core (s.run actions) a' [] := by
  induction actions generalizing s a with
  | nil => exact ⟨a, .of_log rfl, h⟩
  | cons action actions ih =>
    obtain ⟨a₁, hstep, h₁⟩ := step_follows h hcareful.1
    obtain ⟨a', hrun, h'⟩ := ih h₁ hcareful.2
    exact ⟨a', hstep.trans hrun, h'⟩

end

/-- In a run with care nothing throws, and every event is for those who are subscribed and not yet
disposed, in their order and in its own. The calls of `fire` that have not finished are those that
have not returned. -/
theorem run_exact (options : E → Option ℕ) (actions : List (Action E V))
    (h : (State.init options).CarefulRun actions) :
    ∃ a, Protocol.init.run ((State.init options).run actions).log = some a ∧
      ∀ k, (a.deliveries k).isSome ↔
        ∃ frame ∈ ((State.init options).run actions).stack, frame.fire = k := by
  obtain ⟨a, ⟨os, hlog, hrun⟩, hcore⟩ := run_follows (core_init options) h
  rw [State.init, List.nil_append] at hlog
  exact ⟨a, hlog ▸ hrun, fun k => (hcore.known k).trans List.mem_map⟩

theorem run_exact_nested : ∃ a, Protocol.init.run ((State.init fun _ => none).run
    ([.subscribe 0, .subscribe 0, .fire 0 7, .fire 0 8, .unsubscribe 0, .ret, .ret, .ret] :
      List (Action ℕ ℕ))).log = some a ∧ ∀ k, (a.deliveries k).isSome ↔
    ∃ frame ∈ ((State.init fun _ => none).run ([.subscribe 0, .subscribe 0, .fire 0 7, .fire 0 8,
      .unsubscribe 0, .ret, .ret, .ret] : List (Action ℕ ℕ))).stack, frame.fire = k :=
  run_exact (fun _ => none) _ (by decide)

/-- A listener disposes itself and then the last one, which is called nevertheless. -/
def lastDisposed : State ℕ ℕ :=
  (State.init fun _ => none).run [.subscribe 0, .subscribe 0, .fire 0 7, .unsubscribe 0,
    .unsubscribe 1, .ret, .ret]

/-- While the second event waits, a listener fires a third one. -/
def overtaken : State ℕ ℕ :=
  (State.init fun _ => none).run [.subscribe 0, .subscribe 0, .fire 0 7, .fire 0 8, .fire 0 9]

theorem not_exact :
    lastDisposed.log = [.subscribed 0 0, .subscribed 0 1, .fired 0 0 7, .called 0 (some (0, 7)),
      .unsubscribed 0 0, .unsubscribed 0 1, .called 1 (some (0, 7)), .finished 0] ∧
    (Protocol.init.run lastDisposed.log).isSome = false ∧
    overtaken.log = [.subscribed 0 0, .subscribed 0 1, .fired 0 0 7, .called 0 (some (0, 7)),
      .fired 0 1 8, .called 1 (some (0, 7)), .fired 0 2 9, .called 0 (some (2, 9))] ∧
    (Protocol.init.run overtaken.log).isSome = false :=
  ⟨rfl, by decide, rfl, by decide⟩

end Delivery

end CodeOss.Event
