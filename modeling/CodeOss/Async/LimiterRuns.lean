import CodeOss.Async.Limiter

/-! The bookkeeping of a limiter: what holds whenever code other than its own may run, as long as
no factory throws. -/

namespace CodeOss.Async

open State Happening List Option

variable {ω : Type} {m : ℕ} {state state' : State ω} {history : List (Happening ω)}

inductive Move (m : ℕ) (state : State ω) : Event ω → State ω → Prop
  | queue (task : ℕ) (hyields : yields state.stack) (hfresh : task ∉ queuedTasks state.history) :
      Move m state (.queue task) (state.queue task)
  | clear (hyields : yields state.stack) : Move m state .clear state.clear
  | start {executor : Option ℕ} {stack : List Frame} {task : LimitedTask}
      {rest : List LimitedTask} (hstack : state.stack = .consume executor :: stack)
      (hrest : state.limiter.outstandingPromises = task :: rest)
      (hroom : state.limiter.runningPromises < m) :
      Move m state .loop ⟨⟨state.limiter.size, state.limiter.runningPromises + 1, rest⟩,
        .factory task :: .consume executor :: stack, state.running,
        .started task.factory :: state.history⟩
  | stop {executor : Option ℕ} {stack : List Frame}
      (hstack : state.stack = .consume executor :: stack)
      (hfull : state.limiter.outstandingPromises ≠ [] → m ≤ state.limiter.runningPromises) :
      Move m state .loop { state with stack }
  | returns {stack : List Frame} {task : LimitedTask}
      (hstack : state.stack = .factory task :: stack) :
      Move m state .returns { state with stack, running := task :: state.running }
  | throws {executor : Option ℕ} {stack : List Frame} {task : LimitedTask} (outcome : ω)
      (hstack : state.stack = .factory task :: .consume executor :: stack) :
      Move m state (.throws outcome) { state with
        stack, history := .threw task.factory executor outcome :: state.history }
  | heard {stack : List Frame} (hstack : state.stack = .drained :: stack) :
      Move m state .heard { state with stack }.consumeRest
  | settle {task : LimitedTask} (outcome : ω) (hstack : state.stack = [])
      (htask : task ∈ state.running) :
      Move m state (.settle task outcome)
        (({ state with running := state.running.erase task } : State ω).happen
          (.settled task.factory task.promise outcome)).consumed

variable {event : Event ω} {task : LimitedTask}

theorem step_move (h : step m state event = some state') : Move m state event state' := by
  cases event with
  | queue task =>
    rw [step] at h
    split_ifs at h with hqueue
    exact some_inj.1 h ▸ .queue task hqueue.1 hqueue.2
  | clear =>
    rw [step] at h
    split_ifs at h with hclear
    exact some_inj.1 h ▸ .clear hclear
  | loop =>
    rw [step] at h
    split at h
    · next executor stack task rest hstack hrest =>
      split_ifs at h with hroom
      · exact some_inj.1 h ▸ .start hstack hrest hroom
      · exact some_inj.1 h ▸ .stop hstack fun _ => not_lt.1 hroom
    · next executor stack hstack hrest =>
      exact some_inj.1 h ▸ .stop hstack fun hne => absurd hrest hne
    · exact absurd h (by simp)
  | returns =>
    rw [step] at h
    split at h
    · next task stack hstack => exact some_inj.1 h ▸ .returns hstack
    · exact absurd h (by simp)
  | throws outcome =>
    rw [step] at h
    split at h
    · next task executor stack hstack => exact some_inj.1 h ▸ .throws outcome hstack
    · exact absurd h (by simp)
  | heard =>
    rw [step] at h
    split at h
    · next stack hstack => exact some_inj.1 h ▸ .heard hstack
    · exact absurd h (by simp)
  | settle task outcome =>
    rw [step] at h
    split_ifs at h with hsettle
    exact some_inj.1 h ▸ .settle outcome hsettle.1 hsettle.2

def calls (stack : List Frame) : List LimitedTask :=
  stack.filterMap fun
    | .factory task => some task
    | _ => none

/-- What holds in every state, also behind a factory that threw. -/
structure Counted (m : ℕ) (state : State ω) : Prop where
  degree : state.limiter.runningPromises ≤ m
  size : state.limiter.size =
    state.limiter.runningPromises + state.limiter.outstandingPromises.length
  outstanding : state.limiter.outstandingPromises.map (·.factory) = waiting state.history
  order : ((state.limiter.outstandingPromises.map (·.factory)).reverse ++
    startedTasks state.history).Sublist (queuedTasks state.history)
  once : (queuedTasks state.history).Nodup
  tasks : (startedTasks state.history).Perm
    (settledTasks state.history ++ (calls state.stack ++ state.running).map (·.factory))
  running : state.limiter.runningPromises =
    (calls state.stack ++ state.running).length + (thrownTasks state.history).length
  own : ∀ task ∈ state.limiter.outstandingPromises ++ (calls state.stack ++ state.running),
    task.promise = task.factory
  promises : ∀ task promise outcome, .settled task promise outcome ∈ state.history →
    promise = task

theorem counted_init : Counted m (init : State ω) :=
  ⟨Nat.zero_le m, rfl, rfl, .slnil, nodup_nil, .nil, rfl, by simp [init, calls],
    by simp [init]⟩

theorem Counted.consumeRest (h : Counted m state) : Counted m state.consumeRest := by
  rw [State.consumeRest]
  split_ifs
  · exact ⟨h.degree, h.size, h.outstanding, h.order, h.once, h.tasks, h.running, h.own, h.promises⟩
  · exact h

theorem Counted.queue (h : Counted m state) {task : ℕ} (hfresh : task ∉ queuedTasks state.history) :
    Counted m (state.queue task) := by
  obtain ⟨degree, size, outstanding, order, once, tasks, running, own, promises⟩ := h
  refine ⟨degree, ?_, ?_, ?_, nodup_cons.2 ⟨hfresh, once⟩, tasks, running, ?_, ?_⟩
  · simp only [State.queue, length_append, length_singleton]
    omega
  · simp [State.queue, waiting, outstanding]
  · have hcons := order.cons_cons task
    simpa [State.queue, startedTasks, queuedTasks] using hcons
  · intro x hx
    simp only [State.queue, List.mem_append, mem_singleton] at hx
    rcases hx with (hx | rfl) | hx
    · exact own x (mem_append_left _ hx)
    · rfl
    · exact own x (mem_append_right _ (List.mem_append.2 hx))
  · intro t p o hmem
    rcases mem_cons.1 hmem with heq | hmem
    · cases heq
    · exact promises t p o hmem

theorem Counted.clear (h : Counted m state) : Counted m state.clear := by
  obtain ⟨degree, size, outstanding, order, once, tasks, running, own, promises⟩ := h
  refine ⟨degree, rfl, rfl, ?_, once, tasks, running, ?_, ?_⟩
  · exact (sublist_append_right _ _).trans order
  · exact fun x hx => own x (mem_append_right _ hx)
  · intro t p o hmem
    rcases mem_cons.1 hmem with heq | hmem
    · cases heq
    · exact promises t p o hmem

variable {stack : List Frame}

theorem Counted.start {executor : Option ℕ} {task : LimitedTask} {rest : List LimitedTask}
    (h : Counted m state) (hstack : state.stack = .consume executor :: stack)
    (hrest : state.limiter.outstandingPromises = task :: rest)
    (hroom : state.limiter.runningPromises < m) :
    Counted m ⟨⟨state.limiter.size, state.limiter.runningPromises + 1, rest⟩, .factory
    task :: .consume executor :: stack, state.running, .started task.factory :: state.history⟩ := by
  have hcalls : calls state.stack = calls stack := by rw [hstack]; rfl
  obtain ⟨degree, size, outstanding, order, once, tasks, counted, own, promises⟩ := h
  rw [hcalls] at tasks counted own
  rw [hrest] at size outstanding order own
  refine ⟨hroom, ?_, ?_, ?_, once, ?_, ?_, fun x hx => own x ?_, ?_⟩
  · change state.limiter.size = state.limiter.runningPromises + 1 + rest.length
    rw [size, List.length_cons]
    omega
  · rw [waiting, ← outstanding, List.map_cons, List.erase_cons_head]
  · simpa [startedTasks, queuedTasks] using order
  · exact (tasks.cons task.factory).trans List.perm_middle.symm
  · change state.limiter.runningPromises + 1 =
      (task :: calls stack ++ state.running).length + (thrownTasks state.history).length
    rw [List.cons_append, List.length_cons]
    omega
  · change x ∈ rest ++ (task :: calls stack ++ state.running) at hx
    simp only [List.mem_append, List.mem_cons] at hx ⊢
    tauto
  · intro t p o hmem
    rcases List.mem_cons.1 hmem with heq | hmem
    · cases heq
    · exact promises t p o hmem

theorem Counted.returns (h : Counted m state) (hstack : state.stack = .factory task :: stack) :
    Counted m { state with stack, running := task :: state.running } := by
  have hcalls : calls state.stack = task :: calls stack := by rw [hstack]; rfl
  obtain ⟨degree, size, outstanding, order, once, tasks, counted, own, promises⟩ := h
  rw [hcalls] at tasks counted own
  refine ⟨degree, size, outstanding, order, once, ?_, ?_, fun x hx => own x ?_, promises⟩
  · exact tasks.trans (((perm_middle.symm).map _).append_left _)
  · simp only [length_append, length_cons] at counted ⊢
    omega
  · simp only [List.mem_append, mem_cons] at hx ⊢
    tauto

theorem Counted.throws {executor : Option ℕ} (outcome : ω) (h : Counted m
    state) (hstack : state.stack = .factory task :: .consume executor :: stack) : Counted m { state
    with stack, history := .threw task.factory executor outcome :: state.history } := by
  have hcalls : calls state.stack = task :: calls stack := by rw [hstack]; rfl
  obtain ⟨degree, size, outstanding, order, once, tasks, counted, own, promises⟩ := h
  rw [hcalls] at tasks counted own
  refine ⟨degree, size, outstanding, order, once, tasks.trans perm_middle, ?_,
    fun x hx => own x ?_, ?_⟩
  · change state.limiter.runningPromises = (calls stack ++ state.running).length +
      (task.factory :: thrownTasks state.history).length
    simp only [length_append, length_cons] at counted ⊢
    omega
  · simp only [List.mem_append, mem_cons] at hx ⊢
    tauto
  · intro t p o hmem
    rcases mem_cons.1 hmem with heq | hmem
    · cases heq
    · exact promises t p o hmem

/-- A state whose listeners are about to hear that it has run dry. -/
def fired (state : State ω) : State ω :=
  { state with stack := .drained :: state.stack, history := .drained :: state.history }

theorem Counted.fired (h : Counted m state) : Counted m (fired state) := by
  refine ⟨h.degree, h.size, h.outstanding, h.order, h.once, h.tasks, h.running, h.own, ?_⟩
  intro t p o hmem
  rcases mem_cons.1 hmem with heq | hmem
  · cases heq
  · exact h.promises t p o hmem

/-- A state in which a task has settled and is counted off. -/
def countedOff (state : State ω) (task : LimitedTask) (outcome : ω) : State ω :=
  ⟨⟨state.limiter.size - 1, state.limiter.runningPromises - 1, state.limiter.outstandingPromises⟩,
    state.stack, state.running.erase task,
    .settled task.factory task.promise outcome :: state.history⟩

theorem consumed_eq (task : LimitedTask) (outcome : ω) :
    (({ state with running := state.running.erase task } : State ω).happen
      (.settled task.factory task.promise outcome)).consumed =
        if state.limiter.size - 1 = 0 then fired (countedOff state task outcome)
        else (countedOff state task outcome).consumeRest := rfl

theorem Counted.countedOff (outcome : ω) (h : Counted m state) (hstack : state.stack = [])
    (htask : task ∈ state.running) : Counted m (countedOff state task outcome) := by
  have hcalls : calls state.stack = [] := by rw [hstack]; rfl
  have hperm := perm_cons_erase htask
  have hlength := hperm.length_eq
  obtain ⟨degree, size, outstanding, order, once, tasks, counted, own, promises⟩ := h
  rw [hcalls] at tasks counted own
  rw [nil_append] at tasks counted
  rw [length_cons] at hlength
  refine ⟨(Nat.sub_le _ _).trans degree, ?_, outstanding, order, once, ?_, ?_,
    fun x hx => own x ?_, ?_⟩
  · change state.limiter.size - 1 =
      state.limiter.runningPromises - 1 + state.limiter.outstandingPromises.length
    omega
  · change (startedTasks state.history).Perm (task.factory :: settledTasks state.history ++
      (calls state.stack ++ state.running.erase task).map (·.factory))
    rw [hcalls]
    exact (tasks.trans ((hperm.map _).append_left _)).trans perm_middle
  · change state.limiter.runningPromises - 1 =
      (calls state.stack ++ state.running.erase task).length + (thrownTasks state.history).length
    rw [hcalls, nil_append]
    omega
  · change x ∈ state.limiter.outstandingPromises ++
      (calls state.stack ++ state.running.erase task) at hx
    rw [hcalls] at hx
    rcases List.mem_append.1 hx with hx | hx
    · exact mem_append_left _ hx
    · exact mem_append_right _ (mem_of_mem_erase hx)
  · intro t p o hmem
    rcases mem_cons.1 hmem with heq | hmem
    · cases heq
      exact own task (mem_append_right _ htask)
    · exact promises t p o hmem

theorem Move.counted (h : Move m state event state') (hcounted : Counted m state) :
    Counted m state' := by
  cases h with
  | queue task hyields hfresh => exact hcounted.queue hfresh
  | clear hyields => exact hcounted.clear
  | start hstack hrest hroom => exact hcounted.start hstack hrest hroom
  | stop hstack hfull =>
    rename_i executor stack
    have hcalls : calls state.stack = calls stack := by rw [hstack]; rfl
    obtain ⟨degree, size, outstanding, order, once, tasks, counted, own, promises⟩ := hcounted
    rw [hcalls] at tasks counted own
    exact ⟨degree, size, outstanding, order, once, tasks, counted, own, promises⟩
  | returns hstack => exact hcounted.returns hstack
  | throws outcome hstack => exact hcounted.throws outcome hstack
  | heard hstack =>
    rename_i stack
    have hcalls : calls state.stack = calls stack := by rw [hstack]; rfl
    obtain ⟨degree, size, outstanding, order, once, tasks, counted, own, promises⟩ := hcounted
    rw [hcalls] at tasks counted own
    exact Counted.consumeRest
      ⟨degree, size, outstanding, order, once, tasks, counted, own, promises⟩
  | settle outcome hstack htask =>
    rw [consumed_eq]
    split_ifs
    · exact (hcounted.countedOff outcome hstack htask).fired
    · exact (hcounted.countedOff outcome hstack htask).consumeRest

theorem Counted.unsettled (h : Counted m state) :
    (unsettled state.history).Perm ((calls state.stack ++ state.running).map (·.factory)) := by
  have hnodup : (settledTasks state.history ++
      (calls state.stack ++ state.running).map (·.factory)).Nodup :=
    (h.tasks.nodup_iff).1 (h.once.sublist ((sublist_append_right _ _).trans h.order))
  have hfilter := h.tasks.filter fun task => decide (task ∉ settledTasks state.history)
  refine hfilter.trans (List.Perm.of_eq ?_)
  rw [filter_append, filter_eq_nil_iff.2, filter_eq_self.2, nil_append]
  · intro task htask
    simpa using fun hsettled => (disjoint_of_nodup_append hnodup) hsettled htask
  · simp

theorem Counted.runningPromises (h : Counted m state) : state.limiter.runningPromises =
    (Happening.unsettled state.history).length + (thrownTasks state.history).length := by
  rw [h.unsettled.length_eq, length_map, h.running]

theorem consumeRest_history : state.consumeRest.history = state.history := by
  rw [State.consumeRest]
  split_ifs <;> rfl

theorem Move.thrown (h : Move m state event state') : thrownTasks state'.history = [] ↔
    thrownTasks state.history = [] ∧ ∀ outcome, event ≠ .throws outcome := by
  cases h with
  | queue task hyields hfresh => simp [State.queue, thrownTasks]
  | clear hyields => simp [State.clear, thrownTasks]
  | start hstack hrest hroom => simp [thrownTasks]
  | stop hstack hfull => simp
  | returns hstack => simp
  | throws outcome hstack => simp [thrownTasks]
  | heard hstack => simp [consumeRest_history]
  | settle outcome hstack htask =>
    rw [consumed_eq]
    split_ifs
    · simp [fired, countedOff, thrownTasks]
    · simp [consumeRest_history, countedOff, thrownTasks]

/-- The limiter is full while tasks wait; in the loop of `consume` one of them may still start. -/
def Full (m : ℕ) (state : State ω) : Prop :=
  if yields state.stack then
    state.limiter.outstandingPromises ≠ [] → m ≤ state.limiter.runningPromises
  else 1 < state.limiter.outstandingPromises.length → m ≤ state.limiter.runningPromises + 1

theorem full_of (h : state.limiter.outstandingPromises ≠ [] → m ≤ state.limiter.runningPromises) :
    Full m state := by
  rw [Full]
  split_ifs
  · exact h
  · exact fun hlength => Nat.le_succ_of_le (h (ne_nil_of_length_pos (by omega)))

theorem Full.of_yields (h : Full m state) (hyields : yields state.stack) :
    state.limiter.outstandingPromises ≠ [] → m ≤ state.limiter.runningPromises := by
  rwa [Full, if_pos hyields] at h

theorem full_consumeRest
    (h : 1 < state.limiter.outstandingPromises.length → m ≤ state.limiter.runningPromises + 1) :
    Full m state.consumeRest := by
  rw [State.consumeRest]
  split_ifs with hwaits
  · rw [Full, if_neg (by simp [yields])]
    exact h
  · exact full_of fun hne => absurd (length_pos_of_ne_nil hne) hwaits

theorem Move.full (h : Move m state event state') (hcounted : Counted m state)
    (hfull : Full m state) : Full m state' := by
  cases h with
  | queue task hyields hfresh =>
    rw [Full, if_neg (by simp [State.queue, yields])]
    intro hlength
    refine Nat.le_succ_of_le (hfull.of_yields hyields (ne_nil_of_length_pos ?_))
    simpa [State.queue] using hlength
  | clear hyields => exact full_of fun hne => absurd rfl hne
  | start hstack hrest hroom =>
    refine full_of fun hne => ?_
    rw [Full, hstack, hrest, if_neg (by simp [yields])] at hfull
    exact hfull (by simpa using length_pos_of_ne_nil hne)
  | stop hstack hstop => exact full_of hstop
  | returns hstack => exact full_of (hfull.of_yields (by rw [hstack]; rfl))
  | throws outcome hstack => exact full_of (hfull.of_yields (by rw [hstack]; rfl))
  | heard hstack =>
    have hwaits := hfull.of_yields (by rw [hstack]; rfl)
    refine full_consumeRest fun hlength => Nat.le_succ_of_le (hwaits ?_)
    exact ne_nil_of_length_pos (Nat.zero_lt_one.trans hlength)
  | settle outcome hstack htask =>
    have hwaits := hfull.of_yields (by rw [hstack]; rfl)
    have hpos : 0 < state.running.length := length_pos_of_mem htask
    have hrunning := hcounted.running
    have hsize := hcounted.size
    rw [length_append] at hrunning
    rw [consumed_eq]
    split_ifs with hdry
    · refine full_of fun hne => absurd (length_pos_of_ne_nil hne) ?_
      change ¬ 0 < state.limiter.outstandingPromises.length
      omega
    · refine full_consumeRest fun hlength => ?_
      have hle := hwaits (ne_nil_of_length_pos (Nat.zero_lt_one.trans hlength))
      change m ≤ state.limiter.runningPromises - 1 + 1
      omega

/-- Listeners were called after each settlement that left nothing, and after no other thing. -/
structure Drained (history : List (Happening ω)) : Prop where
  dries : ∀ later earlier, history = later ++ .drained :: earlier → RunsDry earlier
  drains : ∀ later earlier, history = later ++ earlier → RunsDry earlier →
    ∃ before, later = before ++ [.drained]

theorem not_runsDry {happening : Happening ω}
    (h : ∀ task promise outcome, happening ≠ .settled task promise outcome) :
    ¬ RunsDry (happening :: history) := by
  rintro ⟨⟨task, promise, outcome, hhead⟩, -⟩
  exact h task promise outcome (some_inj.1 hhead)

theorem Drained.push {happening : Happening ω} (h : Drained history) (hne : happening ≠ .drained)
    (hdry : ¬ RunsDry (happening :: history)) : Drained (happening :: history) := by
  refine ⟨fun later earlier heq => ?_, fun later earlier heq hearlier => ?_⟩
  · cases later with
    | nil => exact absurd (List.cons.inj heq).1 hne
    | cons first later => exact h.dries later earlier (List.cons.inj heq).2
  · cases later with
    | nil => exact absurd (heq.symm ▸ hearlier) hdry
    | cons first later =>
      obtain ⟨before, rfl⟩ := h.drains later earlier (List.cons.inj heq).2 hearlier
      exact ⟨first :: before, rfl⟩

theorem Drained.pushDry {task promise : ℕ} {outcome : ω} (h : Drained history)
    (hdry : RunsDry (.settled task promise outcome :: history)) :
    Drained (.drained :: .settled task promise outcome :: history) := by
  refine ⟨fun later earlier heq => ?_, fun later earlier heq hearlier => ?_⟩
  · cases later with
    | nil => exact (List.cons.inj heq).2 ▸ hdry
    | cons first later =>
      cases later with
      | nil => exact absurd (List.cons.inj (List.cons.inj heq).2).1 (by simp)
      | cons second later =>
        exact h.dries later earlier (List.cons.inj (List.cons.inj heq).2).2
  · cases later with
    | nil =>
      obtain rfl : .drained :: .settled task promise outcome :: history = earlier := heq
      exact absurd hearlier (not_runsDry (by simp))
    | cons first later =>
      obtain ⟨hfirst, heq⟩ := List.cons.inj heq
      cases later with
      | nil => exact ⟨[], by rw [← hfirst]; rfl⟩
      | cons second later =>
        obtain ⟨before, rfl⟩ := h.drains later earlier (List.cons.inj heq).2 hearlier
        exact ⟨first :: second :: before, rfl⟩

theorem Counted.runsDry {outcome : ω} (h : Counted m (Async.countedOff state task outcome))
    (hthrown : thrownTasks (Async.countedOff state task outcome).history = []) : state.limiter.size
    - 1 = 0 ↔ RunsDry (.settled task.factory task.promise outcome :: state.history) := by
  have hsize := h.size
  have hlength := congrArg List.length h.outstanding
  rw [h.runningPromises, hthrown, length_nil, Nat.add_zero] at hsize
  rw [length_map] at hlength
  change state.limiter.size - 1 = _ at hsize
  rw [hsize, hlength, RunsDry, Nat.add_eq_zero_iff, length_eq_zero_iff, length_eq_zero_iff]
  exact ⟨fun hdry => ⟨⟨_, _, _, rfl⟩, hdry⟩, fun hdry => hdry.2⟩

theorem Move.drained (h : Move m state event state') (hcounted : Counted m state)
    (hthrown : thrownTasks state.history = []) (hdrained : Drained state.history)
    (hnever : ∀ outcome, event ≠ .throws outcome) : Drained state'.history := by
  cases h with
  | queue task hyields hfresh => exact hdrained.push (by simp) (not_runsDry (by simp))
  | clear hyields => exact hdrained.push (by simp) (not_runsDry (by simp))
  | start hstack hrest hroom => exact hdrained.push (by simp) (not_runsDry (by simp))
  | stop hstack hfull => exact hdrained
  | returns hstack => exact hdrained
  | throws outcome hstack => exact absurd rfl (hnever outcome)
  | heard hstack =>
    rw [consumeRest_history]
    exact hdrained
  | settle outcome hstack htask =>
    have hdry := (hcounted.countedOff outcome hstack htask).runsDry hthrown
    rw [consumed_eq]
    split_ifs with hsize
    · exact hdrained.pushDry (hdry.1 hsize)
    · rw [consumeRest_history]
      exact hdrained.push (by simp) fun hruns => hsize (hdry.2 hruns)

/-- What a run keeps, the last part only while no factory throws. -/
structure Sound (m : ℕ) (state : State ω) : Prop where
  counted : Counted m state
  full : Full m state
  drained : thrownTasks state.history = [] → Drained state.history

theorem sound_init : Sound m (init : State ω) := by
  refine ⟨counted_init, full_of fun hne => absurd rfl hne, fun _ => ⟨?_, ?_⟩⟩
  · exact fun later earlier heq => absurd heq (by simp [init])
  · intro later earlier heq hdry
    obtain ⟨-, rfl⟩ := append_eq_nil_iff.1 heq.symm
    obtain ⟨⟨task, promise, outcome, hhead⟩, -⟩ := hdry
    exact absurd hhead (by simp)

theorem Move.sound (h : Move m state event state') (hsound : Sound m state) : Sound m state' := by
  refine ⟨h.counted hsound.counted, h.full hsound.counted hsound.full, fun hthrown => ?_⟩
  obtain ⟨hbefore, hnever⟩ := h.thrown.1 hthrown
  exact h.drained hsound.counted hbefore (hsound.drained hbefore) hnever

theorem run_sound (events : List (Event ω))
    (hsound : Sound m state) (h : events.foldlM (step m) state = some state') : Sound m state' ∧
    (thrownTasks state'.history = [] ↔ thrownTasks state.history = [] ∧ NeverThrows events) := by
  induction events generalizing state with
  | nil =>
    obtain rfl : state = state' := some_inj.1 h
    exact ⟨hsound, by simp [NeverThrows]⟩
  | cons event events ih =>
    obtain ⟨next, hstep, hrest⟩ := bind_eq_some_iff.1 ((foldlM_cons ..).symm.trans h)
    have hmove := step_move hstep
    obtain ⟨hsound', hthrown⟩ := ih (hmove.sound hsound) hrest
    refine ⟨hsound', ?_⟩
    rw [hthrown, hmove.thrown, and_assoc]
    simp only [NeverThrows, mem_cons, not_or, forall_and, ne_eq, eq_comm]

theorem Sound.exact (h : Sound m state) (hyields : yields state.stack)
    (hthrown : thrownTasks state.history = []) : Exact m state := by
  have hrunning := h.counted.runningPromises
  rw [hthrown, length_nil, Nat.add_zero] at hrunning
  have hlength := congrArg List.length h.counted.outstanding
  rw [length_map] at hlength
  obtain ⟨dries, drains⟩ := h.drained hthrown
  refine ⟨hrunning ▸ h.counted.degree, hrunning, ?_, h.counted.outstanding, fun hne => ?_, ?_,
    h.counted.once, dries, drains, h.counted.promises⟩
  · rw [h.counted.size, hrunning, hlength]
  · have hwaits : state.limiter.outstandingPromises ≠ [] := fun hnil =>
      hne (h.counted.outstanding ▸ hnil ▸ rfl)
    exact hrunning ▸ h.counted.degree.antisymm (h.full.of_yields hyields hwaits)
  · exact (sublist_append_right _ _).trans h.counted.order

theorem Sound.not_thrown (h : Sound m state) (hexact : Exact m state) :
    thrownTasks state.history = [] := by
  have hrunning := h.counted.runningPromises
  rw [hexact.runningPromises] at hrunning
  exact length_eq_zero_iff.1 (by omega)

/-- Whenever code other than its own may run, a limiter's books are exact if and only if no
factory has thrown. -/
theorem limiter_exact (m : ℕ) (events : List (Event ω)) (state : State ω)
    (h : run m events = some state) (hyields : yields state.stack) :
    Exact m state ↔ NeverThrows events := by
  obtain ⟨hsound, hthrown⟩ := run_sound events sound_init h
  have hnever : thrownTasks state.history = [] ↔ NeverThrows events := by
    rw [hthrown]
    exact ⟨fun h => h.2, fun h => ⟨rfl, h⟩⟩
  exact ⟨fun hexact => hnever.1 (hsound.not_thrown hexact),
    fun h => hsound.exact hyields (hnever.2 h)⟩

/-- Three tasks of which two may run; the second is queued by the factory of the first one. -/
def threeTasks : List (Event Bool) :=
  [.queue 0, .loop, .queue 1, .loop, .returns, .loop, .returns, .loop, .queue 2, .loop,
    .settle ⟨1, 1⟩ true, .loop, .returns, .loop]

theorem limiter_exact_threeTasks : ∃ state, run 2 threeTasks = some state ∧ Exact 2 state := by
  refine ⟨_, rfl, (limiter_exact 2 threeTasks _ rfl rfl).2 ?_⟩
  simp [NeverThrows, threeTasks]

/-- A factory that throws keeps its place. -/
theorem limiter_keeps_place :
    ¬ ∀ (m : ℕ) (events : List (Event Bool)) (state : State Bool), 1 ≤ m →
      run m events = some state → yields state.stack → Exact m state := by
  intro h
  have hexact := h 1 [.queue 0, .loop, .throws false] ⟨⟨1, 1, []⟩, [], [],
    [.threw 0 (some 0) false, .started 0, .queued 0]⟩ le_rfl rfl rfl
  exact absurd hexact.runningPromises (by decide)

end CodeOss.Async
