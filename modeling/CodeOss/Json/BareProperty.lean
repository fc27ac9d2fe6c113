import CodeOss.Json.NodePlaces

/-! What an object closed behind a bare property name does to the tree: its frame
stays open, and so the node returned lies inside the value of the text. -/

namespace CodeOss.Json

open CharacterCodes List Option

variable {ν : Type}

namespace ParseTree

def containers (frames : List (Frame ν)) : Nat :=
  (frames.filter fun frame => frame.type ≠ .property).length

/-- A property is never open directly inside a property, nor at the bottom. -/
def Stacked : List (Frame ν) → Prop
  | [] => False
  | [root] => root.type ≠ .property
  | frame :: owner :: rest =>
    (frame.type = .property → owner.type ≠ .property) ∧ Stacked (owner :: rest)

/-- Everything but the root and the first node opened in it lies behind `start`. -/
def Beyond (start : Int) : List (Frame ν) → Prop
  | [] => True
  | [_] => True
  | [first, _] => ∀ node ∈ first.children, start < node.offset
  | frame :: owner :: next :: rest =>
    start < frame.offset ∧ (∀ node ∈ frame.children, start < node.offset) ∧
      Beyond start (owner :: next :: rest)

variable {start : Int} {frame : Frame ν} {rest : List (Frame ν)} {s s' : State ν} {len : Nat}
  {t t' : Track} {event : Event ν}

theorem Beyond.children {owner : Frame ν} (h : Beyond start (frame :: owner :: rest)) :
    ∀ node ∈ frame.children, start < node.offset := by
  cases rest with
  | nil => exact h
  | cons next rest => exact h.2.1

theorem Beyond.tail (h : Beyond start (frame :: rest)) : Beyond start rest := by
  match rest, h with
  | [], _ => trivial
  | [_], _ => trivial
  | _ :: _ :: _, h => exact h.2.2

theorem Beyond.onValue {node : Node ν} (h : Beyond start (frame :: rest))
    (hnode : rest ≠ [] → start < node.offset) : Beyond start (frame.onValue node :: rest) := by
  match rest, h, hnode with
  | [], _, _ => trivial
  | [_], h, hnode =>
    exact forall_mem_append.2 ⟨h, forall_mem_singleton.2 (hnode (by simp))⟩
  | _ :: _ :: _, h, hnode =>
    exact ⟨h.1, forall_mem_append.2 ⟨h.2.1, forall_mem_singleton.2 (hnode (by simp))⟩,
      h.2.2⟩

theorem Beyond.begin {owner : Frame ν} (h : Beyond start (owner :: rest))
    (hframe : rest ≠ [] → start < frame.offset)
    (hchildren : ∀ node ∈ frame.children, start < node.offset) :
    Beyond start (frame :: owner :: rest) := by
  match rest, h, hframe with
  | [], _, _ => exact hchildren
  | _ :: _, h, hframe => exact ⟨hframe (by simp), hchildren, h⟩

theorem Beyond.finish {endOffset : Int} (h : Beyond start s.frames)
    (hs : s.finish endOffset = some s') : Beyond start s'.frames := by
  obtain ⟨current, parents⟩ := s
  cases parents with
  | nil => cases hs
  | cons owner rest =>
    cases hs
    refine h.tail.onValue fun hrest => ?_
    obtain ⟨next, rest, rfl⟩ := exists_cons_of_ne_nil hrest
    exact h.1

theorem Beyond.complete {endOffset : Int} (h : Beyond start s.frames)
    (hs : s.ensurePropertyComplete endOffset = some s') : Beyond start s'.frames := by
  rw [State.ensurePropertyComplete] at hs
  split at hs
  · exact h.finish hs
  · cases hs
    exact h

theorem Beyond.step {start : Nat} (h : Beyond start s.frames) (hbound : start < t.bound)
    (hstep : Allowed len t event t') (hs : s.visit event = some s') :
    Beyond start s'.frames ∧ start < t'.bound := by
  have hend {endOffset : Int} (hs : (do
        let s ← s.finish endOffset
        s.ensurePropertyComplete endOffset) = some s') : Beyond start s'.frames := by
    rw [bind_eq_bind, bind_eq_some_iff] at hs
    obtain ⟨s₁, hfinish, hcomplete⟩ := hs
    exact (h.finish hfinish).complete hcomplete
  have hseparator {sep : CodeUnit} {offset length : Nat}
      (hs : s.visit (.onSeparator sep offset length) = some s') : Beyond start s'.frames := by
    rw [State.visit] at hs
    split_ifs at hs
    · cases hs
      obtain ⟨current, parents⟩ := s
      rcases parents with _ | ⟨_, _ | ⟨_, _⟩⟩
      · exact h
      · exact h
      · exact h
    · exact h.complete hs
    · cases hs
      exact h
    · cases hs
      exact h
  cases hstep with
  | comment =>
    cases hs
    exact ⟨h, hbound⟩
  | error =>
    cases hs
    exact ⟨h, hbound⟩
  | @literal _ _ b offset length value _ hb hlen =>
    have hlt : start < offset := hbound.trans_le hb
    have hvalue : Beyond start (s.onValue (.literal value offset length)).frames :=
      h.onValue fun _ => Nat.cast_lt.2 hlt
    exact ⟨hvalue.complete hs, hlt.trans_le (Nat.le_add_right _ _)⟩
  | @objectBegin _ _ b offset length _ hb =>
    cases hs
    have hlt : start < offset := hbound.trans_le hb
    exact ⟨h.begin (fun _ => Nat.cast_lt.2 hlt) (fun _ hnode => by cases hnode),
      hlt.trans_le (Nat.le_add_right _ _)⟩
  | @arrayBegin _ _ b offset length _ hb =>
    cases hs
    have hlt : start < offset := hbound.trans_le hb
    exact ⟨h.begin (fun _ => Nat.cast_lt.2 hlt) (fun _ hnode => by cases hnode),
      hlt.trans_le (Nat.le_add_right _ _)⟩
  | @name _ b offset length name hb =>
    cases hs
    have hlt : start < offset := hbound.trans_le hb
    refine ⟨h.begin (fun _ => Nat.cast_lt.2 hlt) ?_, hlt.trans_le (Nat.le_add_right _ _)⟩
    exact forall_mem_singleton.2 (Nat.cast_lt.2 hlt)
  | objectEnd hb => exact ⟨hend hs, hbound.trans_le hb⟩
  | bareEnd hb => exact ⟨hend hs, hbound.trans_le hb⟩
  | arrayEnd hb => exact ⟨hend hs, hbound.trans_le hb⟩
  | comma _ hb => exact ⟨hseparator hs, hbound.trans_le (hb.trans (Nat.le_add_right _ _))⟩
  | propertyComma hb => exact ⟨hseparator hs, hbound.trans_le (hb.trans (Nat.le_add_right _ _))⟩
  | colon hb => exact ⟨hseparator hs, hbound.trans_le (hb.trans (Nat.le_add_right _ _))⟩

/-- Which open node is a property is where the visitor is behind a name; there is
one open array or object for every place, and one more for each bare end. -/
structure Deeper (t : Track) (s : State ν) (bare : Nat) : Prop where
  stacked : Stacked s.frames
  waiting : t.places.head? = some .property ↔ s.currentParent.type = .property
  count : containers s.frames = t.places.length + bare

theorem containers_cons (frame : Frame ν) (rest : List (Frame ν)) : containers (frame :: rest) = (if
    frame.type = .property then 0 else 1) + containers rest := by
  by_cases h : frame.type = .property
  · simp [containers, h]
  · simp [containers, h, Nat.add_comm]

theorem Stacked.cons_iff {owner : Frame ν} :
    Stacked (frame :: owner :: rest) ↔
      (frame.type = .property → owner.type ≠ .property) ∧ Stacked (owner :: rest) := Iff.rfl

theorem Stacked.congr {frame frame' : Frame ν} {rest : List (Frame ν)} (h : Stacked (frame :: rest))
    (htype : frame'.type = frame.type) : Stacked (frame' :: rest) := by
  cases rest with
  | nil =>
    rw [Stacked] at h ⊢
    rwa [htype]
  | cons owner rest =>
    rw [Stacked.cons_iff] at h ⊢
    rwa [htype]

theorem containers_congr (frame : Frame ν) {frame' : Frame ν} (rest : List (Frame ν))
    (htype : frame'.type = frame.type) : containers (frame' :: rest) = containers
    (frame :: rest) := by
  rw [containers_cons, containers_cons, htype]

theorem Stacked.owner (h : Stacked (frame :: rest)) (hproperty : frame.type = .property) :
    ∃ owner rest', rest = owner :: rest' ∧ owner.type ≠ .property ∧ Stacked (owner :: rest') := by
  cases rest with
  | nil => exact absurd hproperty h
  | cons owner rest => exact ⟨owner, rest, rfl, h.1 hproperty, h.2⟩

theorem Stacked.complete (h : Stacked s.frames) (endOffset : Int) :
    ∃ s', s.ensurePropertyComplete endOffset = some s' ∧ Stacked s'.frames ∧
      s'.currentParent.type ≠ .property ∧ containers s'.frames = containers s.frames := by
  obtain ⟨current, parents⟩ := s
  by_cases hproperty : current.type = .property
  · obtain ⟨owner, rest, rfl, howner, hrest⟩ := h.owner hproperty
    refine ⟨⟨owner.onValue (current.close endOffset), rest⟩, if_pos hproperty,
      hrest.congr rfl, howner, ?_⟩
    rw [State.frames, State.frames, containers_cons current, if_pos hproperty, Nat.zero_add]
    exact containers_congr owner rest rfl
  · exact ⟨_, if_neg hproperty, h, hproperty, rfl⟩

theorem Stacked.finish {current owner : Frame ν} (h : Stacked (current :: owner :: rest)) (endOffset
    : Int) : ∃ s', (⟨current, owner :: rest⟩ : State ν).finish endOffset = some s' ∧ Stacked
    s'.frames ∧ s'.currentParent.type = owner.type ∧ containers s'.frames + (if current.type =
    .property then 0 else 1) = containers (current :: owner :: rest) := by
  refine ⟨⟨owner.onValue (current.close endOffset), rest⟩, rfl, h.2.congr rfl, rfl, ?_⟩
  rw [containers_cons current, Nat.add_comm]
  exact congrArg _ (containers_congr owner rest rfl)

theorem filled_ne_property (p : Place) (places : List Place) :
    (p.filled :: places).head? ≠ some .property := by
  cases p <;> exact fun h => by cases h

theorem not_waiting {places : List Place} {type : NodeType} (hplace : places.head? ≠ some .property)
    (htype : type ≠ .property) : places.head? = some .property ↔ type = .property :=
  ⟨fun h => absurd h hplace, fun h => absurd h htype⟩

def Event.bare (t : Track) (event : Event ν) : Nat :=
  match event with
  | .onObjectEnd _ _ => if t.places.head? = some .property then 1 else 0
  | _ => 0

theorem Deeper.finish {inside p : Place} {places : List Place} {b b' bare : Nat}
    (h : Deeper ⟨inside :: p :: places, b⟩ s bare) (hinside : inside ≠ .property)
    (endOffset : Int) :
    ∃ s', (do
        let s ← s.finish endOffset
        s.ensurePropertyComplete endOffset) = some s' ∧ Deeper ⟨p.filled :: places, b'⟩ s'
    bare := by
  obtain ⟨current, parents⟩ := s
  obtain ⟨hstacked, hwaiting, hcount⟩ := h
  have htype : current.type ≠ .property := fun htype =>
    hinside (Option.some.inj (hwaiting.2 htype))
  cases parents with
  | nil =>
    rw [containers_cons, if_neg htype, containers] at hcount
    simp only [filter_nil, length_nil, length_cons] at hcount
    omega
  | cons owner rest =>
    change Stacked (current :: owner :: rest) at hstacked
    obtain ⟨s₁, hfinish, hstacked₁, -, hcount₁⟩ := hstacked.finish endOffset
    obtain ⟨s', hcomplete, hstacked', htype', hcount'⟩ := hstacked₁.complete endOffset
    rw [if_neg htype] at hcount₁
    refine ⟨s', ?_, hstacked', not_waiting (filled_ne_property p places) htype', ?_⟩
    · rw [bind_eq_bind, hfinish, bind_some]
      exact hcomplete
    · change containers (current :: owner :: rest) = (inside :: p :: places).length + bare at hcount
      simp only [length_cons] at hcount ⊢
      omega

theorem Deeper.step {bare : Nat} (h : Deeper t s bare) (hstep : Allowed len t event t') :
    ∃ s', s.visit event = some s' ∧ Deeper t' s' (bare + Event.bare t event) := by
  obtain ⟨current, parents⟩ := s
  cases hstep with
  | comment => exact ⟨_, rfl, h⟩
  | error => exact ⟨_, rfl, h⟩
  | @literal p places b offset length value hp =>
    obtain ⟨hstacked, hwaiting, hcount⟩ := h
    obtain ⟨s', hcomplete, hstacked', htype', hcount'⟩ := Stacked.complete
      (s := (⟨current, parents⟩ : State ν).onValue (.literal value offset length))
      (hstacked.congr rfl) ((offset : Int) + length)
    refine ⟨s', hcomplete, hstacked', not_waiting (filled_ne_property p places) htype', ?_⟩
    show containers s'.frames = (p :: places).length + bare
    rw [hcount']
    refine (containers_congr current parents ?_).trans hcount
    rfl
  | objectBegin hp =>
    obtain ⟨hstacked, hwaiting, hcount⟩ := h
    refine ⟨_, rfl, ⟨NodeType.noConfusion, hstacked⟩,
      not_waiting (by simp) NodeType.noConfusion, ?_⟩
    simp only [State.begin, containers_cons current, containers_cons] at hcount ⊢
    simp only [length_cons, reduceCtorEq, if_false, Event.bare] at hcount ⊢
    omega
  | arrayBegin hp =>
    obtain ⟨hstacked, hwaiting, hcount⟩ := h
    refine ⟨_, rfl, ⟨NodeType.noConfusion, hstacked⟩,
      not_waiting (by simp) NodeType.noConfusion, ?_⟩
    simp only [State.begin, containers_cons current, containers_cons] at hcount ⊢
    simp only [length_cons, reduceCtorEq, if_false, Event.bare] at hcount ⊢
    omega
  | name hb =>
    obtain ⟨hstacked, hwaiting, hcount⟩ := h
    have htype : current.type ≠ .property := fun htype =>
      absurd (hwaiting.2 htype) (by simp)
    refine ⟨_, rfl, ⟨fun _ => htype, hstacked⟩, Iff.intro (fun _ => rfl) (fun _ => rfl), ?_⟩
    rw [State.frames, State.begin, containers_cons, if_pos rfl, Nat.zero_add]
    exact hcount
  | objectEnd => exact h.finish Place.noConfusion _
  | arrayEnd => exact h.finish Place.noConfusion _
  | @bareEnd p places b offset length =>
    obtain ⟨hstacked, hwaiting, hcount⟩ := h
    have htype : current.type = .property := hwaiting.1 rfl
    obtain ⟨owner, rest, rfl, howner, hrest⟩ := hstacked.owner htype
    change Stacked (current :: owner :: rest) at hstacked
    obtain ⟨s₁, hfinish, hstacked₁, htype₁, hcount₁⟩ :=
      hstacked.finish ((offset : Int) + length)
    have howner₁ : s₁.currentParent.type ≠ .property := by rwa [htype₁]
    refine ⟨s₁, ?_, hstacked₁, not_waiting (filled_ne_property p places) howner₁, ?_⟩
    · rw [State.visit, bind_eq_bind, hfinish, bind_some]
      exact if_neg howner₁
    · change containers (current :: owner :: rest) = (_ :: p :: places).length + bare at hcount
      rw [if_pos htype] at hcount₁
      simp only [length_cons, Event.bare, head?_cons, if_true] at hcount ⊢
      omega
  | comma hp =>
    have htype : current.type ≠ .property := fun htype => by
      have := h.waiting.2 htype
      rcases hp with rfl | rfl <;> cases this
    exact ⟨_, if_neg htype, h.stacked, h.waiting, h.count⟩
  | @propertyComma places _ offset =>
    obtain ⟨hstacked, hwaiting, hcount⟩ := h
    have htype : current.type = .property := hwaiting.1 rfl
    obtain ⟨s', hcomplete, hstacked', htype', hcount'⟩ :=
      Stacked.complete (s := ⟨current, parents⟩) hstacked offset
    refine ⟨s', (if_pos htype).trans ((if_neg (by decide)).trans ((if_pos rfl).trans hcomplete)),
      hstacked', not_waiting (by simp) htype', ?_⟩
    show containers s'.frames = (_ :: places).length + bare
    exact hcount'.trans hcount
  | colon =>
    obtain ⟨hstacked, hwaiting, hcount⟩ := h
    have htype : current.type = .property := hwaiting.1 rfl
    refine ⟨_, (if_pos htype).trans (if_pos rfl), hstacked.congr rfl, hwaiting, ?_⟩
    show containers (_ :: parents) = (_ :: _).length + bare
    refine (containers_congr current parents ?_).trans hcount
    rfl

theorem Beyond.run {start : Nat} {events : List (Event ν)} (h : Beyond start s.frames)
    (hbound : start < t.bound) (hrun : events.foldlM (Track.step len) t = some t')
    (hs : events.foldlM State.visit s = some s') : Beyond start s'.frames := by
  induction events generalizing t s with
  | nil =>
    cases hs
    exact h
  | cons event events ih =>
    rw [foldlM_cons, bind_eq_bind, bind_eq_some_iff] at hrun hs
    obtain ⟨u, hstep, hrun⟩ := hrun
    obtain ⟨s₁, hvisit, hs⟩ := hs
    obtain ⟨h₁, hbound₁⟩ := h.step hbound (Track.step_allowed hstep) hvisit
    exact ih h₁ hbound₁ hrun hs

theorem Event.bare_of_waiting (h : endsAtProperty (t.places.head? = some .property) [event] =
    true) :
    Event.bare t event = 1 := by
  cases event with
  | onObjectEnd offset length =>
    have hwaiting : t.places.head? = some .property := by simpa [endsAtProperty] using h
    exact if_pos hwaiting
  | _ => simp [endsAtProperty] at h

theorem Deeper.run {events : List (Event ν)}
    {bare : Nat} (h : Deeper t s bare) (hplaces : ∀ p ∈ t.places.tail, p.takesValue = true)
    (hrun : events.foldlM (Track.step len) t = some t') :
    ∃ s' bare', events.foldlM State.visit s = some s' ∧ Deeper t' s' bare' ∧ bare ≤ bare' ∧
    (endsAtProperty (t.places.head? = some .property) events = true → bare < bare') := by
  induction events generalizing t s bare with
  | nil =>
    cases hrun
    exact ⟨s, bare, rfl, h, le_rfl, fun hends => by cases hends⟩
  | cons event events ih =>
    rw [foldlM_cons, bind_eq_bind, bind_eq_some_iff] at hrun
    obtain ⟨u, hstep, hrun⟩ := hrun
    have hallowed := Track.step_allowed hstep
    obtain ⟨s₁, hvisit, h₁⟩ := h.step hallowed
    obtain ⟨s', bare', hs', h', hle, hlt⟩ := ih h₁ (hallowed.nested hplaces) hrun
    refine ⟨s', bare', ?_, h', (Nat.le_add_right _ _).trans hle, fun hends => ?_⟩
    · rw [foldlM_cons, hvisit]
      exact hs'
    · rw [hallowed.waiting hplaces, Bool.or_eq_true] at hends
      rcases hends with hends | hends
      · rw [Event.bare_of_waiting hends] at hle
        omega
      · have := hlt hends
        omega

theorem inside_of_deeper {start bare : Nat} {place : Place} {b : Nat}
    (hbeyond : Beyond start s.frames) (hdeeper : Deeper ⟨[place], b⟩ s bare) (hbare : 0 < bare) :
    ∀ node ∈ s.currentParent.children.head?, start < node.offset := by
  obtain ⟨current, parents⟩ := s
  intro node hnode
  cases parents with
  | nil =>
    have hcount := hdeeper.count
    rw [State.frames, containers_cons, containers] at hcount
    simp only [filter_nil, length_nil, length_singleton] at hcount
    split at hcount <;> omega
  | cons owner rest => exact hbeyond.children node (mem_of_mem_head? hnode)

end ParseTree

def valueStart : List (Event ν) → Option Nat
  | [] => none
  | event :: events =>
    match event with
    | .onObjectBegin offset _ => some offset
    | .onArrayBegin offset _ => some offset
    | .onLiteralValue _ offset _ => some offset
    | _ => valueStart events

variable {len b : Nat} {events : List (Event ν)}

theorem not_endsAtProperty_after {t' : Track}
    (hrun : events.foldlM (Track.step len) ⟨[.after], b⟩ = some t') :
    endsAtProperty false events = false := by
  induction events with
  | nil => rfl
  | cons event events ih =>
    rw [foldlM_cons, bind_eq_bind, bind_eq_some_iff] at hrun
    obtain ⟨u, hstep, hrun⟩ := hrun
    cases Track.step_allowed hstep with
    | comment => exact ih hrun
    | error => exact ih hrun
    | literal hp => cases hp
    | objectBegin hp => cases hp
    | arrayBegin hp => cases hp
    | comma hp => rcases hp with hp | hp <;> cases hp

theorem run_bare
    {b' : Nat} {place : Place} (root : ParseTree.Frame ν) (hroot : root.type ≠ .property)
    (hrun : events.foldlM (Track.step len) ⟨[.text], b⟩ = some ⟨[place], b'⟩)
    (hends : endsAtProperty false events = true) :
    ∃ s start, events.foldlM ParseTree.State.visit ⟨root, []⟩ = some s ∧ valueStart events =
    some start ∧ ∀ node ∈ s.currentParent.children.head?, (start : Int) < node.offset := by
  induction events with
  | nil => cases hends
  | cons event events ih =>
    rw [foldlM_cons, bind_eq_bind, bind_eq_some_iff] at hrun
    obtain ⟨u, hstep, hrun⟩ := hrun
    have hbegin (type : NodeType) (htype : type ≠ .property) (p : Place) (hp : p ≠ .property)
        (offset length : Nat) (hlength : 0 < length)
        (hrun : events.foldlM (Track.step len) ⟨[p, .text], offset + length⟩ = some ⟨[place], b'⟩)
        (hends : endsAtProperty false events = true) :
        ∃ s, events.foldlM ParseTree.State.visit
            ((⟨root, []⟩ : ParseTree.State ν).begin type offset []) = some s ∧
          ∀ node ∈ s.currentParent.children.head?, (offset : Int) < node.offset := by
      have hhead : [p, .text].head? ≠ some Place.property := fun h => hp (Option.some.inj h)
      have hdeeper : ParseTree.Deeper ⟨[p, .text], offset + length⟩
          ((⟨root, []⟩ : ParseTree.State ν).begin type offset []) 0 := by
        refine ⟨⟨fun h => absurd h htype, hroot⟩, ParseTree.not_waiting hhead htype, ?_⟩
        simp [ParseTree.State.begin, ParseTree.containers, htype, hroot]
      obtain ⟨s, bare, hs, hfinal, -, hbare⟩ := hdeeper.run
        (fun q hq => by rw [mem_singleton.1 hq]; rfl) hrun
      have hbeyond : ParseTree.Beyond (offset : Int)
          ((⟨root, []⟩ : ParseTree.State ν).begin type offset []).frames :=
        fun node hnode => by cases hnode
      refine ⟨s, hs, ParseTree.inside_of_deeper (hbeyond.run ?_ hrun hs) hfinal (hbare ?_)⟩
      · exact Nat.lt_add_of_pos_right hlength
      · rwa [decide_eq_false hhead]
    cases Track.step_allowed hstep with
    | comment => exact ih hrun hends
    | error => exact ih hrun hends
    | literal hp =>
      have hnot := not_endsAtProperty_after hrun
      rw [show endsAtProperty false events = true from hends] at hnot
      cases hnot
    | objectBegin hp hb hlength =>
      obtain ⟨s, hs, hinside⟩ := hbegin .object NodeType.noConfusion .object
        Place.noConfusion _ _ hlength hrun hends
      exact ⟨s, _, hs, rfl, hinside⟩
    | arrayBegin hp hb hlength =>
      obtain ⟨s, hs, hinside⟩ := hbegin .array NodeType.noConfusion .array
        Place.noConfusion _ _ hlength hrun hends
      exact ⟨s, _, hs, rfl, hinside⟩
    | comma hp => rcases hp with hp | hp <;> cases hp

/-- A bare property at the end of an object: the node of the tree is not the value's. -/
theorem build_bare {place : Place} (hrun : track len events = some ⟨[place], b⟩)
    (hends : endsAtProperty false events = true) : ∃ root start, ParseTree.build events =
    some root ∧ valueStart events = some start ∧ ∀ node ∈ root, (start : Int) < node.offset := by
  obtain ⟨s, start, hs, hstart, hinside⟩ :=
    run_bare (ParseTree.State.initial : ParseTree.State ν).currentParent
      NodeType.noConfusion hrun hends
  refine ⟨_, start, ?_, hstart, hinside⟩
  rw [ParseTree.build]
  exact congrArg _ hs

end CodeOss.Json
