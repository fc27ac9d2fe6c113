import CodeOss.Json.VisitContract
import CodeOss.Json.Parse

/-! The stacks of the two readers, call by call: as long as no object is closed
behind a bare property name, their frames stand for the same values. -/

namespace CodeOss.Json

open CharacterCodes List

variable {ν : Type}

/-- Some object is closed while the property begun last still waits for its value. -/
def endsAtProperty : Bool → List (Event ν) → Bool
  | _, [] => false
  | waiting, event :: events =>
    match event with
    | .onObjectProperty _ _ _ => endsAtProperty true events
    | .onObjectEnd _ _ => waiting || endsAtProperty false events
    | .onSeparator character _ _ =>
      endsAtProperty (waiting && decide (character ≠ comma)) events
    | .onComment _ _ => endsAtProperty waiting events
    | .onError _ _ _ => endsAtProperty waiting events
    | _ => endsAtProperty false events

def Event.isProto (event : Event ν) : Bool :=
  match event with
  | .onObjectProperty name _ _ => name = protoKey
  | _ => false

namespace Parse

abbrev State.entries (s : State ν) : List (Parent ν × Option JsString) :=
  (s.currentParent, s.currentProperty) :: s.previousParents

end Parse

namespace ParseTree

abbrev State.frames (s : State ν) : List (Frame ν) := s.currentParent :: s.parents

end ParseTree

section Agreement

variable (numbers : Numbers ν)

/-- The frames of the tree and the entries of the value at the same places. A
property is a frame of its own only in the tree. Once the text has its value, that
one ends where the visitor is. -/
inductive Agrees : Int → List Place → List (ParseTree.Frame ν) →
    List (Parse.Parent ν × Option JsString) → Prop
  | text {frame : ParseTree.Frame ν} {name : Option JsString} (htype : frame.type = .array)
      (hchildren : frame.children = []) : Agrees 0 [.text] [frame] [(.array [], name)]
  | after {bound : Int} {frame : ParseTree.Frame ν} {name : Option JsString} {node : Node ν}
      {value : JsValue ν} (htype : frame.type = .array) (hchildren : frame.children = [node])
      (hvalue : getNodeValue numbers node = some value) (hstop : node.stop = bound) :
      Agrees bound [.after] [frame] [(.array [value], name)]
  | array {bound outer : Int} {places : List Place} {frames : List (ParseTree.Frame ν)}
      {entries : List (Parse.Parent ν × Option JsString)} {frame : ParseTree.Frame ν}
      {els : List (JsValue ν)} {name : Option JsString} (htype : frame.type = .array)
      (hvalues : getNodeValues numbers frame.children = some els)
      (hrest : Agrees outer places frames entries) :
      Agrees bound (.array :: places) (frame :: frames) ((.array els, name) :: entries)
  | object {bound outer : Int} {places : List Place} {frames : List (ParseTree.Frame ν)}
      {entries : List (Parse.Parent ν × Option JsString)} {frame : ParseTree.Frame ν}
      {members : List (JsString × JsValue ν)} {name : Option JsString}
      (htype : frame.type = .object)
      (hvalues : getPropertyValues numbers [] frame.children = some members)
      (hrest : Agrees outer places frames entries) :
      Agrees bound (.object :: places) (frame :: frames) ((.object members, name) :: entries)
  | property {bound outer : Int} {places : List Place} {frames : List (ParseTree.Frame ν)}
      {entries : List (Parse.Parent ν × Option JsString)} {frame owner : ParseTree.Frame ν}
      {members : List (JsString × JsValue ν)} {key : Node ν} {name : JsString}
      (htype : frame.type = .property) (hkey : frame.children = [key])
      (hname : key.value = .string name) (hproto : name ≠ protoKey)
      (howner : owner.type = .object)
      (hvalues : getPropertyValues numbers [] owner.children = some members)
      (hrest : Agrees outer places frames entries) :
      Agrees bound (.property :: places) (frame :: owner :: frames)
        ((.object members, some name) :: entries)

variable {numbers}

theorem getNodeValues_snoc {children : List (Node ν)} {els : List (JsValue ν)} {node : Node ν}
    {value : JsValue ν} (h : getNodeValues numbers children = some els)
    (hnode : getNodeValue numbers node = some value) :
    getNodeValues numbers (children ++ [node]) = some (els ++ [value]) := by
  induction children generalizing els with
  | nil =>
    cases h
    simp [getNodeValues, hnode]
  | cons child children ih =>
    simp only [getNodeValues, Option.bind_eq_bind, Option.bind_eq_some_iff, Option.pure_def,
      Option.some.injEq] at h
    obtain ⟨first, hfirst, rest, hrest, rfl⟩ := h
    simp [getNodeValues, hfirst, ih hrest]

theorem getPropertyValues_append {obj members : List (JsString × JsValue ν)}
    {children more : List (Node ν)} (h : getPropertyValues numbers obj children = some members) :
    getPropertyValues numbers obj (children ++ more) = getPropertyValues numbers members more := by
  induction children generalizing obj with
  | nil =>
    cases h
    rfl
  | cons child children ih =>
    cases child with
    | literal value offset length => simp [getPropertyValues] at h
    | container type offset length colonOffset parts =>
      rcases parts with _ | ⟨key, _ | ⟨valueNode, parts⟩⟩
      · exact ih h
      · exact ih h
      · simp only [getPropertyValues, Option.bind_eq_bind, Option.bind_eq_some_iff] at h
        obtain ⟨value, hvalue, hrest⟩ := h
        simp only [cons_append, getPropertyValues, hvalue, Option.bind_eq_bind, Option.bind_some]
        exact ih hrest

variable {bound : Int} {p : Place} {places : List Place} {s : ParseTree.State ν}
  {entries : List (Parse.Parent ν × Option JsString)} {len : Nat} {t t' : Track} {event : Event ν}

theorem Agrees.fill
    {parent : Parse.Parent ν} {name : Option JsString} (node : Node ν) {value : JsValue ν}
    (h : Agrees numbers bound (p :: places) s.frames ((parent, name) :: entries))
    (hp : p.takesValue = true)
    (hnode : getNodeValue numbers node = some value) (name' : Option JsString) :
    ∃ s', (s.onValue node).ensurePropertyComplete node.stop = some s' ∧ Agrees numbers node.stop
    (p.filled :: places) s'.frames ((parent.onValue name value, name') :: entries) := by
  obtain ⟨current, parents⟩ := s
  cases h with
  | text htype hchildren =>
    refine ⟨_, if_neg ?_, .after htype ?_ hnode rfl⟩
    · show ¬current.type = .property
      rw [htype]
      exact NodeType.noConfusion
    · show current.children ++ [node] = [node]
      rw [hchildren, nil_append]
  | after => cases hp
  | array htype hvalues hrest =>
    refine ⟨_, if_neg ?_, .array htype (getNodeValues_snoc hvalues hnode) hrest⟩
    show ¬current.type = .property
    rw [htype]
    exact NodeType.noConfusion
  | object => cases hp
  | @property _ _ _ frames _ _ owner members key name htype hkey hname hproto howner hvalues hrest =>
    refine ⟨⟨owner.onValue ((current.onValue node).close node.stop), frames⟩, if_pos htype,
      .object howner ?_ hrest⟩
    show getPropertyValues numbers [] (owner.children ++ [_]) = some (Parse.assign _ _ _)
    change current.children = [key] at hkey
    rw [getPropertyValues_append hvalues]
    simp only [ParseTree.Frame.close, ParseTree.Frame.onValue, hkey, cons_append,
      nil_append, getPropertyValues, hnode, Option.bind_eq_bind, Option.bind_some, hname,
      propertyKey, Parse.assign, if_neg hproto]

variable {frames : List (ParseTree.Frame ν)}

theorem Agrees.frames_cons {entry : Parse.Parent ν × Option JsString}
    (h : Agrees numbers bound (p :: places) frames (entry :: entries)) :
    ∃ frame rest, frames = frame :: rest := by
  cases h <;> exact ⟨_, _, rfl⟩

theorem ParseTree.Frame.close_stop (frame : ParseTree.Frame ν) (endOffset : Int) :
    (frame.close endOffset).stop = endOffset := by
  show frame.offset + (endOffset - frame.offset) = endOffset
  omega

theorem Agrees.finish {frame : ParseTree.Frame ν}
    (parent : Parse.Parent ν) {name : Option JsString} (endOffset : Int)
    (h : Agrees numbers bound (p :: places) frames entries) (hp : p.takesValue = true)
    (hvalue : getNodeValue numbers (frame.close endOffset) = some parent.value) :
    ∃ s' p', (do
        let s ← (⟨frame, frames⟩ : ParseTree.State ν).finish endOffset
        s.ensurePropertyComplete endOffset) = some s' ∧
      (⟨name, parent, entries⟩ : Parse.State ν).finish = some p' ∧
      Agrees numbers endOffset (p.filled :: places) s'.frames p'.entries := by
  have hentries : ∃ entry rest, entries = entry :: rest := by
    cases h <;> exact ⟨_, _, rfl⟩
  obtain ⟨⟨owner, slot⟩, rest, rfl⟩ := hentries
  obtain ⟨top, tail, rfl⟩ := h.frames_cons
  obtain ⟨s', hs, hagrees⟩ := Agrees.fill (s := ⟨top, tail⟩) _ h hp hvalue name
  rw [frame.close_stop] at hs hagrees
  exact ⟨s', _, hs, rfl, hagrees⟩

theorem Agrees.step {q : Parse.State ν} (h : Agrees numbers t.bound t.places s.frames q.entries)
    (hplaces : ∀ p ∈ t.places.tail, p.takesValue = true)
    (hstep : Allowed len t event t') (hproto : event.isProto = false)
    (hbare : endsAtProperty (t.places.head? = some .property) [event] = false) :
    ∃ s' q', s.visit event = some s' ∧
    q.visit event = some q' ∧ Agrees numbers t'.bound t'.places s'.frames q'.entries := by
  obtain ⟨current, parents⟩ := s
  obtain ⟨property, parent, previous⟩ := q
  cases hstep with
  | comment => exact ⟨_, _, rfl, rfl, h⟩
  | error => exact ⟨_, _, rfl, rfl, h⟩
  | @literal _ _ _ offset length value hp =>
    obtain ⟨s', hs, hagrees⟩ :=
      Agrees.fill (.literal value offset length) h hp rfl property
    refine ⟨s', _, hs, rfl, ?_⟩
    have hstop : (Node.literal value (offset : Int) length).stop = ((offset + length : Nat) : Int) :=
      (Nat.cast_add offset length).symm
    rwa [hstop] at hagrees
  | objectBegin => exact ⟨_, _, rfl, rfl, .object rfl rfl h⟩
  | arrayBegin => exact ⟨_, _, rfl, rfl, .array rfl rfl h⟩
  | name =>
    cases h with
    | object htype hvalues hrest =>
      have hname : _ ≠ protoKey := of_decide_eq_false hproto
      exact ⟨_, _, rfl, rfl, .property rfl rfl rfl hname htype hvalues hrest⟩
  | @objectEnd _ _ _ offset length =>
    cases h with
    | object htype hvalues hrest =>
      change current.type = .object at htype
      rw [Nat.cast_add]
      refine Agrees.finish (.object _) _ hrest (hplaces _ mem_cons_self) ?_
      simp only [ParseTree.Frame.close, getNodeValue, htype, hvalues]
      rfl
  | bareEnd => cases hbare
  | arrayEnd =>
    cases h with
    | array htype hvalues hrest =>
      change current.type = .array at htype
      rw [Nat.cast_add]
      refine Agrees.finish (.array _) _ hrest (hplaces _ mem_cons_self) ?_
      simp only [ParseTree.Frame.close, getNodeValue, htype, hvalues]
      rfl
  | comma hp =>
    have htype : current.type ≠ .property := by
      rcases hp with rfl | rfl <;> cases h <;> next htype _ _ =>
        exact ne_of_eq_of_ne htype NodeType.noConfusion
    refine ⟨_, _, if_neg htype, rfl, ?_⟩
    rcases hp with rfl | rfl
    · cases h with
      | array htype hvalues hrest => exact .array htype hvalues hrest
    · cases h with
      | object htype hvalues hrest => exact .object htype hvalues hrest
  | @propertyComma _ _ offset =>
    cases h with
    | @property _ _ _ frames _ _ owner members key name htype hkey hname hproto howner hvalues
        hrest =>
        refine ⟨⟨owner.onValue (current.close offset), frames⟩, _, ?_, rfl, .object howner ?_ hrest⟩
        · change current.type = .property at htype
          simp only [ParseTree.State.visit, ParseTree.State.ensurePropertyComplete, htype, if_true]
          rfl
        · show getPropertyValues numbers [] (owner.children ++ [_]) = some members
          change current.children = [key] at hkey
          rw [getPropertyValues_append hvalues]
          simp only [ParseTree.Frame.close, hkey, getPropertyValues]
  | colon =>
    cases h with
    | property htype hkey hname hproto howner hvalues hrest =>
      exact ⟨_, _, (if_pos htype).trans (if_pos rfl), rfl,
        .property htype hkey hname hproto howner hvalues hrest⟩

theorem Allowed.nested (h : Allowed len t event t')
    (hplaces : ∀ p ∈ t.places.tail, p.takesValue = true) :
    ∀ p ∈ t'.places.tail, p.takesValue = true := by
  cases h with
  | objectBegin hp => exact forall_mem_cons.2 ⟨hp, hplaces⟩
  | arrayBegin hp => exact forall_mem_cons.2 ⟨hp, hplaces⟩
  | objectEnd => exact (forall_mem_cons.1 hplaces).2
  | bareEnd => exact (forall_mem_cons.1 hplaces).2
  | arrayEnd => exact (forall_mem_cons.1 hplaces).2
  | _ => exact hplaces

theorem Allowed.waiting (h : Allowed len t event t')
    (hplaces : ∀ p ∈ t.places.tail, p.takesValue = true) (events : List (Event ν)) : endsAtProperty
    (t.places.head? = some .property) (event :: events) = (endsAtProperty (t.places.head? =
    some .property) [event] || endsAtProperty (t'.places.head? = some .property) events) := by
  have hfilled (p : Place) : (decide ((p.filled :: []).head? = some Place.property)) = false := by
    cases p <;> rfl
  cases h with
  | literal hp => simpa [endsAtProperty] using congrArg (endsAtProperty · events) (hfilled _).symm
  | objectEnd => simpa [endsAtProperty] using congrArg (endsAtProperty · events) (hfilled _).symm
  | bareEnd => simp [endsAtProperty]
  | arrayEnd => simpa [endsAtProperty] using congrArg (endsAtProperty · events) (hfilled _).symm
  | comma hp => rcases hp with rfl | rfl <;> simp [endsAtProperty]
  | colon =>
    have hne : ¬CharacterCodes.colon = CharacterCodes.comma := by decide
    simp [endsAtProperty, hne]
  | _ => simp [endsAtProperty]

theorem Agrees.run {events : List (Event ν)}
    {q : Parse.State ν} (h : Agrees numbers t.bound t.places s.frames q.entries)
    (hplaces : ∀ p ∈ t.places.tail, p.takesValue = true)
    (hrun : events.foldlM (Track.step len) t = some t') (hproto : ∀ e ∈ events, e.isProto = false)
    (hbare : endsAtProperty (t.places.head? = some .property) events = false) :
    ∃ s' q', events.foldlM ParseTree.State.visit s = some s' ∧ events.foldlM Parse.State.visit q =
    some q' ∧ Agrees numbers t'.bound t'.places s'.frames q'.entries := by
  induction events generalizing t s q with
  | nil =>
    cases hrun
    exact ⟨s, q, rfl, rfl, h⟩
  | cons event events ih =>
    rw [foldlM_cons, Option.bind_eq_bind, Option.bind_eq_some_iff] at hrun
    obtain ⟨u, hstep, hrun⟩ := hrun
    have hallowed := Track.step_allowed hstep
    rw [hallowed.waiting hplaces, Bool.or_eq_false_iff] at hbare
    obtain ⟨hproto, hprotos⟩ := forall_mem_cons.1 hproto
    obtain ⟨s₁, q₁, hs, hq, hagrees⟩ := h.step hplaces hallowed hproto hbare.1
    obtain ⟨s', q', hs', hq', hfinal⟩ :=
      ih hagrees (hallowed.nested hplaces) hrun hprotos hbare.2
    refine ⟨s', q', ?_, ?_, hfinal⟩
    · rw [foldlM_cons, hs]
      exact hs'
    · rw [foldlM_cons, hq]
      exact hq'

theorem builds_agree {len b : Nat} {events : List (Event ν)} {place : Place}
    (hrun : track len events = some ⟨[place], b⟩) (hplace : place = .text ∨ place = .after)
    (hproto : ∀ e ∈ events, e.isProto = false) (hbare : endsAtProperty false events = false) :
    ∃ root value, ParseTree.build events = some root ∧ Parse.build events = some value ∧
      (root = none ∧ value = .undefined ∧ b = 0 ∨ place = .after ∧
        ∃ node, root = some node ∧ getNodeValue numbers node = some value ∧ node.stop = b) := by
  have hinitial : Agrees numbers 0 [.text] (ParseTree.State.initial : ParseTree.State ν).frames
      (Parse.State.initial : Parse.State ν).entries := .text rfl rfl
  obtain ⟨s, q, hs, hq, hagrees⟩ :=
    hinitial.run (fun p hp => by cases hp) hrun hproto hbare
  obtain ⟨current, parents⟩ := s
  obtain ⟨property, parent, previous⟩ := q
  simp only [ParseTree.build, Parse.build, hs, hq, Option.map_some]
  rcases hplace with rfl | rfl
  · cases hagrees with
    | text htype hchildren =>
      change current.children = [] at hchildren
      exact ⟨_, _, rfl, rfl, .inl ⟨by rw [hchildren]; rfl, rfl, rfl⟩⟩
  · cases hagrees with
    | after htype hchildren hvalue hstop =>
      change current.children = [_] at hchildren
      exact ⟨_, _, rfl, rfl, .inr ⟨rfl, _, by rw [hchildren]; rfl, hvalue, hstop⟩⟩

end Agreement

end CodeOss.Json
