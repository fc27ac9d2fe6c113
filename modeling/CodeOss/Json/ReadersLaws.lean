import CodeOss.Json.BareProperty
import CodeOss.Json.GrammarVisit

/-! `parse` and `parseTree` on every text: when they agree, and what the tree is
where they do not. -/

namespace CodeOss.Json

variable {ν : Type}

/-- An end lies in the text. The end of file behind an unclosed `/*` does not. -/
def Event.endsWithin (len : Nat) (event : Event ν) : Bool :=
  match event with
  | .onObjectEnd offset length => offset + length ≤ len
  | .onArrayEnd offset length => offset + length ≤ len
  | _ => true

variable {len : Nat} {t t' : Track}

theorem Event.endsWithin_mono {len' : Nat} (hle : len ≤ len') {event : Event ν}
    (h : event.endsWithin len = true) : event.endsWithin len' = true := by
  cases event with
  | onObjectEnd offset length => exact decide_eq_true ((of_decide_eq_true h).trans hle)
  | onArrayEnd offset length => exact decide_eq_true ((of_decide_eq_true h).trans hle)
  | _ => rfl

theorem Allowed.bound_le {event : Event ν} (h : Allowed len t event t') :
    t.bound ≤ t'.bound ∧ event.endsWithin t'.bound = true := by
  cases h with
  | comment => exact ⟨le_rfl, rfl⟩
  | error => exact ⟨le_rfl, rfl⟩
  | literal _ hb => exact ⟨hb.trans (Nat.le_add_right _ _), rfl⟩
  | objectBegin _ hb => exact ⟨hb.trans (Nat.le_add_right _ _), rfl⟩
  | arrayBegin _ hb => exact ⟨hb.trans (Nat.le_add_right _ _), rfl⟩
  | name hb => exact ⟨hb.trans (Nat.le_add_right _ _), rfl⟩
  | objectEnd hb => exact ⟨hb, decide_eq_true le_rfl⟩
  | bareEnd hb => exact ⟨hb, decide_eq_true le_rfl⟩
  | arrayEnd hb => exact ⟨hb, decide_eq_true le_rfl⟩
  | comma _ hb => exact ⟨hb.trans (Nat.le_add_right _ _), rfl⟩
  | propertyComma hb => exact ⟨hb.trans (Nat.le_add_right _ _), rfl⟩
  | colon hb => exact ⟨hb.trans (Nat.le_add_right _ _), rfl⟩

theorem run_bound_le {events : List (Event ν)} (hrun : events.foldlM (Track.step len) t = some t') :
    t.bound ≤ t'.bound ∧ ∀ e ∈ events, e.endsWithin t'.bound = true := by
  induction events generalizing t with
  | nil =>
    cases hrun
    exact ⟨le_rfl, fun _ he => (List.not_mem_nil he).elim⟩
  | cons event events ih =>
    rw [List.foldlM_cons, Option.bind_eq_bind, Option.bind_eq_some_iff] at hrun
    obtain ⟨u, hstep, hrun⟩ := hrun
    obtain ⟨hle, hends⟩ := (Track.step_allowed hstep).bound_le
    obtain ⟨hle', hends'⟩ := ih hrun
    exact ⟨hle.trans hle', List.forall_mem_cons.2 ⟨Event.endsWithin_mono hle' hends, hends'⟩⟩

theorem run_after_le {events : List (Event ν)} (hrun : events.foldlM (Track.step len) t = some t')
    (hends : ∀ e ∈ events, e.endsWithin len = true) (hstart : t.places = [.after] → t.bound ≤ len) :
    t'.places = [.after] → t'.bound ≤ len := by
  induction events generalizing t with
  | nil =>
    cases hrun
    exact hstart
  | cons event events ih =>
    rw [List.foldlM_cons, Option.bind_eq_bind, Option.bind_eq_some_iff] at hrun
    obtain ⟨u, hstep, hrun⟩ := hrun
    obtain ⟨hend, hends⟩ := List.forall_mem_cons.1 hends
    refine ih hrun hends fun hplaces => ?_
    cases Track.step_allowed hstep with
    | comment => exact hstart hplaces
    | error => exact hstart hplaces
    | literal _ _ hlen => exact hlen
    | objectEnd => exact of_decide_eq_true hend
    | bareEnd => exact of_decide_eq_true hend
    | arrayEnd => exact of_decide_eq_true hend
    | comma hp => rcases hp with rfl | rfl <;> cases hplaces
    | _ => cases hplaces

section Laws

variable (numbers : Numbers ν) (options : ParseOptions)

/-- What is asked of the two readers on one text: one value and the same errors; a
tree whose nodes lie in the text and hold their children in order; on a text of the
grammar no error and the value of the grammar. -/
structure ReadersAgree (text : JsString) : Prop where
  readers : ∃ root value errors, parseTree numbers options text = some (root, errors) ∧
    parse numbers options text = some (value, errors) ∧
    (root = none ∧ value = .undefined ∨
      ∃ node, root = some node ∧ getNodeValue numbers node = some value)
  regions : ∀ node errors, parseTree numbers options text = some (some node, errors) →
    node.Placed ∧ node.stop ≤ text.length
  grammar : options.disallowComments = false → ∀ value, IsText numbers text value →
    parse numbers options text = some (value, [])

variable {numbers options}

variable {events : List (Event ν)} {text : JsString}

theorem build_placed {len : Nat} {t : Track} {node : Node ν} (hrun : track len events = some t)
    (h : ParseTree.build events = some (some node)) : node.Placed := by
  simp only [ParseTree.build, Option.map_eq_some_iff] at h
  obtain ⟨⟨current, parents⟩, hs, hnode⟩ := h
  have hinitial : ParseTree.FramesPlaced (ParseTree.State.initial : ParseTree.State ν).frames
      ((0 : Nat) : Int) := by
    refine ⟨rfl, ?_⟩
    show InOrder (-1) ((0 : Nat) : Int) []
    rw [InOrder]
    decide
  have hplaced := hinitial.run hrun hs
  obtain ⟨rest, hchildren⟩ := List.head?_eq_some_iff.1 hnode
  have hfirst {start stop : Int} (h : InOrder start stop current.children) : node.Placed := by
    rw [hchildren, InOrder] at h
    exact h.2.1
  cases parents with
  | nil => exact hfirst hplaced.2
  | cons parent parents => exact hfirst hplaced.2.1

theorem parseErrors_of_noError (h : ∀ e ∈ events, e.isError = false) : parseErrors events = [] := by
  refine List.filterMap_eq_nil_iff.2 fun e he => ?_
  cases e with
  | onError error offset length => cases h _ he
  | _ => rfl

section

variable (hvisit : visit numbers options text = some events)
include hvisit

theorem parse_eq {value : JsValue ν} (h : Parse.build events = some value) :
    parse numbers options text = some (value, parseErrors events) := by
  simp [parse, hvisit, h]

theorem parseTree_eq {root : Option (Node ν)} (h : ParseTree.build events = some root) :
    parseTree numbers options text = some (root, parseErrors events) := by
  simp [parseTree, hvisit, h]

theorem agree_of_closed
    (hproto : ∀ e ∈ events, e.isProto = false) (hbare : endsAtProperty false events = false) :
    ReadersAgree numbers options text ↔ ∀ e ∈ events, e.endsWithin text.length = true := by
  obtain ⟨events', place, b, hvisit', hrun, hplace⟩ := visit_tracked numbers options text
  obtain rfl : events' = events := Option.some.inj (hvisit'.symm.trans hvisit)
  obtain ⟨root, value, hroot, hvalue, hagree⟩ :=
    @builds_agree _ numbers _ _ _ _ hrun hplace hproto hbare
  have htree := parseTree_eq hvisit hroot
  have hparse := parse_eq hvisit hvalue
  have hends : ∀ e ∈ events', e.endsWithin b = true := (run_bound_le hrun).2
  constructor
  · intro h e he
    rcases hagree with ⟨-, -, rfl⟩ | ⟨-, node, rfl, -, hstop⟩
    · exact Event.endsWithin_mono (Nat.zero_le _) (hends e he)
    · have hle := (h.regions node _ htree).2
      rw [hstop] at hle
      have hle' : b ≤ text.length := Nat.cast_le.1 hle
      exact Event.endsWithin_mono hle' (hends e he)
  · intro hwithin
    refine ⟨⟨root, value, _, htree, hparse, ?_⟩, fun node errors hnode => ?_,
      fun hoptions v htext => ?_⟩
    · rcases hagree with ⟨hnone, hundefined, -⟩ | ⟨-, node, hsome, hnode, -⟩
      · exact .inl ⟨hnone, hundefined⟩
      · exact .inr ⟨node, hsome, hnode⟩
    · rw [htree] at hnode
      obtain ⟨rfl, -⟩ := Prod.mk.inj (Option.some.inj hnode)
      refine ⟨build_placed hrun hroot, ?_⟩
      rcases hagree with ⟨hnone, -, -⟩ | ⟨rfl, other, hsome, -, hstop⟩
      · cases hnone
      · obtain rfl := Option.some.inj hsome
        have hlast : b ≤ text.length := run_after_le hrun hwithin (fun h => by cases h) rfl
        rw [hstop]
        exact Nat.cast_le.2 hlast
    · obtain ⟨told, htold, hquiet, hbuild⟩ := visit_text hoptions htext
      obtain rfl : events' = told := Option.some.inj (hvisit.symm.trans htold)
      rw [parse_eq hvisit (hbuild hproto), parseErrors_of_noError hquiet]

end

theorem readers_agree_iff (numbers : Numbers ν) (options : ParseOptions) (text : JsString)
    (hproto : ∀ events, visit numbers options text = some events → ∀ e ∈ events,
      e.isProto = false) :
    ∃ events, visit numbers options text = some events ∧
      (endsAtProperty false events = false →
        (ReadersAgree numbers options text ↔ ∀ e ∈ events, e.endsWithin text.length = true)) ∧
      (endsAtProperty false events = true →
        ∃ root start, parseTree numbers options text = some (root, parseErrors events) ∧
          valueStart events = some start ∧ ∀ node ∈ root, (start : Int) < node.offset) := by
  obtain ⟨events, place, b, hvisit, hrun, hplace⟩ := visit_tracked numbers options text
  refine ⟨events, hvisit, agree_of_closed hvisit (hproto events hvisit), fun hends => ?_⟩
  obtain ⟨root, start, hroot, hstart, hinside⟩ := build_bare hrun hends
  exact ⟨root, start, parseTree_eq hvisit hroot, hstart, hinside⟩

/-- `{"a"}`: the tree has the property for its root, the value is an empty object. -/
theorem readers_disagree : ¬ReadersAgree (⟨id, id⟩ : Numbers JsString) ParseOptions.DEFAULT
    [0x7B, 0x22, 0x61, 0x22, 0x7D] := by
  intro h
  have htree : parseTree (⟨id, id⟩ : Numbers JsString) ParseOptions.DEFAULT
      [0x7B, 0x22, 0x61, 0x22, 0x7D] =
        some (some (.container .property 1 4 none [.literal (.string [0x61]) 1 3]),
          [⟨.ColonExpected, 4, 1⟩]) := rfl
  have hparse : parse (⟨id, id⟩ : Numbers JsString) ParseOptions.DEFAULT
      [0x7B, 0x22, 0x61, 0x22, 0x7D] = some (.object [], [⟨.ColonExpected, 4, 1⟩]) := rfl
  obtain ⟨root, value, errors, hroot, hvalue, hagree⟩ := h.readers
  rw [htree] at hroot
  rw [hparse] at hvalue
  obtain ⟨rfl, -⟩ := Prod.mk.inj (Option.some.inj hroot)
  obtain ⟨rfl, -⟩ := Prod.mk.inj (Option.some.inj hvalue)
  rcases hagree with ⟨hnone, -⟩ | ⟨node, hsome, hnode⟩
  · cases hnone
  · obtain rfl := Option.some.inj hsome
    cases hnode

/-- `[{"a":1}, /* b */ 2` holds no bare property, and its array is closed by the end. -/
theorem readers_agree_unclosed :
    ReadersAgree (⟨id, id⟩ : Numbers JsString) ParseOptions.DEFAULT
      [0x5B, 0x7B, 0x22, 0x61, 0x22, 0x3A, 0x31, 0x7D, 0x2C, 0x2F, 0x2A, 0x62, 0x2A, 0x2F,
        0x32] := by
  obtain ⟨events, hvisit, hagree, -⟩ := readers_agree_iff (⟨id, id⟩ : Numbers JsString)
    ParseOptions.DEFAULT
    [0x5B, 0x7B, 0x22, 0x61, 0x22, 0x3A, 0x31, 0x7D, 0x2C, 0x2F, 0x2A, 0x62, 0x2A, 0x2F, 0x32]
    (by
      intro events hvisit
      obtain rfl := Option.some.inj hvisit
      decide)
  obtain rfl := Option.some.inj hvisit
  exact (hagree (by decide)).2 (by decide)

end Laws

end CodeOss.Json
