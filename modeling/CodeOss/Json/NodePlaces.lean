import CodeOss.Json.ReadersAgree

/-! Where the nodes of a tree lie: in each node its children, one behind the other. -/

namespace CodeOss.Json

open CharacterCodes

variable {ν : Type}

mutual

/-- The node and all below it have a region that holds the regions of its children. -/
def Node.Placed (node : Node ν) : Prop :=
  match node with
  | .literal _ offset length => 0 ≤ offset ∧ 0 ≤ length
  | .container _ offset length _ children =>
    0 ≤ offset ∧ 0 ≤ length ∧ InOrder offset (offset + length) children

/-- The nodes follow one another between `start` and `stop`. -/
def InOrder (start stop : Int) (nodes : List (Node ν)) : Prop :=
  match nodes with
  | [] => start ≤ stop
  | node :: rest => start ≤ node.offset ∧ node.Placed ∧ InOrder node.stop stop rest

end

variable {start stop : Int} {nodes : List (Node ν)}

theorem InOrder.mono {stop' : Int} (h : InOrder start stop nodes) (hle : stop ≤ stop') :
    InOrder start stop' nodes := by
  induction nodes generalizing start with
  | nil =>
    rw [InOrder] at h ⊢
    omega
  | cons node rest ih =>
    rw [InOrder] at h ⊢
    exact ⟨h.1, h.2.1, ih h.2.2⟩

theorem InOrder.snoc {node : Node ν} (h : InOrder start stop nodes) (hle : stop ≤ node.offset)
    (hnode : node.Placed) : InOrder start node.stop (nodes ++ [node]) := by
  induction nodes generalizing start with
  | nil =>
    rw [InOrder] at h
    rw [List.nil_append, InOrder, InOrder]
    exact ⟨h.trans hle, hnode, le_rfl⟩
  | cons first rest ih =>
    rw [InOrder] at h
    rw [List.cons_append, InOrder]
    exact ⟨h.1, h.2.1, ih h.2.2⟩

theorem Node.Placed.length_nonneg {node : Node ν} (h : node.Placed) : 0 ≤ node.length := by
  cases node <;> rw [Node.Placed] at h
  · exact h.2
  · exact h.2.1

theorem InOrder.le (h : InOrder start stop nodes) : start ≤ stop := by
  induction nodes generalizing start with
  | nil => rwa [InOrder] at h
  | cons node rest ih =>
    rw [InOrder] at h
    have hlength := h.2.1.length_nonneg
    have hstop : node.stop ≤ stop := ih h.2.2
    rw [Node.stop] at hstop
    omega

namespace ParseTree

/-- Every open node holds what was closed in it, and its open child lies behind that. -/
def FramesPlaced : List (Frame ν) → Int → Prop
  | [], _ => True
  | [root], bound => root.offset = -1 ∧ InOrder (-1) bound root.children
  | frame :: rest, bound =>
    0 ≤ frame.offset ∧ InOrder frame.offset bound frame.children ∧
      FramesPlaced rest frame.offset

variable {bound stop : Int} {s s' : State ν}

theorem FramesPlaced.mono {frames : List (Frame ν)} {bound' : Int} (h : FramesPlaced frames bound)
    (hle : bound ≤ bound') : FramesPlaced frames bound' := by
  match frames, h with
  | [], _ => trivial
  | [_], h => exact ⟨h.1, h.2.mono hle⟩
  | _ :: _ :: _, h => exact ⟨h.1, h.2.1.mono hle, h.2.2⟩

theorem FramesPlaced.onValue {frame : Frame ν} {rest : List (Frame ν)} (node : Node ν)
    (h : FramesPlaced (frame :: rest) bound) (hle : bound ≤ node.offset) (hnode : node.Placed) :
    FramesPlaced (frame.onValue node :: rest) node.stop := by
  match rest, h with
  | [], h => exact ⟨h.1, h.2.snoc hle hnode⟩
  | _ :: _, h => exact ⟨h.1, h.2.1.snoc hle hnode, h.2.2⟩

theorem FramesPlaced.begin {frames : List (Frame ν)} {type : NodeType} {offset stop : Nat}
    {children : List (Node ν)} (h : FramesPlaced frames bound) (hframes : frames ≠ [])
    (hle : bound ≤ offset) (hchildren : InOrder offset stop children) :
    FramesPlaced (⟨type, offset, none, children⟩ :: frames) stop := by
  obtain ⟨frame, rest, rfl⟩ := List.exists_cons_of_ne_nil hframes
  exact ⟨Int.natCast_nonneg _, hchildren, h.mono hle⟩

theorem FramesPlaced.close {frame parent : Frame ν} {rest : List (Frame ν)}
    (h : FramesPlaced (frame :: parent :: rest) bound) (hle : bound ≤ stop) :
    FramesPlaced (parent.onValue (frame.close stop) :: rest) stop := by
  obtain ⟨hoffset, hchildren, hrest⟩ := h
  have hinside := hchildren.mono hle
  have hstart := hinside.le
  have hstop : (frame.close stop).stop = stop := by
    show frame.offset + (stop - frame.offset) = stop
    omega
  have hnode : (frame.close stop).Placed := by
    rw [Frame.close, Node.Placed, show frame.offset + (stop - frame.offset) = stop by omega]
    exact ⟨hoffset, by omega, hinside⟩
  have := hrest.onValue (frame.close stop) le_rfl hnode
  rwa [hstop] at this

theorem FramesPlaced.finish (h : FramesPlaced s.frames bound) (hle : bound ≤ stop)
    (hs : s.finish stop = some s') : FramesPlaced s'.frames stop := by
  obtain ⟨current, parents⟩ := s
  cases parents with
  | nil => cases hs
  | cons parent parents =>
    cases hs
    exact FramesPlaced.close h hle

theorem FramesPlaced.complete (h : FramesPlaced s.frames bound) (hle : bound ≤ stop)
    (hs : s.ensurePropertyComplete stop = some s') : FramesPlaced s'.frames stop := by
  rw [State.ensurePropertyComplete] at hs
  split at hs
  · exact h.finish hle hs
  · cases hs
    exact h.mono hle

theorem FramesPlaced.step {len : Nat} {t t' : Track} {event : Event ν}
    (h : FramesPlaced s.frames t.bound) (hstep : Allowed len t event t')
    (hs : s.visit event = some s') : FramesPlaced s'.frames t'.bound := by
  have hne : s.frames ≠ [] := List.cons_ne_nil _ _
  have hend {b offset length : Nat} (hb : b ≤ offset + length) (h : FramesPlaced s.frames b)
      (hs : (do
        let s ← s.finish ((offset : Int) + length)
        s.ensurePropertyComplete ((offset : Int) + length)) = some s') :
      FramesPlaced s'.frames ((offset + length : Nat) : Int) := by
    rw [Option.bind_eq_bind, Option.bind_eq_some_iff] at hs
    obtain ⟨s₁, hfinish, hcomplete⟩ := hs
    have hle : (b : Int) ≤ (offset : Int) + length := by omega
    have hfirst := h.finish hle hfinish
    have := hfirst.complete le_rfl hcomplete
    rwa [Nat.cast_add]
  have hseparator {b offset length : Nat} {sep : CodeUnit} (hb : b ≤ offset)
      (h : FramesPlaced s.frames b) (hs : s.visit (.onSeparator sep offset length) = some s') :
      FramesPlaced s'.frames ((offset + length : Nat) : Int) := by
    have hmono := h.mono (show (b : Int) ≤ (offset + length : Nat) by omega)
    rw [State.visit] at hs
    split_ifs at hs
    · cases hs
      obtain ⟨current, parents⟩ := s
      cases parents with
      | nil => exact hmono
      | cons parent parents => exact hmono
    · exact (h.complete (by omega) hs).mono (by omega)
    · cases hs
      exact hmono
    · cases hs
      exact hmono
  cases hstep with
  | comment =>
    cases hs
    exact h
  | error =>
    cases hs
    exact h
  | @literal _ _ b offset length value _ hb hlen =>
    have hvalue : FramesPlaced (s.onValue (.literal value offset length)).frames
        ((offset : Int) + length) :=
      FramesPlaced.onValue (.literal value offset length) h (Nat.cast_le.2 hb)
        (by rw [Node.Placed]; exact ⟨Int.natCast_nonneg _, Int.natCast_nonneg _⟩)
    have := hvalue.complete le_rfl hs
    rwa [Nat.cast_add]
  | @objectBegin _ _ b offset length _ hb =>
    cases hs
    refine h.begin hne (Nat.cast_le.2 hb) ?_
    rw [InOrder]
    exact Nat.cast_le.2 (Nat.le_add_right offset length)
  | @arrayBegin _ _ b offset length _ hb =>
    cases hs
    refine h.begin hne (Nat.cast_le.2 hb) ?_
    rw [InOrder]
    exact Nat.cast_le.2 (Nat.le_add_right offset length)
  | name hb =>
    cases hs
    refine h.begin hne (Nat.cast_le.2 hb) ?_
    rw [InOrder, InOrder, Node.Placed]
    exact ⟨le_rfl, ⟨Int.natCast_nonneg _, Int.natCast_nonneg _⟩,
      by simp [Node.stop, Node.offset, Node.length]⟩
  | objectEnd hb => exact hend hb h hs
  | bareEnd hb => exact hend hb h hs
  | arrayEnd hb => exact hend hb h hs
  | comma _ hb => exact hseparator hb h hs
  | propertyComma hb => exact hseparator hb h hs
  | colon hb => exact hseparator hb h hs

theorem FramesPlaced.run {len : Nat} {events : List (Event ν)} {t t' : Track}
    (h : FramesPlaced s.frames t.bound) (hrun : events.foldlM (Track.step len) t = some t')
    (hs : events.foldlM State.visit s = some s') : FramesPlaced s'.frames t'.bound := by
  induction events generalizing t s with
  | nil =>
    cases hrun
    cases hs
    exact h
  | cons event events ih =>
    rw [List.foldlM_cons, Option.bind_eq_bind, Option.bind_eq_some_iff] at hrun hs
    obtain ⟨u, hstep, hrun⟩ := hrun
    obtain ⟨s₁, hvisit, hs⟩ := hs
    exact ih (h.step (Track.step_allowed hstep) hvisit) hrun hs

end ParseTree

end CodeOss.Json
