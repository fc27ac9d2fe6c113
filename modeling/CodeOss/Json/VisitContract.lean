import CodeOss.Json.TokenChain

/-! What a visitor may rely on, whatever the text: every begin has its end,
values come where a value can stand, and the places never go back. -/

namespace CodeOss.Json

open CharacterCodes List

variable {ν : Type}

/-- Where the visitor is: in the text before or behind its value, in an array, in
an object, or behind the name of a property. -/
inductive Place
  | text
  | after
  | array
  | object
  | property
deriving DecidableEq, Repr

namespace Place

def takesValue (p : Place) : Bool :=
  match p with
  | .text | .array | .property => true
  | _ => false

def filled (p : Place) : Place :=
  match p with
  | .text => .after
  | .property => .object
  | p => p

end Place

/-- The open places, the inner one first, and how far the calls have come. -/
structure Track where
  places : List Place
  bound : Nat

/-- The calls that are allowed. An end lies behind everything before it; all the
others also start there. -/
def Track.step (len : Nat) (t : Track) (event : Event ν) : Option Track :=
  match event, t.places with
  | .onComment _ _, _ => some t
  | .onError _ _ _, _ => some t
  | .onLiteralValue _ offset length, p :: places =>
    if p.takesValue ∧ t.bound ≤ offset ∧ offset + length ≤ len then
      some ⟨p.filled :: places, offset + length⟩
    else none
  | .onObjectBegin offset length, p :: places =>
    if p.takesValue ∧ t.bound ≤ offset ∧ 0 < length then
      some ⟨.object :: p :: places, offset + length⟩
    else none
  | .onArrayBegin offset length, p :: places =>
    if p.takesValue ∧ t.bound ≤ offset ∧ 0 < length then
      some ⟨.array :: p :: places, offset + length⟩
    else none
  | .onObjectProperty _ offset length, .object :: places =>
    if t.bound ≤ offset then some ⟨.property :: places, offset + length⟩ else none
  | .onObjectEnd offset length, .object :: p :: places =>
    if t.bound ≤ offset + length then some ⟨p.filled :: places, offset + length⟩ else none
  | .onObjectEnd offset length, .property :: p :: places =>
    if t.bound ≤ offset + length then some ⟨p.filled :: places, offset + length⟩ else none
  | .onArrayEnd offset length, .array :: p :: places =>
    if t.bound ≤ offset + length then some ⟨p.filled :: places, offset + length⟩ else none
  | .onSeparator character offset length, .array :: places =>
    if t.bound ≤ offset ∧ character = comma then some ⟨.array :: places, offset + length⟩
    else none
  | .onSeparator character offset length, .object :: places =>
    if t.bound ≤ offset ∧ character = comma then some ⟨.object :: places, offset + length⟩
    else none
  | .onSeparator character offset length, .property :: places =>
    if t.bound ≤ offset ∧ character = comma then some ⟨.object :: places, offset + length⟩
    else if t.bound ≤ offset ∧ character = colon then
      some ⟨.property :: places, offset + length⟩
    else none
  | _, _ => none

inductive Allowed (len : Nat) : Track → Event ν → Track → Prop
  | comment {t : Track} {offset length : Nat} : Allowed len t (.onComment offset length) t
  | error {t : Track} {error : ParseErrorCode} {offset length : Nat} :
      Allowed len t (.onError error offset length) t
  | literal {p : Place} {places : List Place} {b offset length : Nat} {value : Literal ν}
      (hp : p.takesValue = true) (hb : b ≤ offset) (hlen : offset + length ≤ len) :
      Allowed len ⟨p :: places, b⟩ (.onLiteralValue value offset length)
        ⟨p.filled :: places, offset + length⟩
  | objectBegin {p : Place} {places : List Place} {b offset length : Nat}
      (hp : p.takesValue = true) (hb : b ≤ offset) (hlen : 0 < length) :
      Allowed len ⟨p :: places, b⟩ (.onObjectBegin offset length)
        ⟨.object :: p :: places, offset + length⟩
  | arrayBegin {p : Place} {places : List Place} {b offset length : Nat}
      (hp : p.takesValue = true) (hb : b ≤ offset) (hlen : 0 < length) :
      Allowed len ⟨p :: places, b⟩ (.onArrayBegin offset length)
        ⟨.array :: p :: places, offset + length⟩
  | name {places : List Place} {b offset length : Nat} {name : JsString} (hb : b ≤ offset) :
      Allowed len ⟨.object :: places, b⟩ (.onObjectProperty name offset length)
        ⟨.property :: places, offset + length⟩
  | objectEnd {p : Place} {places : List Place} {b offset length : Nat}
      (hb : b ≤ offset + length) :
      Allowed len ⟨.object :: p :: places, b⟩ (.onObjectEnd offset length)
        ⟨p.filled :: places, offset + length⟩
  | bareEnd {p : Place} {places : List Place} {b offset length : Nat}
      (hb : b ≤ offset + length) :
      Allowed len ⟨.property :: p :: places, b⟩ (.onObjectEnd offset length)
        ⟨p.filled :: places, offset + length⟩
  | arrayEnd {p : Place} {places : List Place} {b offset length : Nat}
      (hb : b ≤ offset + length) :
      Allowed len ⟨.array :: p :: places, b⟩ (.onArrayEnd offset length)
        ⟨p.filled :: places, offset + length⟩
  | comma {p : Place} {places : List Place} {b offset length : Nat}
      (hp : p = .array ∨ p = .object) (hb : b ≤ offset) :
      Allowed len ⟨p :: places, b⟩ (.onSeparator CharacterCodes.comma offset length)
        ⟨p :: places, offset + length⟩
  | propertyComma {places : List Place} {b offset length : Nat} (hb : b ≤ offset) :
      Allowed len ⟨.property :: places, b⟩ (.onSeparator CharacterCodes.comma offset length)
        ⟨.object :: places, offset + length⟩
  | colon {places : List Place} {b offset length : Nat} (hb : b ≤ offset) :
      Allowed len ⟨.property :: places, b⟩ (.onSeparator CharacterCodes.colon offset length)
        ⟨.property :: places, offset + length⟩

variable {len : Nat} {t : Track} {event : Event ν}

theorem Track.step_allowed {t' : Track} (h : t.step len event = some t') :
    Allowed len t event t' := by
  obtain ⟨places, b⟩ := t
  simp only [Track.step] at h
  split at h <;> (try split_ifs at h) <;> (try cases h)
  · exact .comment
  · exact .error
  · next hstep => exact .literal hstep.1 hstep.2.1 hstep.2.2
  · next hstep => exact .objectBegin hstep.1 hstep.2.1 hstep.2.2
  · next hstep => exact .arrayBegin hstep.1 hstep.2.1 hstep.2.2
  · next hstep => exact .name hstep
  · next hstep => exact .objectEnd hstep
  · next hstep => exact .bareEnd hstep
  · next hstep => exact .arrayEnd hstep
  · next hstep =>
      obtain ⟨hb, rfl⟩ := hstep
      exact .comma (.inl rfl) hb
  · next hstep =>
      obtain ⟨hb, rfl⟩ := hstep
      exact .comma (.inr rfl) hb
  · next hstep =>
      obtain ⟨hb, rfl⟩ := hstep
      exact .propertyComma hb
  · next hstep =>
      obtain ⟨hb, rfl⟩ := hstep
      exact .colon hb

def track (len : Nat) (events : List (Event ν)) : Option Track :=
  events.foldlM (Track.step len) ⟨[.text], 0⟩

theorem track_append (len : Nat) (events more : List (Event ν)) :
    track len (events ++ more) = (track len events).bind fun t => more.foldlM (Track.step len) t :=
  foldlM_append

theorem track_snoc {events : List (Event ν)} {t' : Track} (h : track len events = some t)
    (hstep : t.step len event = some t') : track len (events ++ [event]) = some t' := by
  rw [track_append, h, Option.bind_some, foldlM_cons, hstep]
  rfl

def Event.isNoise (event : Event ν) : Bool :=
  match event with
  | .onComment _ _ | .onError _ _ _ => true
  | _ => false

theorem step_noise (h : event.isNoise = true) (len : Nat) (t : Track) :
    t.step len event = some t := by
  cases event <;> first | rfl | cases h

theorem track_noise {events noise : List (Event ν)} (h : track len events = some t)
    (hnoise : ∀ e ∈ noise, e.isNoise = true) : track len (events ++ noise) = some t := by
  rw [track_append, h, Option.bind_some]
  induction noise with
  | nil => rfl
  | cons e noise ih =>
    rw [foldlM_cons, step_noise (hnoise e mem_cons_self)]
    exact ih fun e he => hnoise e (mem_cons_of_mem _ he)

section Visits

variable (numbers : Numbers ν) (options : ParseOptions) {len : Nat}

theorem reports_noise (t : Token) :
    ∀ e ∈ (reports options t : List (Event ν)), e.isNoise = true := by
  intro e he
  rw [reports, List.mem_append] at he
  rcases he with he | he
  · rw [Option.mem_toList, Option.map_eq_some_iff] at he
    obtain ⟨code, -, rfl⟩ := he
    rfl
  · split at he
    · split at he <;> rw [mem_singleton.1 he] <;> rfl
    · split at he <;> rw [mem_singleton.1 he] <;> rfl
    · rw [mem_singleton.1 he]
      rfl
    · cases he

namespace Visitor

/-- The calls so far led to `places`, and the scanner is not behind them. -/
structure Reads (len : Nat) (s : Visitor ν) (places : List Place) : Prop where
  chained : Chained len s.token s.rest
  tracked : ∃ b, track len s.events = some ⟨places, b⟩ ∧ b ≤ s.token.start

theorem scanNextFrom_reads {token : Token} {rest : List Token}
    {events : List (Event ν)} {places : List Place} {b : Nat} (hchain : Chained len token rest)
    (htrack : track len events = some ⟨places, b⟩) (hne : token.kind ≠ .EOF)
    (hb : b ≤ token.offset + token.length) : Reads len (scanNextFrom options token rest events)
    places ∧ (scanNextFrom options token rest events).rest.length < rest.length := by
  induction rest generalizing token events with
  | nil => exact absurd hchain hne
  | cons t rest ih =>
    obtain ⟨-, -, hnext, hchain⟩ := hchain
    have htrack' := track_noise htrack (reports_noise options t)
    rw [scanNextFrom]
    split
    · next hskip =>
        have hkind : t.kind ≠ .EOF := by
          intro h
          rw [h] at hskip
          cases hskip
        obtain ⟨hreads, hlt⟩ := ih hchain htrack' hkind
          ((hb.trans hnext).trans t.start_le)
        exact ⟨hreads, hlt.trans (Nat.lt_succ_self _)⟩
    · exact ⟨⟨hchain, b, htrack', hb.trans hnext⟩, Nat.lt_succ_self _⟩

variable {s : Visitor ν} {places : List Place}

theorem Reads.scanNext (h : s.Reads len places) (hne : s.token.kind ≠ .EOF) :
    (s.scanNext options).Reads len places ∧ (s.scanNext options).rest.length < s.rest.length := by
  obtain ⟨hchain, b, htrack, hb⟩ := h
  exact scanNextFrom_reads options hchain htrack hne (hb.trans s.token.start_le)

theorem Reads.emit_scanNext
    (places' : List Place) (event : Nat → Nat → Event ν) (h : s.Reads len places)
    (hne : s.token.kind ≠ .EOF) (hstep : ∀ b ≤ s.token.offset, Track.step len ⟨places, b⟩
    (event s.token.offset s.token.length) = some ⟨places', s.token.offset + s.token.length⟩) :
    ((s.emit event).scanNext options).Reads len places' ∧
    ((s.emit event).scanNext options).rest.length < s.rest.length := by
  obtain ⟨hchain, b, htrack, hb⟩ := h
  rw [Token.start_of_ne hne] at hb
  exact scanNextFrom_reads options hchain (track_snoc htrack (hstep b hb)) hne le_rfl

theorem Reads.emit_error (h : s.Reads len places) (error : ParseErrorCode) :
    (s.emit (.onError error)).Reads len places := by
  obtain ⟨hchain, b, htrack, hb⟩ := h
  exact ⟨hchain, b, track_snoc htrack rfl, hb⟩

theorem Reads.length_pos (h : s.Reads len places) (hne : s.token.kind ≠ .EOF)
    (hskip : s.token.kind.isSkipped = false) :
    0 < s.token.length ∧ s.token.offset + s.token.length ≤ len := by
  have hchain := h.chained
  cases hrest : s.rest with
  | nil =>
    rw [hrest] at hchain
    exact absurd hchain hne
  | cons t rest =>
    rw [hrest] at hchain
    obtain ⟨-, hfits, -⟩ := hchain
    exact hfits.resolve_left (by rw [hskip]; exact Bool.noConfusion)

variable {fuel : Nat} {p : Place} {parseValue : Visitor ν → Option (Visitor ν × Bool)}
  {inside : Place}

theorem Reads.skip (skipUntil : List SyntaxKind) (h : s.Reads len places)
    (hfuel : s.rest.length < fuel) : (s.skip options [] skipUntil fuel).Reads len places ∧
    (s.skip options [] skipUntil fuel).rest.length ≤ s.rest.length ∧
    ((s.skip options [] skipUntil fuel).token.kind =
    .EOF ∨ (s.skip options [] skipUntil fuel).token.kind ∈ skipUntil) ∧ (s.token.kind ≠ .EOF →
    s.token.kind ∉ skipUntil → (s.skip options [] skipUntil fuel).rest.length < s.rest.length) := by
  induction fuel generalizing s with
  | zero => omega
  | succ fuel ih =>
    rw [Visitor.skip]
    split
    · next heof => exact ⟨h, le_rfl, .inl heof, fun hne => absurd heof hne⟩
    · next hne =>
        rw [if_neg not_mem_nil]
        split
        · next hmem => exact ⟨h, le_rfl, .inr hmem, fun _ hnot => absurd hmem hnot⟩
        · obtain ⟨hnext, hlt⟩ := h.scanNext options hne
          obtain ⟨hreads, hle, hstop, -⟩ := ih hnext (by omega)
          exact ⟨hreads, by omega, hstop, fun _ _ => by omega⟩

theorem Reads.handleError (error : ParseErrorCode) {skipUntil : List SyntaxKind}
    (hskip : skipUntil ≠ []) (h : s.Reads len places) : (s.handleError options error
    [] skipUntil).Reads len places ∧ (s.handleError options error [] skipUntil).rest.length ≤
    s.rest.length ∧ ((s.handleError options error [] skipUntil).token.kind =
    .EOF ∨ (s.handleError options error [] skipUntil).token.kind ∈ skipUntil) ∧
    (s.token.kind ≠ .EOF → s.token.kind ∉ skipUntil →
    (s.handleError options error [] skipUntil).rest.length < s.rest.length) := by
  have hpos : ([] : List SyntaxKind).length + skipUntil.length > 0 := by
    rw [length_nil, Nat.zero_add]
    exact length_pos_iff.2 hskip
  rw [Visitor.handleError, if_pos hpos]
  exact (h.emit_error error).skip options skipUntil (Nat.lt_succ_self _)

theorem parseString_reads (h : s.Reads len (p :: places)) (hp : p.takesValue = true)
    (hkind : s.token.kind = .StringLiteral) : (s.parseString options true).Reads len
    (p.filled :: places) ∧ (s.parseString options true).rest.length < s.rest.length := by
  have hne : s.token.kind ≠ .EOF := by rw [hkind]; exact SyntaxKind.noConfusion
  have hlen := h.length_pos hne (by rw [hkind]; rfl)
  refine h.emit_scanNext options _ _ hne fun b hb => ?_
  simp [Track.step, hp, hb, hlen.2]

theorem parseName_reads (h : s.Reads len (.object :: places))
    (hkind : s.token.kind = .StringLiteral) : (s.parseString options false).Reads len
    (.property :: places) ∧ (s.parseString options false).rest.length < s.rest.length := by
  have hne : s.token.kind ≠ .EOF := by rw [hkind]; exact SyntaxKind.noConfusion
  refine h.emit_scanNext options _ _ hne fun b hb => ?_
  simp [Track.step, hb]

theorem emitLiteral_reads (h : s.Reads len (p :: places)) (hp : p.takesValue = true)
    (hne : s.token.kind ≠ .EOF) (hskip : s.token.kind.isSkipped = false) (value : Literal ν) :
    ((s.emit (.onLiteralValue value)).scanNext options).Reads len (p.filled :: places) ∧
      ((s.emit (.onLiteralValue value)).scanNext options).rest.length < s.rest.length := by
  have hlen := h.length_pos hne hskip
  refine h.emit_scanNext options _ _ hne fun b hb => ?_
  simp [Track.step, hp, hb, hlen.2]

/-- What the parser of a value does to the places: with a value at the token one
value, without it nothing. -/
def ReadsValue (len : Nat) (parseValue : Visitor ν → Option (Visitor ν × Bool))
    (fuel : Nat) : Prop :=
  ∀ (s : Visitor ν) (p : Place) (places : List Place), s.Reads len (p :: places) →
    p.takesValue = true → s.rest.length < fuel →
    ∃ s' ok, parseValue s = some (s', ok) ∧ (ok = false → s' = s) ∧
      (ok = true → s'.Reads len (p.filled :: places) ∧ s'.rest.length < s.rest.length)

theorem parseLiteral_reads (h : s.Reads len (p :: places)) (hp : p.takesValue = true) :
    ∃ s' ok, s.parseLiteral numbers options = (s', ok) ∧ (ok = false → s' = s) ∧
      (ok = true → s'.Reads len (p.filled :: places) ∧ s'.rest.length < s.rest.length) := by
  have hliteral (kind : SyntaxKind) (hkind : s.token.kind = kind) (hne : kind ≠ .EOF)
      (hskip : kind.isSkipped = false) (value : Literal ν) :=
    emitLiteral_reads options h hp (hkind ▸ hne) (hkind ▸ hskip) value
  rw [parseLiteral]
  split
  · next hkind =>
      split
      · exact ⟨_, _, rfl, Bool.noConfusion, fun _ =>
          hliteral _ hkind SyntaxKind.noConfusion rfl _⟩
      · exact ⟨_, _, rfl, Bool.noConfusion, fun _ =>
          emitLiteral_reads options (h.emit_error .InvalidNumberFormat) hp
            (ne_of_eq_of_ne hkind SyntaxKind.noConfusion)
            (congrArg SyntaxKind.isSkipped hkind) _⟩
  · next hkind =>
      exact ⟨_, _, rfl, Bool.noConfusion, fun _ => hliteral _ hkind SyntaxKind.noConfusion rfl _⟩
  · next hkind =>
      exact ⟨_, _, rfl, Bool.noConfusion, fun _ => hliteral _ hkind SyntaxKind.noConfusion rfl _⟩
  · next hkind =>
      exact ⟨_, _, rfl, Bool.noConfusion, fun _ => hliteral _ hkind SyntaxKind.noConfusion rfl _⟩
  · exact ⟨_, _, rfl, fun _ => rfl, Bool.noConfusion⟩

/-- Between two items of an array or an object. A property may still wait for its
value, but then the next thing is a comma or the end. -/
def Open (len : Nat) (inside : Place) (s : Visitor ν) (places : List Place) : Prop :=
  s.Reads len (inside :: places) ∨
    inside = .object ∧ s.Reads len (.property :: places) ∧
      (s.token.kind = .EOF ∨ s.token.kind ∈ [SyntaxKind.CloseBraceToken, .CommaToken])

def round (options : ParseOptions) (close : SyntaxKind)
    (parseItem : Visitor ν → Option (Visitor ν × Bool)) (s : Visitor ν) : Option (Visitor ν) :=
  match parseItem s with
  | none => none
  | some (s, true) => some s
  | some (s, false) => some (s.handleError options .ValueExpected [] [close, .CommaToken])

def ReadsItem (len : Nat) (options : ParseOptions) (close : SyntaxKind) (inside : Place)
    (parseItem : Visitor ν → Option (Visitor ν × Bool)) (fuel : Nat) : Prop :=
  ∀ (s : Visitor ν) (places : List Place), s.Reads len (inside :: places) →
    s.rest.length < fuel →
    ∃ s', round options close parseItem s = some s' ∧ Open len inside s' places ∧
      s'.rest.length ≤ s.rest.length ∧
      (s.token.kind ≠ .EOF → s.token.kind ∉ [close, .CommaToken] →
        s'.rest.length < s.rest.length)

theorem ReadsValue.item (h : ReadsValue len parseValue fuel) :
    ReadsItem len options .CloseBracketToken .array parseValue fuel := by
  intro s places hs hfuel
  obtain ⟨s', ok, hparse, hfalse, htrue⟩ := h s .array places hs rfl hfuel
  simp only [round, hparse]
  cases ok with
  | true =>
    obtain ⟨hreads, hlt⟩ := htrue rfl
    exact ⟨_, rfl, .inl hreads, hlt.le, fun _ _ => hlt⟩
  | false =>
    obtain rfl := hfalse rfl
    obtain ⟨hreads, hle, -, hlt⟩ :=
      hs.handleError options .ValueExpected (cons_ne_nil _ _)
    exact ⟨_, rfl, .inl hreads, hle, hlt⟩

theorem parseColon_reads
    (h : s.Reads len (.property :: places)) (hkind : s.token.kind = .ColonToken) :
    ((s.emit (.onSeparator colon)).scanNext options).Reads len (.property :: places) ∧
    ((s.emit (.onSeparator colon)).scanNext options).rest.length < s.rest.length := by
  refine h.emit_scanNext options _ _ (ne_of_eq_of_ne hkind SyntaxKind.noConfusion) fun b hb => ?_
  have hne : ¬colon = comma := by decide
  simp [Track.step, hb, hne]

/-- A property left without its value: `handleError` went on to the next comma or
the end. -/
theorem handleError_open (error : ParseErrorCode) (h : s.Reads len (.property :: places)) : Open len
    .object (s.handleError options error [] [.CloseBraceToken, .CommaToken]) places ∧ (s.handleError
    options error [] [.CloseBraceToken, .CommaToken]).rest.length ≤ s.rest.length := by
  obtain ⟨hreads, hle, hstop, -⟩ :=
    h.handleError options error (cons_ne_nil .CloseBraceToken [.CommaToken])
  exact ⟨.inr ⟨rfl, hreads, hstop⟩, hle⟩

theorem ReadsValue.property {parseValue : Visitor ν → Option (Visitor ν × Bool)} {fuel : Nat}
    (h : ReadsValue len parseValue fuel) :
    ReadsItem len options .CloseBraceToken .object (parseProperty options parseValue) fuel := by
  intro s places hs hfuel
  by_cases hkind : s.token.kind = .StringLiteral
  · obtain ⟨hname, hlt⟩ := parseName_reads options hs hkind
    by_cases hcolon : (s.parseString options false).token.kind = .ColonToken
    · obtain ⟨hvalue, hlt'⟩ := parseColon_reads options hname hcolon
      obtain ⟨s', ok, hparse, hfalse, htrue⟩ := h _ .property places hvalue rfl (by omega)
      cases ok with
      | true =>
        obtain ⟨hreads, hlt''⟩ := htrue rfl
        refine ⟨s', ?_, .inl hreads, by omega, fun _ _ => by omega⟩
        simp [round, parseProperty, hkind, hcolon, hparse]
      | false =>
        obtain rfl := hfalse rfl
        obtain ⟨hopen, hle⟩ := handleError_open options .ValueExpected hvalue
        refine ⟨_, ?_, hopen, by omega, fun _ _ => by omega⟩
        simp [round, parseProperty, hkind, hcolon, hparse]
    · obtain ⟨hopen, hle⟩ := handleError_open options .ColonExpected hname
      refine ⟨_, ?_, hopen, by omega, fun _ _ => by omega⟩
      simp [round, parseProperty, hkind, hcolon]
  · obtain ⟨hfirst, hle, -, hlt⟩ := hs.handleError options .PropertyNameExpected
      (List.cons_ne_nil .CloseBraceToken [.CommaToken])
    obtain ⟨hsecond, hle', -, -⟩ := hfirst.handleError options .ValueExpected
      (List.cons_ne_nil .CloseBraceToken [.CommaToken])
    refine ⟨_, ?_, .inl hsecond, by omega, fun hne hnot => ?_⟩
    · simp [round, parseProperty, hkind]
    · have := hlt hne hnot
      omega

theorem parseItems_succ (options : ParseOptions) (close : SyntaxKind)
    (parseItem : Visitor ν → Option (Visitor ν × Bool)) (fuel : Nat) (needsComma : Bool)
    (s : Visitor ν) :
    s.parseItems options close parseItem (fuel + 1) needsComma =
      if s.token.kind = close ∨ s.token.kind = .EOF then some s
      else if s.token.kind = .CommaToken then
        let s := if needsComma then s else s.handleError options .ValueExpected [] []
        let s := (s.emit (.onSeparator comma)).scanNext options
        if s.token.kind = close ∧ options.allowTrailingComma then some s
        else (round options close parseItem s).bind (parseItems options close parseItem fuel true)
      else
        (round options close parseItem
          (if needsComma then s.handleError options .CommaExpected [] [] else s)).bind
            (parseItems options close parseItem fuel true) := by
  rw [parseItems]
  simp only [round]
  refine if_congr Iff.rfl rfl (if_congr Iff.rfl (if_congr Iff.rfl rfl ?_) ?_)
  all_goals
    generalize parseItem _ = result
    rcases result with _ | ⟨s', _ | _⟩ <;> rfl

theorem Open.separated (h : Open len inside s places) (hinside : inside = .array ∨ inside = .object)
    (hkind : s.token.kind = .CommaToken) (needsComma : Bool) : (((if needsComma then s else
    s.handleError options .ValueExpected [] []).emit (.onSeparator comma)).scanNext options).Reads
    len (inside :: places) ∧ (((if needsComma then s else s.handleError options .ValueExpected []
    []).emit (.onSeparator comma)).scanNext options).rest.length < s.rest.length := by
  have hfrom {p : Place} (s : Visitor ν) (hs : s.Reads len (p :: places))
      (hkind : s.token.kind = .CommaToken) (hp : p = inside ∨ inside = .object ∧ p = .property) :
      ((s.emit (.onSeparator comma)).scanNext options).Reads len (inside :: places) ∧
        ((s.emit (.onSeparator comma)).scanNext options).rest.length < s.rest.length := by
    refine hs.emit_scanNext options _ _ (ne_of_eq_of_ne hkind SyntaxKind.noConfusion) fun b hb => ?_
    rcases hp with rfl | ⟨rfl, rfl⟩
    · rcases hinside with rfl | rfl <;> simp [Track.step, hb]
    · simp [Track.step, hb]
  rcases h with h | ⟨hobject, h, -⟩
  · cases needsComma with
    | true => exact hfrom s h hkind (.inl rfl)
    | false => exact hfrom _ (h.emit_error _) hkind (.inl rfl)
  · cases needsComma with
    | true => exact hfrom s h hkind (.inr ⟨hobject, rfl⟩)
    | false => exact hfrom _ (h.emit_error _) hkind (.inr ⟨hobject, rfl⟩)

theorem parseItems_open
    {close : SyntaxKind} {parseItem : Visitor ν → Option (Visitor ν × Bool)} {bound : Nat}
    (fuel : Nat) (needsComma : Bool) (hitem : ReadsItem len options close inside parseItem bound)
    (hinside : inside = .array ∨ inside = .object ∧ close = .CloseBraceToken)
    (h : Open len inside s places) (hbound : s.rest.length < bound) (hfuel : s.rest.length < fuel) :
    ∃ s', s.parseItems options close parseItem fuel needsComma = some s' ∧ Open len inside s'
    places ∧ (s'.token.kind = close ∨ s'.token.kind = .EOF) ∧ s'.rest.length ≤ s.rest.length := by
  induction fuel generalizing s needsComma with
  | zero => omega
  | succ fuel ih =>
    rw [parseItems_succ]
    split
    · next hstop => exact ⟨s, rfl, h, hstop, le_rfl⟩
    · next hstop =>
        obtain ⟨hclose, heof⟩ := not_or.1 hstop
        split
        · next hcomma =>
            obtain ⟨hreads, hlt⟩ := h.separated options (hinside.imp_right And.left)
              hcomma needsComma
            simp only
            generalize Visitor.scanNext options _ = next at hreads hlt ⊢
            split
            · next htrailing => exact ⟨_, rfl, .inl hreads, .inl htrailing.1, hlt.le⟩
            · obtain ⟨s', hround, hopen, hle, -⟩ := hitem _ places hreads (by omega)
              rw [hround, Option.bind_some]
              obtain ⟨s'', hparse, hopen', hstop', hle'⟩ :=
                ih true hopen (by omega) (by omega)
              exact ⟨s'', hparse, hopen', hstop', by omega⟩
        · next hcomma =>
            have hreads : s.Reads len (inside :: places) := by
              rcases h with h | ⟨rfl, -, hstop⟩
              · exact h
              · have hbrace := (hinside.resolve_left Place.noConfusion).2
                simp only [mem_cons, not_mem_nil, or_false] at hstop
                rcases hstop with hstop | hstop | hstop
                · exact absurd hstop heof
                · exact absurd (hstop.trans hbrace.symm) hclose
                · exact absurd hstop hcomma
            have hnot : s.token.kind ∉ [close, .CommaToken] := by
              simp only [mem_cons, not_mem_nil, or_false, not_or]
              exact ⟨hclose, hcomma⟩
            obtain ⟨s', hround, hopen, hlt⟩ : ∃ s', round options close parseItem
                (if needsComma then s.handleError options .CommaExpected [] [] else s) =
                  some s' ∧ Open len inside s' places ∧ s'.rest.length < s.rest.length := by
              cases needsComma with
              | true =>
                obtain ⟨s', hround, hopen, -, hlt⟩ :=
                  hitem _ places (hreads.emit_error .CommaExpected) hbound
                exact ⟨s', hround, hopen, hlt heof hnot⟩
              | false =>
                obtain ⟨s', hround, hopen, -, hlt⟩ := hitem s places hreads hbound
                exact ⟨s', hround, hopen, hlt heof hnot⟩
            rw [hround, Option.bind_some]
            obtain ⟨s'', hparse, hopen', hstop', hle'⟩ :=
              ih true hopen (by omega) (by omega)
            exact ⟨s'', hparse, hopen', hstop', by omega⟩

theorem closeWith_reads {close : SyntaxKind} (expected : ParseErrorCode)
    {event : Nat → Nat → Event ν} (hne : close ≠ .EOF) (h : s.Reads len (inside :: p :: places))
    (hstop : s.token.kind = close ∨ s.token.kind = .EOF)
    (hstep : ∀ b ≤ s.token.offset + s.token.length, Track.step len ⟨inside :: p :: places, b⟩
    (event s.token.offset s.token.length) = some ⟨p.filled :: places,
    s.token.offset + s.token.length⟩) :
    ((s.emit event).closeWith options close expected).Reads len (p.filled :: places) ∧
      ((s.emit event).closeWith options close expected).rest.length ≤ s.rest.length := by
  obtain ⟨hchain, b, htrack, hb⟩ := h
  have htrack' := track_snoc htrack (hstep b (hb.trans s.token.start_le))
  rw [closeWith]
  split
  · next hkind =>
      have heof : s.token.kind = .EOF := hstop.resolve_left hkind
      have hreads : (s.emit event).Reads len (p.filled :: places) :=
        ⟨hchain, _, htrack', (Token.start_of_eof heof).ge⟩
      have hskip : (s.emit event).handleError options expected [close] [] =
          (s.emit event).emit (.onError expected) := by
        rw [Visitor.handleError, if_pos (by simp), Visitor.skip]
        exact if_pos heof
      rw [hskip]
      exact ⟨hreads.emit_error expected, le_rfl⟩
  · next hkind =>
      rw [not_not] at hkind
      obtain ⟨hreads, hlt⟩ := scanNextFrom_reads options hchain htrack'
        (ne_of_eq_of_ne hkind hne) le_rfl
      exact ⟨hreads, hlt.le⟩

theorem parseArray_reads (hvalue : ReadsValue len parseValue fuel) (h : s.Reads len (p :: places))
    (hp : p.takesValue = true) (hkind : s.token.kind = .OpenBracketToken)
    (hfuel : s.rest.length < fuel + 1) : ∃ s', s.parseArray options parseValue fuel = some s' ∧
    s'.Reads len (p.filled :: places) ∧ s'.rest.length < s.rest.length := by
  have hne : s.token.kind ≠ .EOF := ne_of_eq_of_ne hkind SyntaxKind.noConfusion
  have hlen := h.length_pos hne (congrArg SyntaxKind.isSkipped hkind)
  obtain ⟨hbegin, hlt⟩ := h.emit_scanNext options (.array :: p :: places) .onArrayBegin
    hne fun b hb => by simp [Track.step, hp, hb, hlen.1]
  obtain ⟨s', hitems, hopen, hstop, hle⟩ := parseItems_open options fuel false
    (hvalue.item options) (.inl rfl) (.inl hbegin) (by omega) (by omega)
  have hreads : s'.Reads len (.array :: p :: places) :=
    hopen.resolve_right fun hobject => absurd hobject.1 Place.noConfusion
  have hstep : ∀ b ≤ s'.token.offset + s'.token.length, Track.step len ⟨.array :: p :: places, b⟩
        (.onArrayEnd s'.token.offset s'.token.length : Event ν) =
          some ⟨p.filled :: places, s'.token.offset + s'.token.length⟩ :=
    fun b hb => by simp [Track.step, hb]
  obtain ⟨hclosed, hle'⟩ := closeWith_reads options .CloseBracketExpected
    SyntaxKind.noConfusion hreads hstop hstep
  refine ⟨_, ?_, hclosed, by omega⟩
  simp only [parseArray, hitems]

theorem parseObject_reads (hvalue : ReadsValue len parseValue fuel) (h : s.Reads len (p :: places))
    (hp : p.takesValue = true) (hkind : s.token.kind = .OpenBraceToken)
    (hfuel : s.rest.length < fuel + 1) : ∃ s', s.parseObject options parseValue fuel = some s' ∧
    s'.Reads len (p.filled :: places) ∧ s'.rest.length < s.rest.length := by
  have hne : s.token.kind ≠ .EOF := ne_of_eq_of_ne hkind SyntaxKind.noConfusion
  have hlen := h.length_pos hne (congrArg SyntaxKind.isSkipped hkind)
  obtain ⟨hbegin, hlt⟩ := h.emit_scanNext options (.object :: p :: places) .onObjectBegin
    hne fun b hb => by simp [Track.step, hp, hb, hlen.1]
  obtain ⟨s', hitems, hopen, hstop, hle⟩ := parseItems_open options fuel false
    (hvalue.property options) (.inr ⟨rfl, rfl⟩) (.inl hbegin) (by omega) (by omega)
  obtain ⟨inside, hreads, hstep⟩ : ∃ inside, s'.Reads len (inside :: p :: places) ∧
      ∀ b ≤ s'.token.offset + s'.token.length, Track.step len ⟨inside :: p :: places, b⟩
          (.onObjectEnd s'.token.offset s'.token.length : Event ν) =
            some ⟨p.filled :: places, s'.token.offset + s'.token.length⟩ := by
    rcases hopen with hreads | ⟨-, hreads, -⟩
    · exact ⟨_, hreads, fun b hb => by simp [Track.step, hb]⟩
    · exact ⟨_, hreads, fun b hb => by simp [Track.step, hb]⟩
  obtain ⟨hclosed, hle'⟩ := closeWith_reads options .CloseBraceExpected
    SyntaxKind.noConfusion hreads hstop hstep
  refine ⟨_, ?_, hclosed, by omega⟩
  simp only [parseObject, hitems]

theorem parseValue_reads (fuel : Nat) :
    ReadsValue len (Visitor.parseValue numbers options fuel) fuel := by
  induction fuel with
  | zero =>
    intro s p places _ _ hfuel
    omega
  | succ fuel ih =>
    intro s p places h hp hfuel
    rw [Visitor.parseValue]
    split
    · next hkind =>
        obtain ⟨s', hparse, hreads, hlt⟩ := parseArray_reads options ih h hp hkind
          hfuel
        exact ⟨s', true, by rw [hparse]; rfl, Bool.noConfusion, fun _ => ⟨hreads, hlt⟩⟩
    · next hkind =>
        obtain ⟨s', hparse, hreads, hlt⟩ := parseObject_reads options ih h hp hkind
          hfuel
        exact ⟨s', true, by rw [hparse]; rfl, Bool.noConfusion, fun _ => ⟨hreads, hlt⟩⟩
    · next hkind =>
        exact ⟨_, true, rfl, Bool.noConfusion, fun _ => parseString_reads options h hp hkind⟩
    · obtain ⟨s', ok, hparse, hfalse, htrue⟩ :=
        parseLiteral_reads numbers options h hp
      exact ⟨s', ok, congrArg some hparse, hfalse, htrue⟩

end Visitor

theorem visitTokens_tracked {t : Token} {rest : List Token} (hchain : Chained len t rest) :
    ∃ events place b, visitTokens numbers options (t :: rest) = some events ∧
      track len events = some ⟨[place], b⟩ ∧ (place = .text ∨ place = .after) := by
  have hfirst : (⟨unscanned, t :: rest, []⟩ : Visitor ν).Reads len [.text] :=
    ⟨⟨SyntaxKind.noConfusion, .inl rfl, Nat.zero_le _, hchain⟩, 0, rfl, Nat.zero_le _⟩
  obtain ⟨h, hlt⟩ := hfirst.scanNext options SyntaxKind.noConfusion
  simp only [visitTokens]
  generalize Visitor.scanNext options _ = s at h hlt ⊢
  have hsnoc (s : Visitor ν) (place : Place) (hs : s.Reads len [place]) (error : ParseErrorCode) :
      ∃ b, track len (s.handleError options error [] []).events = some ⟨[place], b⟩ := by
    obtain ⟨-, b, htrack, -⟩ := hs.emit_error error
    exact ⟨b, htrack⟩
  split
  · split
    · obtain ⟨-, b, htrack, -⟩ := h
      exact ⟨_, _, b, rfl, htrack, .inl rfl⟩
    · obtain ⟨b, htrack⟩ := hsnoc s _ h .ValueExpected
      exact ⟨_, _, b, rfl, htrack, .inl rfl⟩
  · obtain ⟨s', ok, hparse, hfalse, htrue⟩ := Visitor.parseValue_reads numbers options
      ((t :: rest).length + 1) s .text [] h rfl (hlt.trans (Nat.lt_succ_self _))
    rw [hparse]
    cases ok with
    | false =>
      obtain rfl := hfalse rfl
      obtain ⟨b, htrack⟩ := hsnoc s' _ h .ValueExpected
      exact ⟨_, _, b, rfl, htrack, .inl rfl⟩
    | true =>
      obtain ⟨hreads, -⟩ := htrue rfl
      simp only
      split
      · obtain ⟨b, htrack⟩ := hsnoc s' _ hreads .EndOfFileExpected
        exact ⟨_, _, b, rfl, htrack, .inr rfl⟩
      · obtain ⟨-, b, htrack, -⟩ := hreads
        exact ⟨_, _, b, rfl, htrack, .inr rfl⟩

theorem visit_tracked (text : JsString) : ∃ events place b, visit numbers options text = some
    events ∧ track text.length events = some ⟨[place], b⟩ ∧ (place = .text ∨ place = .after) := by
  obtain ⟨t, rest, hscan, -, hchain⟩ := scanAll_chained text
  rw [visit, hscan]
  exact visitTokens_tracked numbers options hchain

end Visits

end CodeOss.Json
