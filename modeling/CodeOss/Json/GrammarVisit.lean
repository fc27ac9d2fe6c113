import CodeOss.Json.Grammar
import CodeOss.Json.ReadersAgree

/-! On a text of the grammar the visitor reports no error, and `parse` comes to the
value that the grammar gives it. -/

namespace CodeOss.Json

open CharacterCodes List

variable {ν : Type}

def Event.isError (event : Event ν) : Bool :=
  match event with
  | .onError _ _ _ => true
  | _ => false

section Visits

variable (numbers : Numbers ν) (options : ParseOptions)

/-- The scanner stands on the first of the terminals; a token is ahead for each. -/
inductive Visitor.At (s : Visitor ν) : List Terminal → Prop
  | nil (hkind : s.token.kind = .EOF) : Visitor.At s []
  | cons {terminal : Terminal} {ts : List Terminal} (hkind : s.token.kind = terminal.kind)
      (hvalue : terminal.HasValue s.token.value) (h : Shows s.rest ts) :
      Visitor.At s (terminal :: ts)

/-- Comments and white space pass without an error and change no reader. -/
def Quiet (told : List (Event ν)) : Prop :=
  (∀ e ∈ told, e.isError = false) ∧ ∀ q : Parse.State ν, told.foldlM Parse.State.visit q = some q

variable {told : List (Event ν)} {ts : List Terminal} {s : Visitor ν} {t close : Terminal}
  {parseItem : Visitor ν → Option (Visitor ν × Bool)} {fuel : Nat} {rest : List Terminal}

theorem quiet_append {more : List (Event ν)} (h : Quiet told) (h' : Quiet more) :
    Quiet (told ++ more) := by
  refine ⟨fun e he => (List.mem_append.1 he).elim (h.1 e) (h'.1 e), fun q => ?_⟩
  rw [foldlM_append, h.2]
  exact h'.2 q

theorem quiet_nil : Quiet ([] : List (Event ν)) :=
  ⟨fun _ he => (not_mem_nil he).elim, fun _ => rfl⟩

theorem reports_of_noError {t : Token} (herror : t.error = .None) (hkind : t.kind ≠ .Unknown)
    (hoptions : options.disallowComments = false) : Quiet (reports options t : List (Event ν)) := by
  rw [reports, herror]
  simp only [scanErrorCode, Option.map_none, Option.toList_none, nil_append, hoptions]
  split
  · exact ⟨fun e he => by rw [mem_singleton.1 he]; rfl, fun _ => rfl⟩
  · exact ⟨fun e he => by rw [mem_singleton.1 he]; rfl, fun _ => rfl⟩
  · next h => exact absurd h hkind
  · exact quiet_nil

theorem isSkipped_of_isBlank {t : Token} (h : t.isBlank) :
    t.kind.isSkipped = true ∧ t.kind ≠ .Unknown := by
  obtain ⟨hblank, -⟩ := h
  cases hkind : t.kind <;> rw [hkind] at hblank <;>
    first | exact ⟨rfl, SyntaxKind.noConfusion⟩ | cases hblank

theorem Terminal.kind_facts (terminal : Terminal) :
    terminal.kind.isSkipped = false ∧ terminal.kind ≠ .Unknown ∧ terminal.kind ≠ .EOF := by
  cases terminal with
  | boolean b => cases b <;> exact ⟨rfl, SyntaxKind.noConfusion, SyntaxKind.noConfusion⟩
  | _ => exact ⟨rfl, SyntaxKind.noConfusion, SyntaxKind.noConfusion⟩

variable {options}

theorem scanNextFrom_shows (hoptions : options.disallowComments = false) (token : Token)
    {rest : List Token} (h : Shows rest ts) (events : List (Event ν)) : ∃ told, Quiet told ∧
    (scanNextFrom options token rest events).events = events ++ told ∧ (scanNextFrom options token
    rest events).At ts ∧ (scanNextFrom options token rest events).rest.length < rest.length := by
  have hskip (blanks : List Token) (hblanks : ∀ b ∈ blanks, Token.isBlank b) (t : Token)
      (tail : List Token) (ht : t.kind.isSkipped = false) (token : Token)
      (events : List (Event ν)) :
      ∃ told, Quiet told ∧ scanNextFrom options token (blanks ++ t :: tail) events =
        ⟨t, tail, events ++ told ++ reports options t⟩ := by
    induction blanks generalizing token events with
    | nil =>
      refine ⟨[], quiet_nil, ?_⟩
      rw [nil_append, scanNextFrom, if_neg (by simp [ht]), append_nil]
    | cons b blanks ih =>
      obtain ⟨hb, hblanks⟩ := forall_mem_cons.1 hblanks
      obtain ⟨hbskip, hbkind⟩ := isSkipped_of_isBlank hb
      obtain ⟨told, htold, heq⟩ := ih hblanks b (events ++ reports options b)
      refine ⟨reports options b ++ told,
        quiet_append (reports_of_noError (ν := ν) options hb.2 hbkind hoptions) htold, ?_⟩
      rw [cons_append, scanNextFrom, if_pos hbskip, heq]
      simp only [append_assoc]
  cases h with
  | @nil blanks t hblanks ht herror =>
    obtain ⟨told, htold, heq⟩ := hskip blanks hblanks t [] (by rw [ht]; rfl) token events
    have hreports := reports_of_noError (ν := ν) options herror
      (ne_of_eq_of_ne ht SyntaxKind.noConfusion) hoptions
    refine ⟨told ++ reports options t, quiet_append htold hreports, ?_, ?_, ?_⟩
    · rw [heq, append_assoc]
    · rw [heq]
      exact .nil ht
    · simp only [heq, length_append, length_cons, length_nil]
      omega
  | @cons blanks rest t terminal ts hblanks hkind herror hvalue h =>
    obtain ⟨hskipped, hunknown, -⟩ := terminal.kind_facts
    obtain ⟨told, htold, heq⟩ :=
      hskip blanks hblanks t rest (by rw [hkind]; exact hskipped) token events
    have hreports := reports_of_noError (ν := ν) options herror (by rwa [hkind]) hoptions
    refine ⟨told ++ reports options t, quiet_append htold hreports, ?_, ?_, ?_⟩
    · rw [heq, append_assoc]
    · rw [heq]
      exact .cons hkind hvalue h
    · simp only [heq, length_append, length_cons]
      omega

theorem Visitor.At.advance (hoptions : options.disallowComments = false) (h : s.At (t :: ts))
    (event : Nat → Nat → Event ν) : ∃ told, Quiet told ∧ ((s.emit event).scanNext options).events =
    s.events ++ event s.token.offset s.token.length :: told ∧ ((s.emit event).scanNext options).At
    ts ∧ ((s.emit event).scanNext options).rest.length < s.rest.length := by
  cases h with
  | cons _ _ h =>
    obtain ⟨told, htold, hevents, hat, hlt⟩ := scanNextFrom_shows hoptions s.token h
      (s.events ++ [event s.token.offset s.token.length])
    refine ⟨told, htold, ?_, hat, hlt⟩
    rw [Visitor.scanNext]
    exact hevents.trans (by rw [append_assoc]; rfl)

/-- Calls that give the reader exactly one value. -/
def Gives (told : List (Event ν)) (value : JsValue ν) : Prop :=
  (∀ e ∈ told, e.isError = false) ∧
    ((∀ e ∈ told, e.isProto = false) → ∀ parent name previous, ∃ name',
      told.foldlM Parse.State.visit ⟨name, parent, previous⟩ =
        some ⟨name', parent.onValue name value, previous⟩)

/-- Calls that turn one current parent into another. -/
def Turns (told : List (Event ν)) (parent parent' : Parse.Parent ν) : Prop :=
  (∀ e ∈ told, e.isError = false) ∧
    ((∀ e ∈ told, e.isProto = false) → ∀ name previous, ∃ name',
      told.foldlM Parse.State.visit ⟨name, parent, previous⟩ = some ⟨name', parent', previous⟩)

theorem Turns.trans {more : List (Event ν)} {p p' p'' : Parse.Parent ν} (h : Turns told p p')
    (h' : Turns more p' p'') : Turns (told ++ more) p p'' := by
  refine ⟨fun e he => (List.mem_append.1 he).elim (h.1 e) (h'.1 e), fun hproto name previous => ?_⟩
  obtain ⟨name', heq⟩ := h.2 (fun e he => hproto e (mem_append_left _ he)) name previous
  obtain ⟨name'', heq'⟩ := h'.2 (fun e he => hproto e (mem_append_right _ he)) name' previous
  exact ⟨name'', by rw [foldlM_append, heq]; exact heq'⟩

theorem Quiet.turns (h : Quiet told) (p : Parse.Parent ν) : Turns told p p :=
  ⟨h.1, fun _ name _ => ⟨name, h.2 _⟩⟩

theorem Gives.turns {value : JsValue ν} (h : Gives told value) (els : List (JsValue ν)) :
    Turns told (.array els) (.array (els ++ [value])) :=
  ⟨h.1, fun hproto name previous => h.2 hproto _ name previous⟩

theorem Gives.literal {literal : Literal ν} {offset length : Nat} {told : List (Event ν)}
    (h : Quiet told) : Gives (.onLiteralValue literal offset length :: told) literal.value := by
  refine ⟨List.forall_mem_cons.2 ⟨rfl, h.1⟩, fun _ parent name previous => ⟨name, ?_⟩⟩
  exact h.2 _

theorem Gives.array {offset length offset' length' : Nat} {told more : List (Event ν)}
    {els : List (JsValue ν)} (h : Turns told (.array []) (.array els)) (hmore : Quiet more) : Gives
    (.onArrayBegin offset length :: told ++ .onArrayEnd offset' length' :: more) (.array els) := by
  refine ⟨List.forall_mem_append.2 ⟨List.forall_mem_cons.2 ⟨rfl, h.1⟩,
    List.forall_mem_cons.2 ⟨rfl, hmore.1⟩⟩, fun hproto parent name previous => ?_⟩
  obtain ⟨name', heq⟩ := h.2 (fun e he => hproto e (by simp [he])) none ((parent, name) :: previous)
  refine ⟨name', ?_⟩
  rw [List.foldlM_append, List.foldlM_cons]
  show ((told.foldlM Parse.State.visit ⟨none, .array [], (parent, name) :: previous⟩).bind _) = _
  rw [heq]
  exact hmore.2 _

theorem Gives.object {offset length offset' length' : Nat}
    {told more : List (Event ν)} {members : List (JsString × JsValue ν)}
    (h : Turns told (.object []) (.object members)) (hmore : Quiet more) : Gives (.onObjectBegin
    offset length :: told ++ .onObjectEnd offset' length' :: more) (.object members) := by
  refine ⟨List.forall_mem_append.2 ⟨List.forall_mem_cons.2 ⟨rfl, h.1⟩,
    List.forall_mem_cons.2 ⟨rfl, hmore.1⟩⟩, fun hproto parent name previous => ?_⟩
  obtain ⟨name', heq⟩ := h.2 (fun e he => hproto e (by simp [he])) none ((parent, name) :: previous)
  refine ⟨name', ?_⟩
  rw [List.foldlM_append, List.foldlM_cons]
  show ((told.foldlM Parse.State.visit ⟨none, .object [], (parent, name) :: previous⟩).bind _) = _
  rw [heq]
  exact hmore.2 _

theorem Gives.member {name : JsString} {value : JsValue ν} {offset length offset' length' : Nat}
    {told' told'' : List (Event ν)} (h : Gives told'' value) (hquiet : Quiet told)
    (hquiet' : Quiet told') (obj : List (JsString × JsValue ν)) : Turns (.onObjectProperty
    name offset length :: told ++ (.onSeparator colon offset' length' :: told' ++ told''))
    (.object obj) (.object (JsMap.upsert name value obj)) := by
  refine ⟨?_, fun hproto slot previous => ?_⟩
  · refine forall_mem_append.2 ⟨forall_mem_cons.2 ⟨rfl, hquiet.1⟩,
      forall_mem_append.2 ⟨forall_mem_cons.2 ⟨rfl, hquiet'.1⟩, h.1⟩⟩
  · have hname : name ≠ protoKey := by
      have := hproto (.onObjectProperty name offset length) (by simp)
      exact of_decide_eq_false this
    obtain ⟨name', heq⟩ :=
      h.2 (fun e he => hproto e (by simp [he])) (.object obj) (some name) previous
    refine ⟨name', ?_⟩
    rw [foldlM_append, foldlM_cons]
    show ((told.foldlM Parse.State.visit ⟨some name, .object obj, previous⟩).bind _) = _
    rw [hquiet.2]
    show ((_ :: told' ++ told'').foldlM Parse.State.visit ⟨some name, .object obj, previous⟩) = _
    rw [foldlM_append, foldlM_cons]
    show ((told'.foldlM Parse.State.visit ⟨some name, .object obj, previous⟩).bind _) = _
    rw [hquiet'.2]
    show told''.foldlM Parse.State.visit ⟨some name, .object obj, previous⟩ = _
    rw [heq, Parse.Parent.onValue, Parse.assign, if_neg hname]

/-- A terminal that can start a value: no item of a list ends there. -/
def Terminal.startsValue (t : Terminal) : Bool :=
  match t with
  | .openBrace | .openBracket | .null | .boolean _ | .number _ | .string _ => true
  | _ => false

variable {numbers}

theorem IsValue.head {value : JsValue ν} (h : IsValue numbers ts value) :
    ∃ t rest, ts = t :: rest ∧ t.startsValue = true := by
  cases h <;> exact ⟨_, _, rfl, rfl⟩

theorem IsElements.head {els : List (JsValue ν)} (h : IsElements numbers ts els) :
    ∃ t rest, ts = t :: rest ∧ t.startsValue = true := by
  cases h with
  | one h => exact h.head
  | more h =>
    obtain ⟨t, rest, rfl, ht⟩ := h.head
    exact ⟨t, _, rfl, ht⟩

theorem IsMembers.head {members : List (JsString × JsValue ν)} (h : IsMembers numbers ts members) :
    ∃ t rest, ts = t :: rest ∧ t.startsValue = true := by
  cases h <;> exact ⟨_, _, rfl, rfl⟩

theorem Terminal.kind_of_startsValue (h : t.startsValue = true) : t.kind ≠ .CloseBracketToken ∧
    t.kind ≠ .CloseBraceToken ∧ t.kind ≠ .EOF ∧ t.kind ≠ .CommaToken := by
  cases t with
  | boolean b => cases b <;> exact ⟨by decide, by decide, by decide, by decide⟩
  | _ => first
    | exact ⟨SyntaxKind.noConfusion, SyntaxKind.noConfusion, SyntaxKind.noConfusion,
        SyntaxKind.noConfusion⟩
    | cases h

theorem Visitor.At.kind (h : s.At (t :: ts)) : s.token.kind = t.kind := by
  cases h
  assumption

theorem parseItems_close {options : ParseOptions} (needsComma : Bool) (hat : s.At (close :: ts)) :
    s.parseItems options close.kind parseItem (fuel + 1) needsComma = some s := by
  rw [Visitor.parseItems_succ]
  exact if_pos (.inl hat.kind)

theorem parseItems_first {options : ParseOptions} {close : SyntaxKind} (hat : s.At (t :: ts))
    (ht : t.startsValue = true) (hclose : close = .CloseBracketToken ∨ close = .CloseBraceToken) :
    s.parseItems options close parseItem (fuel + 1) false = (Visitor.round
    options close parseItem s).bind (Visitor.parseItems options close parseItem fuel true) := by
  obtain ⟨hbracket, hbrace, heof, hcomma⟩ := Terminal.kind_of_startsValue ht
  have hne : t.kind ≠ close := by rcases hclose with rfl | rfl <;> assumption
  rw [Visitor.parseItems_succ, hat.kind, if_neg (not_or.2 ⟨hne, heof⟩), if_neg hcomma]
  rfl

theorem parseItems_comma
    {options : ParseOptions} {close : SyntaxKind} (hat : s.At (.comma :: t :: ts))
    (hnext : ((s.emit (.onSeparator comma)).scanNext options).At (t :: ts))
    (ht : t.startsValue = true) (hclose : close = .CloseBracketToken ∨ close = .CloseBraceToken) :
    s.parseItems options close parseItem (fuel + 1) true =
    (Visitor.round options close parseItem ((s.emit (.onSeparator comma)).scanNext options)).bind
    (Visitor.parseItems options close parseItem fuel true) := by
  obtain ⟨hbracket, hbrace, -, -⟩ := Terminal.kind_of_startsValue ht
  have hne : t.kind ≠ close := by rcases hclose with rfl | rfl <;> assumption
  have hstop : ¬(Terminal.comma.kind = close ∨ Terminal.comma.kind = .EOF) := by
    rcases hclose with rfl | rfl <;> decide
  rw [Visitor.parseItems_succ, hat.kind, if_neg hstop,
    if_pos (show Terminal.comma.kind = .CommaToken from rfl)]
  simp only [if_true]
  rw [hnext.kind, if_neg fun h => hne h.1]

theorem round_value {options : ParseOptions} {close : SyntaxKind} {s' : Visitor ν}
    (h : parseItem s = some (s', true)) : Visitor.round options close parseItem s = some s' := by
  rw [Visitor.round, h]

theorem Visitor.At.value (h : s.At (t :: ts)) : t.HasValue s.token.value := by
  cases h
  assumption

theorem closeWith_at {options : ParseOptions} (hoptions : options.disallowComments = false)
    (expected : ParseErrorCode) (h : s.At (close :: rest)) (event : Nat → Nat → Event ν) :
    ∃ told, Quiet told ∧ ((s.emit event).closeWith options close.kind expected).events =
    s.events ++ event s.token.offset s.token.length :: told ∧
    ((s.emit event).closeWith options close.kind expected).At rest ∧
    ((s.emit event).closeWith options close.kind expected).rest.length < s.rest.length := by
  have hkind : ¬(s.emit event).token.kind ≠ close.kind := not_not.2 h.kind
  rw [Visitor.closeWith, if_neg hkind]
  exact h.advance hoptions event

/-- What is proved of a parser of values, by induction on the derivation. -/
def ReadsAs (numbers : Numbers ν) (options : ParseOptions) (ts : List Terminal)
    (value : JsValue ν) : Prop :=
  ∀ (fuel : Nat) (s : Visitor ν) (rest : List Terminal), s.At (ts ++ rest) →
    s.rest.length < fuel →
    ∃ s' told, s.parseValue numbers options fuel = some (s', true) ∧
      s'.events = s.events ++ told ∧ Gives told value ∧ s'.At rest ∧
      s'.rest.length < s.rest.length

/-- The same for what stands between brackets, from the first item on. -/
def ReadsAll (options : ParseOptions) (close : Terminal)
    (parseItem : Nat → Visitor ν → Option (Visitor ν × Bool)) (ts : List Terminal)
    (parent parent' : Parse.Parent ν) : Prop :=
  ∀ (bound fuel : Nat) (s : Visitor ν) (rest : List Terminal), s.At (ts ++ close :: rest) →
    s.rest.length < bound → s.rest.length ≤ fuel →
    ∃ s' told, (Visitor.round options close.kind (parseItem bound) s).bind
        (Visitor.parseItems options close.kind (parseItem bound) fuel true) = some s' ∧
      s'.events = s.events ++ told ∧ Turns told parent parent' ∧ s'.At (close :: rest) ∧
      s'.rest.length ≤ s.rest.length

variable {options : ParseOptions}

section

variable (hoptions : options.disallowComments = false)
include hoptions

theorem ReadsAs.literal {t : Terminal} {l : Literal ν}
    (h : ∀ (fuel : Nat) (s : Visitor ν), s.token.kind = t.kind → t.HasValue s.token.value →
    s.parseValue numbers options (fuel + 1) = some ((s.emit (.onLiteralValue l)).scanNext options,
    true)) : ReadsAs numbers options [t] l.value := by
  intro fuel s rest hat hfuel
  obtain ⟨fuel, rfl⟩ := Nat.exists_eq_add_one.2 (Nat.zero_lt_of_lt hfuel)
  obtain ⟨told, htold, hevents, hat', hlt⟩ := hat.advance hoptions (.onLiteralValue l)
  exact ⟨_, _, h fuel s hat.kind hat.value, hevents, Gives.literal htold, hat', hlt⟩

theorem parseItems_reads
    {parseItem : Nat → Visitor ν → Option (Visitor ν × Bool)} {parent parent' : Parse.Parent ν}
    (hclose : close = .closeBracket ∨ close = .closeBrace)
    (h : ts = [] ∧ parent' = parent ∨ ReadsAll options close parseItem ts parent parent' ∧ ∃ t tail,
    ts = t :: tail ∧ t.startsValue = true)
    {first : Terminal} (event : Nat → Nat → Event ν) (hat : s.At (first :: ts ++ close :: rest))
    (hfuel : s.rest.length < fuel + 1) :
    ∃ s' told told', ((s.emit event).scanNext options).parseItems options close.kind
        (parseItem fuel) fuel false = some s' ∧
      s'.events = s.events ++ event s.token.offset s.token.length :: told ++ told' ∧
      Quiet told ∧ Turns told' parent parent' ∧ s'.At (close :: rest) ∧
      s'.rest.length < s.rest.length := by
  obtain ⟨told, htold, hevents, hfirst, hlt⟩ := hat.advance hoptions event
  obtain ⟨fuel, rfl⟩ : ∃ n, fuel = n + 1 := ⟨fuel - 1, by omega⟩
  have hkind : close.kind = .CloseBracketToken ∨ close.kind = .CloseBraceToken :=
    hclose.imp (congrArg Terminal.kind) (congrArg Terminal.kind)
  rcases h with ⟨rfl, rfl⟩ | ⟨hreads, t, tail, rfl, ht⟩
  · refine ⟨_, told, [], parseItems_close false hfirst, ?_, htold, quiet_nil.turns _, hfirst, hlt⟩
    rw [hevents, append_nil]
  · obtain ⟨s', told', hitems, hevents', hturns, hlast, hle⟩ :=
      hreads (fuel + 1) fuel _ rest hfirst (by omega) (by omega)
    refine ⟨s', told, told', ?_, ?_, htold, hturns, hlast, by omega⟩
    · rw [parseItems_first hfirst ht hkind]
      exact hitems
    · rw [hevents', hevents]

theorem ReadsAs.array
    {ts : List Terminal} {els : List (JsValue ν)} (h : ts = [] ∧ Parse.Parent.array els =
    .array [] ∨ ReadsAll options .closeBracket (Visitor.parseValue numbers options) ts
    (.array []) (.array els) ∧ ∃ t rest, ts = t :: rest ∧ t.startsValue = true) :
    ReadsAs numbers options (.openBracket :: ts ++ [.closeBracket]) (.array els) := by
  intro fuel s rest hat hfuel
  obtain ⟨fuel, rfl⟩ := Nat.exists_eq_add_one.2 (Nat.zero_lt_of_lt hfuel)
  have hat : s.At (.openBracket :: ts ++ .closeBracket :: rest) := by simpa using hat
  obtain ⟨s', told, told', hitems, hevents, htold, hturns, hlast, hlt⟩ :=
    parseItems_reads hoptions (.inl rfl) h .onArrayBegin hat hfuel
  obtain ⟨told'', htold'', hevents', hat', hlt'⟩ :=
    closeWith_at hoptions .CloseBracketExpected hlast .onArrayEnd
  refine ⟨_, .onArrayBegin s.token.offset s.token.length :: (told ++ told') ++
    .onArrayEnd s'.token.offset s'.token.length :: told'', ?_, ?_,
    Gives.array ((htold.turns _).trans hturns) htold'', hat', by omega⟩
  · have hkind : s.token.kind = .OpenBracketToken := hat.kind
    change Visitor.parseItems options .CloseBracketToken _ _ _ _ = _ at hitems
    rw [Visitor.parseValue, hkind]
    simp only [Visitor.parseArray, hitems, Option.map_some]
    rfl
  · rw [hevents', hevents]
    simp

theorem ReadsAs.object {ts : List Terminal} {members : List (JsString × JsValue ν)}
    (h : ts = [] ∧ Parse.Parent.object members = .object [] ∨ ReadsAll options .closeBrace
    (fun fuel => Visitor.parseProperty options (Visitor.parseValue numbers options fuel)) ts
    (.object []) (.object members) ∧ ∃ t rest, ts = t :: rest ∧ t.startsValue = true) :
    ReadsAs numbers options (.openBrace :: ts ++ [.closeBrace]) (.object members) := by
  intro fuel s rest hat hfuel
  obtain ⟨fuel, rfl⟩ := Nat.exists_eq_add_one.2 (Nat.zero_lt_of_lt hfuel)
  have hat : s.At (.openBrace :: ts ++ .closeBrace :: rest) := by simpa using hat
  obtain ⟨s', told, told', hitems, hevents, htold, hturns, hlast, hlt⟩ :=
    parseItems_reads hoptions (.inr rfl) h .onObjectBegin hat hfuel
  obtain ⟨told'', htold'', hevents', hat', hlt'⟩ :=
    closeWith_at hoptions .CloseBraceExpected hlast .onObjectEnd
  refine ⟨_, .onObjectBegin s.token.offset s.token.length :: (told ++ told') ++
    .onObjectEnd s'.token.offset s'.token.length :: told'', ?_, ?_,
    Gives.object ((htold.turns _).trans hturns) htold'', hat', by omega⟩
  · have hkind : s.token.kind = .OpenBraceToken := hat.kind
    change Visitor.parseItems options .CloseBraceToken _ _ _ _ = _ at hitems
    rw [Visitor.parseValue, hkind]
    simp only [Visitor.parseObject, hitems, Option.map_some]
    rfl
  · rw [hevents', hevents]
    simp

theorem parseProperty_reads
    {name : JsString} {value : JsValue ν} (h : ReadsAs numbers options ts value) {bound : Nat}
    (hat : s.At (.string name :: .colon :: ts ++ rest)) (hbound : s.rest.length < bound) :
    ∃ s' told, s.parseProperty options (Visitor.parseValue numbers options bound) =
    some (s', true) ∧ s'.events = s.events ++ told ∧ (∀ obj, Turns told (.object obj)
    (.object (JsMap.upsert name value obj))) ∧ s'.At rest ∧ s'.rest.length < s.rest.length := by
  obtain ⟨told, htold, hevents, hcolon, hlt⟩ := hat.advance hoptions (.onObjectProperty name)
  obtain ⟨told', htold', hevents', hvalue, hlt'⟩ := hcolon.advance hoptions (.onSeparator colon)
  obtain ⟨s', told'', hparse, hevents'', hgives, hat', hlt''⟩ := h bound _ rest hvalue (by omega)
  have hkind : s.token.kind = .StringLiteral := hat.kind
  have hname : s.token.value = name := hat.value
  have hstring : s.parseString options false =
      (s.emit (.onObjectProperty name)).scanNext options := by
    rw [Visitor.parseString, hname]
    rfl
  have hcolonKind : ((s.emit (.onObjectProperty name)).scanNext options).token.kind = .ColonToken :=
    hcolon.kind
  refine ⟨s', .onObjectProperty name s.token.offset s.token.length :: told ++
    (.onSeparator colon ((s.emit (.onObjectProperty name)).scanNext options).token.offset
      ((s.emit (.onObjectProperty name)).scanNext options).token.length :: told' ++ told''),
    ?_, ?_, fun obj => Gives.member hgives htold htold' obj, hat', by omega⟩
  · simp only [Visitor.parseProperty, hkind, ne_eq, not_true_eq_false, if_false, hstring,
      hcolonKind, if_true, hparse]
  · rw [hevents'', hevents', hevents]
    simp

theorem ReadsAll.items (hclose : close = .closeBracket ∨ close = .closeBrace)
    {parseItem : Nat → Visitor ν → Option (Visitor ν × Bool)} {more : List Terminal}
    {parent parent' parent'' : Parse.Parent ν}
    (hitem : ∀ (bound : Nat) (s : Visitor ν) (rest : List Terminal), s.At (ts ++ rest) →
    s.rest.length < bound → ∃ s' told, parseItem bound s = some (s', true) ∧ s'.events = s.events ++
    told ∧ Turns told parent parent' ∧ s'.At rest ∧ s'.rest.length < s.rest.length)
    (hmore : more = [] ∧ parent'' = parent' ∨ ∃ rest, more = .comma :: rest ∧ ReadsAll options close
    parseItem rest parent' parent'' ∧ ∃ t tail, rest = t :: tail ∧ t.startsValue = true) :
    ReadsAll options close parseItem (ts ++ more) parent parent'' := by
  intro bound fuel s rest hat hbound hfuel
  rw [append_assoc] at hat
  obtain ⟨s', told, hparse, hevents, hturns, hat', hlt⟩ := hitem bound s _ hat hbound
  obtain ⟨fuel, rfl⟩ : ∃ n, fuel = n + 1 := ⟨fuel - 1, by omega⟩
  rw [round_value hparse, Option.bind_some]
  rcases hmore with ⟨rfl, rfl⟩ | ⟨items, rfl, hreads, t, tail, rfl, ht⟩
  · exact ⟨s', told, parseItems_close true hat', hevents, hturns, hat', hlt.le⟩
  · have hkind : close.kind = .CloseBracketToken ∨ close.kind = .CloseBraceToken :=
      hclose.imp (congrArg Terminal.kind) (congrArg Terminal.kind)
    have hat' : s'.At (.comma :: t :: (tail ++ close :: rest)) := hat'
    obtain ⟨told', htold', hevents', hnext, hlt'⟩ := hat'.advance hoptions (.onSeparator comma)
    obtain ⟨s'', told'', hitems, hevents'', hturns'', hlast, hle⟩ :=
      hreads bound fuel _ rest hnext (by omega) (by omega)
    refine ⟨s'', told ++ (.onSeparator comma s'.token.offset s'.token.length :: told' ++ told''),
      ?_, ?_, hturns.trans (Turns.trans ?_ hturns''), hlast, by omega⟩
    · rw [parseItems_comma hat' hnext ht hkind]
      exact hitems
    · rw [hevents'', hevents', hevents]
      simp
    · refine ⟨forall_mem_cons.2 ⟨rfl, htold'.1⟩, fun _ name previous => ⟨name, ?_⟩⟩
      exact htold'.2 _

omit hoptions in
theorem Numbers.parse_of_isNumber {text : JsString} (h : IsNumber text) :
    numbers.parse text = some (numbers.ofLiteral text) := by
  rcases h with h | ⟨rest, rfl, h⟩
  · obtain ⟨integer, fraction, exponent, rfl, hinteger, -, -⟩ := isUnsigned_cases h
    obtain ⟨d, digits, rfl, hd⟩ := isInteger_head hinteger
    have hhead : ¬(d :: digits ++ fraction ++ exponent).head? = some minus := by
      intro hminus
      obtain rfl : d = minus := Option.some.inj hminus
      cases hd
    simp only [Numbers.parse, if_neg hhead, h, if_true]
  · simp only [Numbers.parse, head?_cons, if_true, tail_cons, h]

omit hoptions in
theorem ReadsAs.element {value : JsValue ν}
    (h : ReadsAs numbers options ts value) (before : List (JsValue ν)) (bound : Nat) (s : Visitor ν)
    (rest : List Terminal) (hat : s.At (ts ++ rest)) (hbound : s.rest.length < bound) : ∃ s' told,
    s.parseValue numbers options bound = some (s', true) ∧ s'.events = s.events ++ told ∧ Turns told
    (.array before) (.array (before ++ [value])) ∧ s'.At rest ∧ s'.rest.length < s.rest.length := by
  obtain ⟨s', told, hparse, hevents, hgives, hat', hlt⟩ := h bound s rest hat hbound
  exact ⟨s', told, hparse, hevents, hgives.turns before, hat', hlt⟩

theorem ReadsAs.member {value : JsValue ν} (h : ReadsAs numbers options ts value) (name : JsString)
    (obj : List (JsString × JsValue ν)) (bound : Nat) (s : Visitor ν) (rest : List Terminal)
    (hat : s.At (.string name :: .colon :: ts ++ rest)) (hbound : s.rest.length < bound) :
    ∃ s' told, s.parseProperty options (Visitor.parseValue numbers options bound) =
    some (s', true) ∧ s'.events = s.events ++ told ∧ Turns told (.object obj)
    (.object (JsMap.upsert name value obj)) ∧ s'.At rest ∧ s'.rest.length < s.rest.length := by
  obtain ⟨s', told, hparse, hevents, hturns, hat', hlt⟩ :=
    parseProperty_reads hoptions h hat hbound
  exact ⟨s', told, hparse, hevents, hturns obj, hat', hlt⟩

theorem ReadsAs.boolean (b : Bool) : ReadsAs numbers options [.boolean b] (.boolean b) :=
  ReadsAs.literal hoptions (t := .boolean b) (l := .boolean b) fun fuel s hkind _ => by
    cases b <;> rw [Visitor.parseValue, hkind] <;>
      simp only [Terminal.kind, Visitor.parseLiteral, hkind]

theorem ReadsAs.number {text : JsString} (h : IsNumber text) :
    ReadsAs numbers options [.number text] (.number (numbers.ofLiteral text)) :=
  ReadsAs.literal hoptions (t := .number text) (l := .number (numbers.ofLiteral text))
    fun fuel s hkind hvalue => by
      have hvalue : s.token.value = text := hvalue
      rw [Visitor.parseValue, hkind]
      simp only [Terminal.kind, Visitor.parseLiteral, hkind, hvalue, Numbers.parse_of_isNumber h]

theorem ReadsAs.string (text : JsString) : ReadsAs numbers options [.string text] (.string text) :=
  ReadsAs.literal hoptions (t := .string text) (l := .string text) fun fuel s hkind hvalue => by
    have hvalue : s.token.value = text := hvalue
    rw [Visitor.parseValue, hkind]
    simp only [Terminal.kind, Visitor.parseString, hvalue, if_true]

theorem ReadsAs.null : ReadsAs numbers options [.null] .null :=
  ReadsAs.literal hoptions (t := .null) (l := .null) fun fuel s hkind _ => by
    rw [Visitor.parseValue, hkind]
    simp only [Terminal.kind, Visitor.parseLiteral, hkind]

end

mutual

theorem IsValue.reads (hoptions : options.disallowComments = false) {ts : List Terminal}
    {value : JsValue ν} : IsValue numbers ts value → ReadsAs numbers options ts value
  | .null => ReadsAs.null hoptions
  | .boolean => ReadsAs.boolean hoptions _
  | .number h => ReadsAs.number hoptions h
  | .string => ReadsAs.string hoptions _
  | .emptyArray => ReadsAs.array hoptions (.inl ⟨rfl, rfl⟩)
  | .array h => ReadsAs.array hoptions (.inr ⟨h.reads hoptions [], h.head⟩)
  | .emptyObject => ReadsAs.object hoptions (.inl ⟨rfl, rfl⟩)
  | .object h => ReadsAs.object hoptions (.inr ⟨h.reads hoptions [], h.head⟩)

theorem IsElements.reads (hoptions : options.disallowComments = false) {ts : List Terminal}
    {els : List (JsValue ν)} (h : IsElements numbers ts els) (before : List (JsValue ν)) :
    ReadsAll options .closeBracket (Visitor.parseValue numbers options) ts (.array before)
      (.array (before ++ els)) :=
  match h with
  | .one h => by
    have hall := ReadsAll.items hoptions (.inl rfl) ((h.reads hoptions).element before)
      (.inl ⟨rfl, rfl⟩)
    rwa [append_nil] at hall
  | @IsElements.more _ _ ts rest value els h hrest => by
    have hrest' := hrest.reads hoptions (before ++ [value])
    rw [append_assoc] at hrest'
    exact ReadsAll.items hoptions (.inl rfl) ((h.reads hoptions).element before)
      (.inr ⟨rest, rfl, hrest', hrest.head⟩)

theorem IsMembers.reads (hoptions : options.disallowComments = false)
    {ts : List Terminal} {members : List (JsString × JsValue ν)} (h : IsMembers numbers ts members)
    (obj : List (JsString × JsValue ν)) : ReadsAll options .closeBrace
    (fun fuel => Visitor.parseProperty options (Visitor.parseValue numbers options fuel)) ts
    (.object obj) (.object (members.foldl (fun obj m => JsMap.upsert m.1 m.2 obj) obj)) :=
  match h with
  | @IsMembers.one _ _ name ts value h => by
    have hall := ReadsAll.items hoptions (.inr rfl)
      ((h.reads hoptions).member hoptions name obj) (.inl ⟨rfl, rfl⟩)
    rwa [append_nil] at hall
  | @IsMembers.more _ _ name ts rest value members h hrest =>
    ReadsAll.items hoptions (.inr rfl) ((h.reads hoptions).member hoptions name obj)
      (.inr ⟨rest, rfl, hrest.reads hoptions (JsMap.upsert name value obj), hrest.head⟩)

end

def Follows (rest : List Terminal) : Prop :=
  Separated rest ∧ ∀ t ∈ rest.head?, t.isPunctuation = true

theorem Follows.cons {t : Terminal} {rest : List Terminal} (h : Follows rest) :
    Separated (t :: rest) := by
  cases rest with
  | nil => trivial
  | cons next rest => exact ⟨.inr (.inr (h.2 next rfl)), h.1⟩

theorem follows_punctuation (ht : t.isPunctuation = true) (h : Separated rest) :
    Follows (t :: rest) := by
  refine ⟨?_, fun u hu => by cases hu; exact ht⟩
  cases rest with
  | nil => trivial
  | cons next rest => exact ⟨.inl ht, h⟩

theorem separated_string {s : JsString} (h : Separated rest) : Separated (.string s :: rest) := by
  cases rest with
  | nil => trivial
  | cons next rest => exact ⟨.inr (.inl ⟨s, rfl⟩), h⟩

mutual

theorem IsValue.separated {ts : List Terminal} {value : JsValue ν}
    (h : IsValue numbers ts value) {rest : List Terminal} (hrest : Follows rest) : Separated
    (ts ++ rest) :=
  match h with
  | .null => hrest.cons
  | .boolean => hrest.cons
  | .number _ => hrest.cons
  | .string => hrest.cons
  | .emptyArray => (follows_punctuation rfl (follows_punctuation rfl hrest.1).1).1
  | @IsValue.array _ _ ts els h => by
    have hts := h.separated (follows_punctuation (t := .closeBracket) rfl hrest.1)
    rw [cons_append, cons_append, append_assoc]
    exact (follows_punctuation rfl hts).1
  | .emptyObject => (follows_punctuation rfl (follows_punctuation rfl hrest.1).1).1
  | @IsValue.object _ _ ts members h => by
    have hts := h.separated (follows_punctuation (t := .closeBrace) rfl hrest.1)
    rw [cons_append, cons_append, append_assoc]
    exact (follows_punctuation rfl hts).1

theorem IsElements.separated {ts : List Terminal} {els : List (JsValue ν)} {rest : List Terminal}
    (h : IsElements numbers ts els) (hrest : Follows rest) : Separated (ts ++ rest) :=
  match h with
  | .one h => h.separated hrest
  | @IsElements.more _ _ ts more value els h hmore => by
    rw [append_assoc]
    exact h.separated (follows_punctuation rfl (hmore.separated hrest))

theorem IsMembers.separated {ts : List Terminal} {members : List (JsString × JsValue ν)}
    {rest : List Terminal} (h : IsMembers numbers ts members) (hrest : Follows rest) :
    Separated (ts ++ rest) :=
  match h with
  | .one h => separated_string (follows_punctuation rfl (h.separated hrest)).1
  | @IsMembers.more _ _ name ts more value members h hmore => by
    have hvalue := h.separated (follows_punctuation (t := .comma) rfl (hmore.separated hrest))
    rw [append_assoc]
    exact separated_string (follows_punctuation rfl hvalue).1

end

/-- A text of the grammar: no error, and the value that the grammar gives it. -/
theorem visit_text (hoptions : options.disallowComments = false)
    {text : JsString} {value : JsValue ν} (h : IsText numbers text value) :
    ∃ events, visit numbers options text = some events ∧ (∀ e ∈ events, e.isError = false) ∧
    ((∀ e ∈ events, e.isProto = false) → Parse.build events = some value) := by
  obtain ⟨ts, hvalue, hwritten⟩ := h
  have hend : Follows [] := ⟨trivial, fun t ht => by cases ht⟩
  have hsep := hvalue.separated hend
  rw [append_nil] at hsep
  have hshows : Shows (scanAll text) ts := hwritten.shows hsep text.length 0
  obtain ⟨told, htold, hevents, hat, hlt⟩ :=
    scanNextFrom_shows (ν := ν) hoptions unscanned hshows []
  obtain ⟨s, hs⟩ : ∃ s : Visitor ν, scanNextFrom options unscanned (scanAll text) [] = s :=
    ⟨_, rfl⟩
  rw [hs] at hevents hat hlt
  have hfirst : Visitor.scanNext options (⟨unscanned, scanAll text, []⟩ : Visitor ν) = s := hs
  rw [visit, visitTokens]
  simp only [hfirst]
  obtain ⟨t, tail, rfl, ht⟩ := hvalue.head
  have hkind := (Terminal.kind_of_startsValue ht).2.2.1
  rw [if_neg (by rw [hat.kind]; exact hkind)]
  obtain ⟨s', told', hparse, hevents', hgives, hlast, -⟩ :=
    hvalue.reads hoptions ((scanAll text).length + 1) s [] (by rwa [append_nil]) (by omega)
  have heof : ¬s'.token.kind ≠ .EOF := by
    cases hlast with
    | nil hkind => exact not_not.2 hkind
  simp only [hparse, if_neg heof]
  refine ⟨_, rfl, ?_, fun hproto => ?_⟩
  · rw [hevents', hevents, nil_append]
    exact forall_mem_append.2 ⟨htold.1, hgives.1⟩
  · rw [hevents', hevents, nil_append] at hproto ⊢
    obtain ⟨name, heq⟩ :=
      hgives.2 (fun e he => hproto e (mem_append_right _ he)) (.array []) none []
    rw [Parse.build, foldlM_append, htold.2]
    show ((told'.foldlM Parse.State.visit ⟨none, .array [], []⟩).map _) = _
    rw [heq]
    rfl

end Visits

end CodeOss.Json
