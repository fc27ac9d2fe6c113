import CodeOss.Glob.Pattern

/-! What a pattern is made of, how it is written, and which lists of segments it is meant to
match. -/

open List

namespace CodeOss.Glob

open List

inductive Plain where
  | literal (c : CodeUnit)
  | star
  | any
  | oneOf (content : JsString)
deriving DecidableEq

inductive Piece where
  | plain (p : Plain)
  | braces (choices : List (List Plain))

inductive Segment where
  | globstar
  | pieces (ps : List Piece)

def Plain.text : Plain → JsString
  | .literal c => [c]
  | .star => [asterisk]
  | .any => [questionMark]
  | .oneOf content => openBracket :: (content ++ [closeBracket])

def choiceText (choice : List Plain) : JsString := choice.flatMap Plain.text

def bracesText (choices : List JsString) : JsString :=
  openBrace :: ([comma].intercalate choices ++ [closeBrace])

def Piece.text : Piece → JsString
  | .plain p => p.text
  | .braces choices => bracesText (choices.map choiceText)

def Segment.text : Segment → JsString
  | .globstar => Glob.globstar
  | .pieces ps => ps.flatMap Piece.text

def patternText (segments : List Segment) : JsString :=
  [slash].intercalate (segments.map Segment.text)

def classAtom (c : CodeUnit) : ClassAtom := if c = hyphen then .range else .unit c

/-- A `!` or a `^` in the first place says that none of the others is meant. -/
def classVal : JsString → BracketVal
  | [] => ⟨false, []⟩
  | c :: rest =>
    if c = caret ∨ c = exclamationMark then ⟨true, rest.map classAtom⟩
    else ⟨false, (c :: rest).map classAtom⟩

/-- The unit is one of the class: one that is named, or from a range, or none of these. -/
def InClass (content : JsString) (c : CodeUnit) : Prop :=
  (classVal content).negated = true ↔
    ¬ ∃ range ∈ (readRanges (classVal content).atoms).getD [], range.1 ≤ c ∧ c ≤ range.2

section Meaning

/-- A text is made of parts, one for each of a list of things. -/
def Parts {α : Type} (means : α → JsString → Prop) : List α → JsString → Prop
  | [], s => s = []
  | a :: as, s => ∃ front back, s = front ++ back ∧ means a front ∧ Parts means as back

def Plain.Means : Plain → JsString → Prop
  | .literal c, s => s = [c]
  | .star, _ => True
  | .any, s => ∃ c, s = [c]
  | .oneOf content, s => ∃ c, s = [c] ∧ InClass content c

def Piece.Means : Piece → JsString → Prop
  | .plain p, s => p.Means s
  | .braces choices, s => ∃ choice ∈ choices, Parts Plain.Means choice s

/-- A `**` stands for any number of segments. -/
def Means : List Segment → List JsString → Prop
  | [], path => path = []
  | .globstar :: rest, path => ∃ n, n ≤ path.length ∧ Means rest (path.drop n)
  | .pieces ps :: rest, path =>
    ∃ first path', path = first :: path' ∧ Parts Piece.Means ps first ∧ Means rest path'

end Meaning

def special : List CodeUnit :=
  [slash, asterisk, questionMark, openBracket, closeBracket, openBrace, closeBrace]

/-- A class ends at the first `]` behind the first unit, its ranges are in order, and it has no
brace and no slash. -/
structure ClassContent (content : JsString) : Prop where
  ne_nil : content ≠ []
  no_slash : slash ∉ content
  no_brace : openBrace ∉ content
  ends : closeBracket ∉ content.tail
  ordered : (readRanges (classVal content).atoms).isSome = true

def Plain.Proper : Plain → Prop
  | .literal c => c ∉ special
  | .star => True
  | .any => True
  | .oneOf content => ClassContent content

def Plain.Choosable : Plain → Prop
  | .literal c => c ≠ comma
  | .star => True
  | .any => True
  | .oneOf content =>
    closeBrace ∉ content ∧ (content.head? = some closeBracket → comma ∉ content)

def ChoiceProper (choice : List Plain) : Prop :=
  (∀ p ∈ choice, p.Proper ∧ p.Choosable) ∧ choiceText choice ≠ globstar

def Piece.Proper : Piece → Prop
  | .plain p => p.Proper
  | .braces choices =>
    (∀ choice ∈ choices, ChoiceProper choice) ∧ ∃ last ∈ choices.getLast?, last ≠ []

/-- What is written `**` is a globstar. -/
def Segment.Proper : Segment → Prop
  | .globstar => True
  | .pieces ps =>
    ps ≠ [] ∧ (∀ p ∈ ps, p.Proper) ∧ (Segment.pieces ps).text ≠ Glob.globstar

def Plain.Inside : Plain → Prop
  | .oneOf content => ¬ InClass content slash
  | _ => True

def Piece.Inside : Piece → Prop
  | .plain p => p.Inside
  | .braces choices => ∀ choice ∈ choices, ∀ p ∈ choice, p.Inside

def Segment.Inside : Segment → Prop
  | .globstar => True
  | .pieces ps => ∀ p ∈ ps, p.Inside

def PathSegment (s : JsString) : Prop := s ≠ [] ∧ slash ∉ s ∧ backslash ∉ s

def pathText (path : List JsString) : JsString := [slash].intercalate path

end CodeOss.Glob

/-! What `parseRegExp` makes of the text of a pattern. -/

namespace CodeOss.Glob

/-- Whether braces and brackets are open behind a unit. -/
def openBehind (flags : Bool × Bool) (char : CodeUnit) : Bool × Bool :=
  (if char = openBrace then true else if char = closeBrace then false else flags.1,
    if char = openBracket then true else if char = closeBracket then false else flags.2)

section Scans

variable {splitChar c : CodeUnit} {flags flags' flags'' : Bool × Bool} {text text' : JsString}

/-- A text is passed without a cut. -/
def Scans (splitChar : CodeUnit) (flags : Bool × Bool) (text : JsString) (flags' : Bool × Bool) :
    Prop :=
  ∀ curVal rest, splitGlobAwareFrom splitChar flags.1 flags.2 curVal (text ++ rest) =
    splitGlobAwareFrom splitChar flags'.1 flags'.2 (curVal ++ text) rest

theorem Scans.nil : Scans splitChar flags [] flags := fun curVal rest => by
  rw [nil_append, append_nil]

theorem Scans.append (h : Scans splitChar flags text flags')
    (h' : Scans splitChar flags' text' flags'') :
    Scans splitChar flags (text ++ text') flags'' := by
  intro curVal rest
  rw [append_assoc, h, h', append_assoc]

theorem Scans.unit (h : ¬ (c = splitChar ∧ flags = (false, false))) :
    Scans splitChar flags [c] (openBehind flags c) := by
  intro curVal rest
  obtain ⟨inBraces, inBrackets⟩ := flags
  rw [singleton_append, splitGlobAwareFrom, if_neg]
  · rfl
  · rintro ⟨hc, hbraces, hbrackets⟩
    exact h ⟨hc, by simp_all⟩

def brackets : List CodeUnit := [openBrace, closeBrace, openBracket, closeBracket]

theorem Scans.plain (h : ∀ c ∈ text, c ∉ brackets)
    (hsplit : splitChar ∉ text ∨ flags ≠ (false, false)) : Scans splitChar flags text flags := by
  induction text with
  | nil => exact .nil
  | cons c text ih =>
    obtain ⟨hbrackets, htext⟩ := forall_mem_cons.mp h
    have hunit : Scans splitChar flags [c] (openBehind flags c) := by
      refine .unit fun hc => ?_
      rcases hsplit with hnot | hopen
      · exact hnot (hc.1 ▸ mem_cons_self)
      · exact hopen hc.2
    have hflags : openBehind flags c = flags := by
      simp only [brackets, mem_cons, not_mem_nil, or_false, not_or] at hbrackets
      simp [openBehind, hbrackets]
    rw [hflags] at hunit
    exact hunit.append
      (ih htext (hsplit.imp_left fun hnot hc => hnot (mem_cons_of_mem _ hc)))

theorem Scans.content {inBraces inBrackets : Bool} {content : JsString}
    (hopen : openBrace ∉ content) (hclose : inBraces = true → closeBrace ∉ content)
    (h : splitChar ∉ content ∨ (inBrackets = true ∧ closeBracket ∉ content)) :
    ∃ inBrackets', Scans splitChar (inBraces, inBrackets) content (inBraces, inBrackets') := by
  induction content generalizing inBrackets with
  | nil => exact ⟨inBrackets, .nil⟩
  | cons c content ih =>
    have hunit : Scans splitChar (inBraces, inBrackets) [c]
        (openBehind (inBraces, inBrackets) c) := by
      refine .unit fun hc => ?_
      rcases h with hsplit | ⟨hbrackets, -⟩
      · exact hsplit (hc.1 ▸ mem_cons_self)
      · rw [hbrackets] at hc
        cases (Prod.mk.inj hc.2).2
    have hbraces : (openBehind (inBraces, inBrackets) c).1 = inBraces := by
      have hne : c ≠ openBrace := fun hc => hopen (hc ▸ mem_cons_self)
      rw [openBehind, if_neg hne]
      split
      · rename_i hc
        cases inBraces with
        | false => rfl
        | true => exact (hclose rfl (hc ▸ mem_cons_self)).elim
      · rfl
    obtain ⟨inBrackets', hrest⟩ := @ih (openBehind (inBraces, inBrackets) c).2
      (fun hc => hopen (mem_cons_of_mem _ hc))
      (fun hb hc => hclose hb (mem_cons_of_mem _ hc)) (by
        rcases h with hsplit | ⟨hbrackets, hends⟩
        · exact .inl fun hc => hsplit (mem_cons_of_mem _ hc)
        · refine .inr ⟨?_, fun hc => hends (mem_cons_of_mem _ hc)⟩
          have hne : c ≠ closeBracket := fun hc => hends (hc ▸ mem_cons_self)
          simp [openBehind, hne, hbrackets])
    have hflags : openBehind (inBraces, inBrackets) c =
        (inBraces, (openBehind (inBraces, inBrackets) c).2) := Prod.ext hbraces rfl
    rw [hflags] at hunit
    exact ⟨inBrackets', hunit.append hrest⟩

theorem Scans.oneOf {inBraces : Bool} {content : JsString} (hopen : openBrace ∉ content)
    (hclose : inBraces = true → closeBrace ∉ content) (hsplit : closeBracket ≠ splitChar)
    (hsplit' : openBracket ≠ splitChar) (h : splitChar ∉ content ∨ closeBracket ∉ content) :
    Scans splitChar (inBraces, false) (Plain.oneOf content).text (inBraces, false) := by
  obtain ⟨inBrackets, hcontent⟩ := @Scans.content splitChar inBraces true content
    hopen hclose (h.imp id fun h => ⟨rfl, h⟩)
  have hfirst : Scans splitChar (inBraces, false) [openBracket] (inBraces, true) :=
    .unit fun hc => hsplit' hc.1
  have hlast : Scans splitChar (inBraces, inBrackets) [closeBracket] (inBraces, false) :=
    .unit fun hc => hsplit hc.1
  exact hfirst.append (hcontent.append hlast)

theorem Scans.flatMap {α : Type} {f : α → JsString} {as : List α}
    (h : ∀ a ∈ as, Scans splitChar flags (f a) flags) :
    Scans splitChar flags (as.flatMap f) flags := by
  induction as with
  | nil => exact .nil
  | cons a as ih =>
    obtain ⟨ha, has⟩ := forall_mem_cons.mp h
    exact ha.append (ih has)

variable {texts : List JsString}

theorem Scans.intercalate {sep : JsString} (hsep : Scans splitChar flags sep flags)
    (h : ∀ text ∈ texts, Scans splitChar flags text flags) :
    Scans splitChar flags (sep.intercalate texts) flags := by
  induction texts with
  | nil => exact .nil
  | cons text texts ih =>
    obtain ⟨htext, htexts⟩ := forall_mem_cons.mp h
    cases texts with
    | nil =>
      rw [intercalate_singleton]
      exact htext
    | cons text' texts =>
      rw [intercalate_cons_cons, append_assoc]
      exact htext.append (hsep.append (ih htexts))

theorem Scans.braces {body : JsString} (hsplit : openBrace ≠ splitChar)
    (hsplit' : closeBrace ≠ splitChar) (h : Scans splitChar (true, false) body (true, false)) :
    Scans splitChar (false, false) (openBrace :: (body ++ [closeBrace])) (false, false) := by
  have hfirst : Scans splitChar (false, false) [openBrace] (true, false) :=
    .unit fun hc => hsplit hc.1
  have hlast : Scans splitChar (true, false) [closeBrace] (false, false) :=
    .unit fun hc => hsplit' hc.1
  exact hfirst.append (h.append hlast)

theorem splitGlobAware_intercalate
    (h : ∀ text ∈ texts, Scans splitChar (false, false) text (false, false))
    (hlast : ∃ last ∈ texts.getLast?, last ≠ []) :
    splitGlobAware ([splitChar].intercalate texts) splitChar = texts := by
  rw [splitGlobAware]
  induction texts with
  | nil =>
    obtain ⟨last, hmem, -⟩ := hlast
    cases hmem
  | cons text texts ih =>
    obtain ⟨htext, htexts⟩ := forall_mem_cons.mp h
    cases texts with
    | nil =>
      obtain ⟨last, hmem, hne⟩ := hlast
      cases hmem
      have hscan := htext [] []
      rw [append_nil, nil_append] at hscan
      rw [intercalate_singleton, hscan, splitGlobAwareFrom]
      exact if_neg hne
    | cons text' texts =>
      rw [intercalate_cons_cons, append_assoc, htext, singleton_append,
        splitGlobAwareFrom, if_pos (by simp), nil_append, ih htexts hlast]

theorem splitGlobAware_append
    (h : ∀ text ∈ texts, Scans splitChar (false, false) text (false, false)) (hne : texts ≠ []) :
    splitGlobAware ([splitChar].intercalate texts ++ [splitChar]) splitChar = texts := by
  rw [splitGlobAware]
  induction texts with
  | nil => exact (hne rfl).elim
  | cons text texts ih =>
    obtain ⟨htext, htexts⟩ := forall_mem_cons.mp h
    cases texts with
    | nil =>
      rw [intercalate_singleton, htext, splitGlobAwareFrom, if_pos (by simp)]
      rfl
    | cons text' texts =>
      rw [intercalate_cons_cons, append_assoc, append_assoc, htext,
        singleton_append, splitGlobAwareFrom, if_pos (by simp), nil_append,
        ih htexts (cons_ne_nil _ _)]

end Scans

section Classes

variable {content : JsString} {c : CodeUnit}

theorem push_atoms {b : BracketVal} (h : c ≠ slash) (hne : b.isEmpty = false) :
    b.push c = { b with atoms := b.atoms ++ [classAtom c] } := by
  rw [BracketVal.push, classAtom]
  split_ifs with h1 h2
  · rfl
  · simp [hne] at h2
  · rfl

theorem foldl_push {b : BracketVal} (h : slash ∉ content) (hne : b.isEmpty = false) :
    content.foldl BracketVal.push b = { b with atoms := b.atoms ++ content.map classAtom } := by
  induction content generalizing b with
  | nil => simp
  | cons c content ih =>
    obtain ⟨hc, hrest⟩ := not_or.mp (mem_cons.not.mp h)
    rw [foldl_cons, push_atoms (Ne.symm hc) hne, ih hrest (by simp [BracketVal.isEmpty])]
    simp

theorem foldl_push_eq (h : slash ∉ content) :
    content.foldl BracketVal.push ⟨false, []⟩ = classVal content := by
  cases content with
  | nil => rfl
  | cons c content =>
    obtain ⟨hc, hrest⟩ := not_or.mp (mem_cons.not.mp h)
    have hfirst : BracketVal.push ⟨false, []⟩ c =
        if c = caret ∨ c = exclamationMark then ⟨true, []⟩ else ⟨false, [classAtom c]⟩ := by
      rw [BracketVal.push, classAtom]
      split_ifs <;> simp_all [BracketVal.isEmpty, hyphen, caret, exclamationMark]
    rw [foldl_cons, hfirst, classVal]
    split_ifs
    · rw [foldl_push hrest rfl]
      simp
    · rw [foldl_push hrest rfl]
      simp

theorem classVal_not_isEmpty (h : content ≠ []) : (classVal content).isEmpty = false := by
  cases content with
  | nil => exact (h rfl).elim
  | cons c content =>
    rw [classVal]
    split <;> rfl

end Classes

def between (regEx : List Pattern) : State := { State.init with regEx := regEx }

section Reads

variable {choose : JsString → Option (List Pattern)} {text text' : JsString}
  {r r' : List Pattern} {c : CodeUnit}

def Reads (choose : JsString → Option (List Pattern)) (text : JsString) (r : List Pattern) : Prop :=
  ∀ regEx, text.foldlM (step choose) (between regEx) = some (between (regEx ++ r))

theorem Reads.nil : Reads choose [] [] := fun regEx => by
  rw [append_nil]
  rfl

theorem Reads.append (h : Reads choose text r) (h' : Reads choose text' r') :
    Reads choose (text ++ text') (r ++ r') := by
  intro regEx
  rw [foldlM_append, h, Option.bind_eq_bind, Option.bind_some, h', append_assoc]

theorem Reads.flatMap {α : Type} {f : α → JsString} {g : α → Pattern} {as : List α}
    (h : ∀ a ∈ as, Reads choose (f a) [g a]) : Reads choose (as.flatMap f) (as.map g) := by
  induction as with
  | nil => exact .nil
  | cons a as ih =>
    obtain ⟨ha, has⟩ := forall_mem_cons.mp h
    exact ha.append (ih has)

theorem Reads.of_step (h : ∀ regEx, step choose (between regEx) c = some (between (regEx ++ r))) :
    Reads choose [c] r := fun regEx => by
  rw [foldlM_cons, h]
  rfl

theorem Reads.literal (h : c ∉ special) : Reads choose [c] [unit c] := by
  refine .of_step fun regEx => ?_
  simp only [special, mem_cons, not_mem_nil, or_false, not_or] at h
  simp [step, between, State.init, State.emit, h]

theorem Reads.star : Reads choose [asterisk] [starsToRegExp 1 false] :=
  .of_step fun _ => rfl

theorem Reads.any : Reads choose [questionMark] [noPathRegex] := .of_step fun _ => rfl

theorem foldlM_content {content : JsString} {st : State} (hopen : st.inBrackets = true) (hbraces :
    st.inBraces = false) (h : ∀ c ∈ content, c ≠ closeBracket) : content.foldlM (step choose) st =
    some { st with bracketVal := content.foldl BracketVal.push st.bracketVal } := by
  induction content generalizing st with
  | nil => rfl
  | cons c content ih =>
    obtain ⟨hc, hrest⟩ := forall_mem_cons.mp h
    have hstep : step choose st c = some { st with bracketVal := st.bracketVal.push c } := by
      rw [step, if_neg (by simp [hbraces]), if_pos ⟨hopen, .inl hc⟩]
    rw [foldlM_cons, hstep, Option.bind_eq_bind, Option.bind_some,
      @ih { st with bracketVal := st.bracketVal.push c } hopen hbraces hrest]
    rfl

theorem Reads.oneOf {content : JsString} (h : ClassContent content) :
    Reads choose (Plain.oneOf content).text
      [.atom ⟨(classVal content).negated, (readRanges (classVal content).atoms).getD []⟩] := by
  intro regEx
  obtain ⟨ranges, hranges⟩ := Option.isSome_iff_exists.mp h.ordered
  have hfirst : step choose (between regEx) openBracket =
      some { between regEx with inBrackets := true } := rfl
  have hcontent : content.foldlM (step choose) { between regEx with inBrackets := true } =
      some { between regEx with inBrackets := true, bracketVal := classVal content } := by
    cases content with
    | nil => exact (h.ne_nil rfl).elim
    | cons c content =>
      have hstep : step choose { between regEx with inBrackets := true } c =
          some { between regEx with
            inBrackets := true, bracketVal := BracketVal.push ⟨false, []⟩ c } := by
        rw [step, if_neg (by simp [between, State.init]), if_pos ⟨rfl, .inr rfl⟩]
        rfl
      have hends : ∀ d ∈ content, d ≠ closeBracket := fun d hd hne => h.ends (hne ▸ hd)
      rw [foldlM_cons, hstep, Option.bind_eq_bind, Option.bind_some,
        foldlM_content rfl rfl hends, ← foldl_push_eq h.no_slash]
      rfl
  have hlast : step choose
      { between regEx with inBrackets := true, bracketVal := classVal content } closeBracket =
      some (between (regEx ++ [.atom ⟨(classVal content).negated, ranges⟩])) := by
    rw [step, if_neg (by simp [between, State.init]), if_neg (by
      simp [classVal_not_isEmpty h.ne_nil])]
    simp [closeBracket, openBrace, openBracket, closeBrace, BracketVal.regEx, hranges, between,
      State.init, State.emit]
  rw [Plain.text, foldlM_cons, hfirst, Option.bind_eq_bind, Option.bind_some, foldlM_append,
    hcontent, Option.bind_eq_bind, Option.bind_some, foldlM_cons, hlast, hranges]
  rfl

theorem foldlM_body {body : JsString} {st : State} (hopen : st.inBraces = true)
    (h : closeBrace ∉ body) :
    body.foldlM (step choose) st = some { st with braceVal := st.braceVal ++ body } := by
  induction body generalizing st with
  | nil =>
    rw [append_nil]
    rfl
  | cons c body ih =>
    obtain ⟨hc, hrest⟩ := not_or.mp (mem_cons.not.mp h)
    have hstep : step choose st c = some { st with braceVal := st.braceVal ++ [c] } := by
      rw [step, if_pos ⟨Ne.symm hc, hopen⟩]
    rw [foldlM_cons, hstep, Option.bind_eq_bind, Option.bind_some,
      @ih { st with braceVal := st.braceVal ++ [c] } hopen hrest]
    simp

theorem Reads.braces {body : JsString} {choices : List (List Pattern)} (h : closeBrace ∉ body)
    (hchoices : (splitGlobAware body comma).mapM choose = some choices) :
    Reads choose (openBrace :: (body ++ [closeBrace])) [alternatives choices] := by
  intro regEx
  have hfirst : step choose (between regEx) openBrace =
      some { between regEx with inBraces := true } := rfl
  have hlast : step choose { between regEx with inBraces := true, braceVal := body } closeBrace =
      some (between (regEx ++ [alternatives choices])) := by
    rw [step, if_neg (by simp), if_neg (by simp [between, State.init])]
    simp [closeBrace, openBrace, openBracket, hchoices, between, State.init, State.emit]
  rw [foldlM_cons, hfirst, Option.bind_eq_bind, Option.bind_some, foldlM_append,
    foldlM_body rfl h, Option.bind_eq_bind, Option.bind_some, foldlM_cons]
  simp only [between, State.init, nil_append] at hlast ⊢
  rw [hlast]
  rfl

theorem segmentRegExp_eq (h : Reads choose text r) : segmentRegExp choose text = some r := by
  rw [segmentRegExp]
  have hread := h []
  rw [nil_append] at hread
  rw [show State.init = between [] from rfl, hread]
  rfl

end Reads

section Congruence

variable {choose choose' : JsString → Option (List Pattern)} {c : CodeUnit} {text : JsString}

theorem step_congr (h : c ≠ closeBrace) (st : State) : step choose st c = step choose' st c := by
  simp only [step, h, if_false]

theorem segmentRegExp_congr (h : closeBrace ∉ text) :
    segmentRegExp choose text = segmentRegExp choose' text := by
  have hfold (st : State) : text.foldlM (step choose) st = text.foldlM (step choose') st := by
    induction text generalizing st with
    | nil => rfl
    | cons c text ih =>
      obtain ⟨hc, htext⟩ := not_or.mp (mem_cons.not.mp h)
      rw [foldlM_cons, foldlM_cons, step_congr (Ne.symm hc)]
      exact congrArg _ (funext fun st => ih htext st)
  rw [segmentRegExp, segmentRegExp, hfold]

theorem mem_splitGlobAwareFrom {splitChar : CodeUnit} {inBraces inBrackets : Bool}
    {curVal segment : JsString}
    (h : segment ∈ splitGlobAwareFrom splitChar inBraces inBrackets curVal text)
    (hc : c ∈ segment) : c ∈ curVal ∨ c ∈ text := by
  induction text generalizing inBraces inBrackets curVal with
  | nil =>
    rw [splitGlobAwareFrom] at h
    split at h
    · cases h
    · exact .inl (mem_singleton.mp h ▸ hc)
  | cons d text ih =>
    rw [splitGlobAwareFrom] at h
    split at h
    · rcases mem_cons.mp h with rfl | h
      · exact .inl hc
      · exact .inr (mem_cons_of_mem _ ((ih h).resolve_left not_mem_nil))
    · rcases ih h with hcur | htext
      · rcases List.mem_append.mp hcur with hcur | hd
        · exact .inl hcur
        · exact .inr (mem_singleton.mp hd ▸ mem_cons_self)
      · exact .inr (mem_cons_of_mem _ htext)

theorem segmentsRegExp_congr {segments : List JsString} (h : ∀ text ∈ segments, closeBrace ∉ text)
    (previous : Bool) :
    segmentsRegExp choose segments previous = segmentsRegExp choose' segments previous := by
  induction segments generalizing previous with
  | nil => rfl
  | cons text rest ih =>
    obtain ⟨htext, hrest⟩ := forall_mem_cons.mp h
    rw [segmentsRegExp, segmentsRegExp, ih hrest, ih hrest, segmentRegExp_congr htext]

theorem patternRegExp_congr (h : closeBrace ∉ text) :
    patternRegExp choose text = patternRegExp choose' text := by
  rw [patternRegExp, patternRegExp]
  simp only [@segmentsRegExp_congr choose choose' (splitGlobAware text slash)
    fun segment hsegment hc =>
      h ((mem_splitGlobAwareFrom hsegment hc).resolve_left not_mem_nil)]

theorem parseChoice_eq_parseRegExp (h : closeBrace ∉ text) :
    parseChoice text = parseRegExp text := patternRegExp_congr h

end Congruence

section Whole

def Plain.regEx : Plain → Pattern
  | .literal c => unit c
  | .star => starsToRegExp 1 false
  | .any => noPathRegex
  | .oneOf content =>
    .atom ⟨(classVal content).negated, (readRanges (classVal content).atoms).getD []⟩

def Piece.regEx : Piece → Pattern
  | .plain p => p.regEx
  | .braces choices => alternatives (choices.map (·.map Plain.regEx))

/-- A slash is written behind a segment unless nothing or only a `**` follows. -/
def slashBehind : List Segment → List Pattern
  | [] => []
  | [.globstar] => []
  | _ => [pathRegex]

def segmentsRegEx : List Segment → Bool → List Pattern
  | [], _ => []
  | .globstar :: rest, true => segmentsRegEx rest true
  | .globstar :: rest, false => starsToRegExp 2 rest.isEmpty :: segmentsRegEx rest true
  | .pieces ps :: rest, _ =>
    ps.map Piece.regEx ++ slashBehind rest ++ segmentsRegEx rest false

def Segment.isGlobstar : Segment → Bool
  | .globstar => true
  | .pieces _ => false

def patternRegEx (segments : List Segment) : List Pattern :=
  if segments.all Segment.isGlobstar then [.star dot] else segmentsRegEx segments false

variable {choose : JsString → Option (List Pattern)} {p : Plain} {choice : List Plain}
  {segment : Segment} {segments : List Segment} {splitChar : CodeUnit} {inBraces : Bool}

theorem Plain.reads (h : p.Proper) : Reads choose p.text [p.regEx] := by
  cases p with
  | literal c => exact .literal h
  | star => exact .star
  | any => exact .any
  | oneOf content => exact .oneOf h

theorem not_mem_brackets {c : CodeUnit} (h : c ∉ special) : c ∉ brackets := by
  simp only [special, brackets, mem_cons, not_mem_nil, or_false, not_or] at h ⊢
  simp [h]

theorem Plain.scans (h : p.Proper) (hbraces : inBraces = true → p.Choosable) :
    Scans slash (inBraces, false) p.text (inBraces, false) := by
  cases p with
  | literal c =>
    refine .plain (fun d hd => mem_singleton.mp hd ▸ not_mem_brackets h) (.inl fun hc => ?_)
    exact h (mem_singleton.mp hc ▸ mem_cons_self)
  | star => exact .unit fun hc => absurd hc.1 (by decide)
  | any => exact .unit fun hc => absurd hc.1 (by decide)
  | oneOf content =>
    exact .oneOf h.no_brace (fun hb => (hbraces hb).1) (by decide) (by decide) (.inl h.no_slash)

theorem Plain.scans_comma (h : p.Proper) (hchoosable : p.Choosable) :
    Scans comma (false, false) p.text (false, false) := by
  cases p with
  | literal c =>
    refine .plain (fun d hd => mem_singleton.mp hd ▸ not_mem_brackets h) (.inl fun hc => ?_)
    exact hchoosable (mem_singleton.mp hc).symm
  | star => exact .unit fun hc => absurd hc.1 (by decide)
  | any => exact .unit fun hc => absurd hc.1 (by decide)
  | oneOf content =>
    refine .oneOf h.no_brace (fun hb => nomatch hb) (by decide) (by decide) ?_
    by_cases hhead : content.head? = some closeBracket
    · exact .inl (hchoosable.2 hhead)
    · refine .inr fun hmem => ?_
      cases content with
      | nil => cases hmem
      | cons c content =>
        rcases mem_cons.mp hmem with hc | hc
        · exact hhead (hc ▸ rfl)
        · exact h.ends hc

theorem Plain.text_ne_nil (p : Plain) : p.text ≠ [] := by
  cases p <;> exact cons_ne_nil _ _

theorem choiceText_eq_nil : choiceText choice = [] ↔ choice = [] := by
  cases choice with
  | nil => exact iff_of_true rfl rfl
  | cons p choice =>
    refine iff_of_false (fun h => ?_) (cons_ne_nil _ _)
    rw [choiceText, flatMap_cons] at h
    exact p.text_ne_nil (append_eq_nil_iff.mp h).1

theorem not_mem_intercalate {c : CodeUnit} {sep : JsString} {texts : List JsString} (hsep : c ∉ sep)
    (h : ∀ text ∈ texts, c ∉ text) : c ∉ sep.intercalate texts := by
  induction texts with
  | nil => exact not_mem_nil
  | cons text texts ih =>
    obtain ⟨htext, htexts⟩ := forall_mem_cons.mp h
    cases texts with
    | nil =>
      rw [intercalate_singleton]
      exact htext
    | cons text' texts =>
      rw [intercalate_cons_cons, List.mem_append, List.mem_append]
      rintro ((hc | hc) | hc)
      · exact htext hc
      · exact hsep hc
      · exact ih htexts hc

theorem closeBrace_not_mem (h : p.Proper) (hchoosable : p.Choosable) : closeBrace ∉ p.text := by
  cases p with
  | literal c =>
    intro hmem
    rw [Plain.text, mem_singleton] at hmem
    exact h (by rw [← hmem]; decide)
  | star => decide
  | any => decide
  | oneOf content =>
    intro hmem
    rcases mem_cons.mp hmem with hc | hc
    · exact absurd hc (by decide)
    · rcases List.mem_append.mp hc with hc | hc
      · exact hchoosable.1 hc
      · exact absurd (mem_singleton.mp hc) (by decide)

theorem parseChoice_eq (h : ChoiceProper choice) :
    parseChoice (choiceText choice) = some (choice.map Plain.regEx) := by
  rw [parseChoice, patternRegExp]
  by_cases hnil : choice = []
  · subst hnil
    rfl
  · have hne : choiceText choice ≠ [] := fun heq => hnil (choiceText_eq_nil.mp heq)
    have hscans : Scans slash (false, false) (choiceText choice) (false, false) :=
      .flatMap fun p hp => Plain.scans (h.1 p hp).1 fun hb => nomatch hb
    have hsplit : splitGlobAware (choiceText choice) slash = [choiceText choice] := by
      have hall := @splitGlobAware_intercalate slash [choiceText choice]
        (fun text htext => by rwa [mem_singleton.mp htext]) ⟨_, rfl, hne⟩
      rwa [intercalate_singleton] at hall
    have hreads : Reads (fun _ => none) (choiceText choice) (choice.map Plain.regEx) :=
      .flatMap fun p hp => Plain.reads (h.1 p hp).1
    rw [if_neg hne, hsplit]
    simp [h.2, segmentsRegExp, segmentRegExp_eq hreads]

theorem mapM_parseChoice {choices : List (List Plain)}
    (h : ∀ choice ∈ choices, ChoiceProper choice) :
    (choices.map choiceText).mapM parseChoice = some (choices.map (·.map Plain.regEx)) := by
  induction choices with
  | nil => rfl
  | cons choice choices ih =>
    obtain ⟨hchoice, hchoices⟩ := forall_mem_cons.mp h
    rw [map_cons, mapM_cons, parseChoice_eq hchoice, ih hchoices]
    rfl

theorem Piece.reads {p : Piece} (h : p.Proper) : Reads parseChoice p.text [p.regEx] := by
  cases p with
  | plain p => exact Plain.reads h
  | braces choices =>
    obtain ⟨hchoices, last, hmem, hlast⟩ := h
    have hsplit : splitGlobAware ([comma].intercalate (choices.map choiceText)) comma =
        choices.map choiceText := by
      refine splitGlobAware_intercalate (fun text htext => ?_)
        ⟨choiceText last, ?_, fun hnil => hlast (choiceText_eq_nil.mp hnil)⟩
      · obtain ⟨choice, hchoice, rfl⟩ := mem_map.mp htext
        exact .flatMap fun p hp => Plain.scans_comma ((hchoices choice hchoice).1 p hp).1
          ((hchoices choice hchoice).1 p hp).2
      · rw [getLast?_map, Option.mem_def.mp hmem]
        rfl
    refine .braces (not_mem_intercalate (by decide) fun text htext hclose => ?_) ?_
    · obtain ⟨choice, hchoice, rfl⟩ := mem_map.mp htext
      obtain ⟨p, hp, hclose⟩ := mem_flatMap.mp hclose
      obtain ⟨hproper, hchoosable⟩ := (hchoices choice hchoice).1 p hp
      exact closeBrace_not_mem hproper hchoosable hclose
    · rw [hsplit]
      exact mapM_parseChoice hchoices

theorem Piece.scans {p : Piece} (h : p.Proper) :
    Scans slash (false, false) p.text (false, false) := by
  cases p with
  | plain p => exact Plain.scans h fun hb => nomatch hb
  | braces choices =>
    refine .braces (by decide) (by decide) (.intercalate ?_ fun text htext => ?_)
    · exact .unit fun hc => absurd hc.1 (by decide)
    · obtain ⟨choice, hchoice, rfl⟩ := mem_map.mp htext
      exact .flatMap fun p hp => Plain.scans ((h.1 choice hchoice).1 p hp).1
        fun _ => ((h.1 choice hchoice).1 p hp).2

theorem Piece.text_ne_nil (p : Piece) : p.text ≠ [] := by
  cases p with
  | plain p => exact p.text_ne_nil
  | braces choices => exact cons_ne_nil _ _

theorem Segment.scans (h : segment.Proper) :
    Scans slash (false, false) segment.text (false, false) := by
  cases segment with
  | globstar =>
    have hunit : Scans slash (false, false) [asterisk] (false, false) :=
      .unit fun hc => absurd hc.1 (by decide)
    exact hunit.append hunit
  | pieces ps => exact .flatMap fun p hp => Piece.scans (h.2.1 p hp)

theorem Segment.text_ne_nil (h : segment.Proper) : segment.text ≠ [] := by
  cases segment with
  | globstar => exact cons_ne_nil _ _
  | pieces ps =>
    cases ps with
    | nil => exact (h.1 rfl).elim
    | cons p ps =>
      intro hnil
      rw [Segment.text, flatMap_cons] at hnil
      exact p.text_ne_nil (append_eq_nil_iff.mp hnil).1

theorem Segment.text_eq_globstar (h : segment.Proper) :
    segment.text = Glob.globstar ↔ segment.isGlobstar = true := by
  cases segment with
  | globstar => exact iff_of_true rfl rfl
  | pieces ps => exact iff_of_false h.2.2 (by simp [Segment.isGlobstar])

theorem Segment.pieces_reads {ps : List Piece} (h : (Segment.pieces ps).Proper) :
    segmentRegExp parseChoice (Segment.pieces ps).text = some (ps.map Piece.regEx) :=
  segmentRegExp_eq (.flatMap fun p hp => Piece.reads (h.2.1 p hp))

variable (h : ∀ segment ∈ segments, segment.Proper)
include h

theorem segmentsRegExp_eq (previous : Bool) : segmentsRegExp parseChoice
    (segments.map Segment.text) previous = some (segmentsRegEx segments previous) := by
  induction segments generalizing previous with
  | nil => rfl
  | cons segment rest ih =>
    obtain ⟨hsegment, hrest⟩ := forall_mem_cons.mp h
    have hglob := Segment.text_eq_globstar hsegment
    rw [map_cons, segmentsRegExp]
    cases segment with
    | globstar =>
      rw [if_pos (hglob.mpr rfl), ih hrest true]
      cases previous with
      | true => rfl
      | false =>
        simp only [Bool.false_eq_true, if_false, Option.map_some, segmentsRegEx]
        cases rest <;> rfl
    | pieces ps =>
      rw [if_neg fun hc => by simpa [Segment.isGlobstar] using hglob.mp hc,
        Segment.pieces_reads hsegment, ih hrest false]
      simp only [Option.bind_eq_bind, Option.bind_some, segmentsRegEx]
      congr 3
      rcases rest with _ | ⟨next, _ | ⟨next', rest⟩⟩
      · rfl
      · have hnext := Segment.text_eq_globstar (hrest next mem_cons_self)
        cases next with
        | globstar => rfl
        | pieces ps' =>
          have hne : (Segment.pieces ps').text ≠ globstar := fun hc => by
            simpa [Segment.isGlobstar] using hnext.mp hc
          simp [hne, slashBehind]
      · cases next <;> simp [slashBehind]

theorem patternText_ne_nil (hne : segments ≠ []) : patternText segments ≠ [] := by
  rcases segments with _ | ⟨segment, _ | ⟨next, rest⟩⟩
  · exact (hne rfl).elim
  · rw [patternText, map_cons, map_nil, intercalate_singleton]
    exact Segment.text_ne_nil (h segment mem_cons_self)
  · rw [patternText, map_cons, map_cons, intercalate_cons_cons]
    simp

theorem patternRegExp_eq {pattern : JsString}
    (hne : pattern ≠ []) (hsplit : splitGlobAware pattern slash = segments.map Segment.text) :
    parseRegExp pattern = some (patternRegEx segments) := by
  have hall : (segments.map Segment.text).all (· = globstar) =
      segments.all Segment.isGlobstar := by
    rw [all_map, Bool.eq_iff_iff, all_eq_true, all_eq_true]
    refine forall₂_congr fun segment hsegment => ?_
    exact decide_eq_true_iff.trans (Segment.text_eq_globstar (h segment hsegment))
  rw [parseRegExp, patternRegExp, if_neg hne, patternRegEx, hsplit]
  simp only [hall, segmentsRegExp_eq h]
  split <;> rfl

theorem parseRegExp_patternText (hne : segments ≠ []) :
    parseRegExp (patternText segments) = some (patternRegEx segments) := by
  refine patternRegExp_eq h (patternText_ne_nil h hne) (splitGlobAware_intercalate ?_ ?_)
  · intro text htext
    obtain ⟨segment, hsegment, rfl⟩ := mem_map.mp htext
    exact Segment.scans (h segment hsegment)
  · refine ⟨(segments.getLast hne).text, ?_, Segment.text_ne_nil (h _ (getLast_mem hne))⟩
    rw [getLast?_map, getLast?_eq_getLast_of_ne_nil hne]
    rfl

theorem parseRegExp_patternText_slash (hne : segments ≠ []) :
    parseRegExp (patternText segments ++ [slash]) = some (patternRegEx segments) := by
  refine patternRegExp_eq h (by simp) (splitGlobAware_append ?_ (by simpa using hne))
  intro text htext
  obtain ⟨segment, hsegment, rfl⟩ := mem_map.mp htext
  exact Segment.scans (h segment hsegment)

end Whole

end CodeOss.Glob
