import CodeOss.Library.Cut
import CodeOss.Terminal.CommandParser

/-! Command lines written with quotes: the parser reads the words back but for one kind, a word
whose blank at the end of a segment is protected by a backslash. -/

namespace CodeOss.Terminal

open List

inductive Quoting
  | single
  | double
  | backslash
  deriving DecidableEq, Repr

def Quoting.Allows : Quoting → JsString → Prop
  | .single, text => singleQuote ∉ text
  | .double, _ => True
  | .backslash, text => text ≠ []

structure QuotedWord where
  text : JsString
  quoting : Quoting
  allowed : quoting.Allows text

def escapeDouble (text : JsString) : JsString :=
  text.flatMap fun ch => if isEscapable ch then [backslash, ch] else [ch]

def escapeAll (text : JsString) : JsString := text.flatMap fun ch => [backslash, ch]

def QuotedWord.render (word : QuotedWord) : JsString :=
  match word.quoting with
  | .single => singleQuote :: word.text ++ [singleQuote]
  | .double => doubleQuote :: escapeDouble word.text ++ [doubleQuote]
  | .backslash => escapeAll word.text

/-- At least one word, joined by blanks. -/
structure Segment where
  init : List QuotedWord
  last : QuotedWord

namespace Segment

def texts (segment : Segment) : List JsString := segment.init.map (·.text) ++ [segment.last.text]

def render (segment : Segment) : JsString :=
  (segment.init.flatMap fun word => word.render ++ [space]) ++ segment.last.render

/-- The last word ends with a blank that only a backslash protects. -/
def EndsInEscapedSpace (segment : Segment) : Prop :=
  segment.last.quoting = .backslash ∧ ∃ ch ∈ segment.last.text.getLast?, isSpace ch

end Segment

structure Joint where
  separator : SegmentSeparator
  before : ℕ
  after : ℕ

def SegmentSeparator.render : SegmentSeparator → JsString
  | .pipe => [bar]
  | .and => [ampersand, ampersand]
  | .or => [bar, bar]
  | .semicolon => [Terminal.semicolon]
  | .pipeAnd => [bar, ampersand]

def Joint.render (joint : Joint) : JsString :=
  List.replicate joint.before space ++ joint.separator.render ++ List.replicate joint.after space

/-- At least one segment, and the separators between them. -/
structure CommandLine where
  init : List (Segment × Joint)
  last : Segment

namespace CommandLine

def segments (line : CommandLine) : List Segment := line.init.map (·.1) ++ [line.last]

def render (line : CommandLine) : JsString :=
  (line.init.flatMap fun piece => piece.1.render ++ piece.2.render) ++ line.last.render

/-- The words of each segment and the separator behind it. -/
def readings (line : CommandLine) : List (List JsString × Option SegmentSeparator) :=
  (line.init.map fun piece => (piece.1.texts, some piece.2.separator)) ++ [(line.last.texts, none)]

end CommandLine

def ParsedCommand.readings (parsed : ParsedCommand) :
    List (List JsString × Option SegmentSeparator) :=
  parsed.segments.map fun segment => (segment.rawTokens, segment.trailingSeparator)

theorem escapeAll_cons (ch : CodeUnit) (text : JsString) :
    escapeAll (ch :: text) = backslash :: ch :: escapeAll text := rfl

theorem escapeAll_append (s t : JsString) : escapeAll (s ++ t) = escapeAll s ++ escapeAll t :=
  flatMap_append

section Tokenize

variable {tokens : List JsString} {cur rest text : JsString} {hasContent : Bool}

attribute [local simp] tokenizeLoop in
theorem tokenizeLoop_single (h : singleQuote ∉ text) :
    tokenizeLoop tokens cur true false hasContent (text ++ singleQuote :: rest) =
      tokenizeLoop tokens (cur ++ text) false false hasContent rest := by
  induction text generalizing cur with
  | nil =>
    rw [nil_append, tokenizeLoop.eq_def]
    simp
  | cons ch text ih =>
    obtain ⟨hne, htext⟩ := not_or.1 (mt mem_cons.2 h)
    rw [cons_append, tokenizeLoop.eq_def]
    simp [Ne.symm hne, ih htext]

theorem tokenizeLoop_double : tokenizeLoop tokens cur false true hasContent (escapeDouble text ++
    doubleQuote :: rest) = tokenizeLoop tokens (cur ++ text) false false hasContent rest := by
  induction text generalizing cur with
  | nil =>
    rw [escapeDouble, flatMap_nil, nil_append, tokenizeLoop.eq_def]
    simp [show doubleQuote ≠ backslash by decide]
  | cons ch text ih =>
    rw [show cur ++ ch :: text = cur ++ [ch] ++ text by simp, ← ih, escapeDouble,
      flatMap_cons]
    by_cases hch : isEscapable ch = true
    · rw [if_pos hch, append_assoc, tokenizeLoop.eq_def]
      simp [hch, escapeDouble]
    · have hback : ch ≠ backslash := by
        rintro rfl
        exact hch (by decide)
      have hquote : ch ≠ doubleQuote := by
        rintro rfl
        exact hch (by decide)
      rw [if_neg hch, append_assoc, tokenizeLoop.eq_def]
      simp [hback, hquote, escapeDouble]

theorem tokenizeLoop_backslash : tokenizeLoop tokens cur false false hasContent (escapeAll text ++
    rest) = tokenizeLoop tokens (cur ++ text) false false (hasContent || text ≠ []) rest := by
  induction text generalizing cur hasContent with
  | nil => simp [escapeAll]
  | cons ch text ih =>
    rw [escapeAll_cons, cons_append, cons_append, tokenizeLoop.eq_def]
    simp [ih]

theorem tokenizeLoop_render (word : QuotedWord) : tokenizeLoop tokens cur false false hasContent
    (word.render ++ rest) = tokenizeLoop tokens (cur ++ word.text) false false true rest := by
  obtain ⟨text, quoting, hallowed⟩ := word
  cases quoting with
  | single =>
    rw [show QuotedWord.render ⟨text, .single, hallowed⟩ ++ rest =
      singleQuote :: (text ++ singleQuote :: rest) by simp [QuotedWord.render],
      tokenizeLoop.eq_def]
    simp [show singleQuote ≠ backslash by decide, tokenizeLoop_single hallowed]
  | double =>
    rw [show QuotedWord.render ⟨text, .double, hallowed⟩ ++ rest =
      doubleQuote :: (escapeDouble text ++ doubleQuote :: rest) by simp [QuotedWord.render],
      tokenizeLoop.eq_def]
    simp [show doubleQuote ≠ backslash by decide, show doubleQuote ≠ singleQuote by decide,
      tokenizeLoop_double]
  | backslash =>
    have hne : text ≠ [] := hallowed
    rw [QuotedWord.render, tokenizeLoop_backslash]
    simp [hne]

theorem tokenizeLoop_space : tokenizeLoop tokens cur false false true (space :: rest) =
    tokenizeLoop (tokens ++ [cur]) [] false false false rest := by
  rw [tokenizeLoop.eq_def]
  simp [show space ≠ backslash by decide, show space ≠ singleQuote by decide,
    show space ≠ doubleQuote by decide, show isSpace space = true by decide, pushToken]

theorem tokenizeLoop_words (words : List QuotedWord) : tokenizeLoop tokens
    [] false false false ((words.flatMap fun word => word.render ++ [space]) ++ rest) =
    tokenizeLoop (tokens ++ words.map (·.text)) [] false false false rest := by
  induction words generalizing tokens with
  | nil => simp
  | cons word words ih =>
    rw [flatMap_cons, append_assoc, append_assoc, tokenizeLoop_render,
      singleton_append, tokenizeLoop_space, ih]
    simp

end Tokenize

variable (segment : Segment)

theorem tokenize_render : tokenize segment.render = segment.texts := by
  rw [tokenize, Segment.render, tokenizeLoop_words,
    ← append_nil segment.last.render, tokenizeLoop_render]
  simp [tokenizeLoop, pushToken, Segment.texts]

theorem tokenize_cut (words : List QuotedWord) (text : JsString) :
    tokenize ((words.flatMap fun word => word.render ++ [space]) ++
        (escapeAll text ++ [backslash])) = words.map (·.text) ++ [text ++ [backslash]] := by
  rw [tokenize, tokenizeLoop_words, tokenizeLoop_backslash, tokenizeLoop.eq_def]
  simp [pushToken]

def Opens (s : JsString) : Prop :=
  ∃ ch ∈ s.head?, ch = singleQuote ∨ ch = doubleQuote ∨ ch = backslash

namespace Opens

variable {s t : JsString}

theorem append (h : Opens s) : Opens (s ++ t) := by
  obtain ⟨ch, hch, hopens⟩ := h
  cases s with
  | nil => exact absurd hch (by simp)
  | cons first rest => exact ⟨ch, hch, hopens⟩

theorem ne_nil (h : Opens s) : s ≠ [] := by
  rintro rfl
  obtain ⟨ch, hch, -⟩ := h
  exact absurd hch (by simp)

theorem head (h : Opens s) : ∀ ch ∈ s.head?, isSpace ch = false ∧ ch ≠ bar ∧ ch ≠ ampersand := by
  obtain ⟨ch, hch, hopens⟩ := h
  intro ch' hch'
  obtain rfl := Option.mem_unique hch hch'
  rcases hopens with rfl | rfl | rfl <;> decide

theorem render (word : QuotedWord) : Opens word.render := by
  obtain ⟨text, quoting, hallowed⟩ := word
  cases quoting with
  | single => exact ⟨singleQuote, rfl, Or.inl rfl⟩
  | double => exact ⟨doubleQuote, rfl, Or.inr (Or.inl rfl)⟩
  | backslash =>
    cases text with
    | nil => exact absurd rfl hallowed
    | cons ch text => exact ⟨backslash, rfl, Or.inr (Or.inr rfl)⟩

theorem words (words : List QuotedWord) (h : Opens s) :
    Opens ((words.flatMap fun word => word.render ++ [space]) ++ s) := by
  cases words with
  | nil => exact h
  | cons word words =>
    rw [flatMap_cons, append_assoc, append_assoc]
    exact (render word).append

theorem dropWhile (h : Opens s) : s.dropWhile isSpace = s := by
  cases s with
  | nil => rfl
  | cons ch rest => exact dropWhile_cons_of_neg (by simp [(h.head ch rfl).1])

end Opens

theorem Segment.opens : Opens segment.render :=
  Opens.words segment.init (Opens.render segment.last)

theorem Opens.pieces (pieces : List (Segment × Joint)) {s : JsString} (h : Opens s) :
    Opens ((pieces.flatMap fun piece => piece.1.render ++ piece.2.render) ++ s) := by
  cases pieces with
  | nil => exact h
  | cons piece pieces =>
    rw [flatMap_cons, append_assoc, append_assoc]
    exact piece.1.opens.append

theorem trim_around {before s after : JsString} (hbefore : ∀ ch ∈ before, isSpace ch)
    (hafter : ∀ ch ∈ after, isSpace ch) (hs : Opens s) : trim (before ++ s ++ after) = trim s := by
  rw [trim, trim, append_assoc, dropWhile_append_of_pos hbefore,
    (hs.append : Opens (s ++ after)).dropWhile, hs.dropWhile, List.rdropWhile_append_of_forall hafter]

theorem QuotedWord.trim_render (word : QuotedWord)
    (h : word.quoting = .backslash → ∀ ch ∈ word.text.getLast?, isSpace ch = false) :
    word.render.rdropWhile isSpace = word.render := by
  obtain ⟨text, quoting, hallowed⟩ := word
  cases quoting with
  | single => exact rdropWhile_concat_neg _ (singleQuote :: text) _ (by decide)
  | double => exact rdropWhile_concat_neg _ (doubleQuote :: escapeDouble text) _ (by decide)
  | backslash =>
    cases text using List.reverseRecOn with
    | nil => exact absurd rfl hallowed
    | append_singleton text ch =>
      have hch : isSpace ch = false := h rfl ch (by simp)
      change (escapeAll (text ++ [ch])).rdropWhile isSpace = escapeAll (text ++ [ch])
      rw [escapeAll_append, show escapeAll [ch] = [backslash] ++ [ch] from rfl, ← append_assoc]
      exact rdropWhile_concat_neg isSpace (escapeAll text ++ [backslash]) ch
        (by simp [hch])

theorem Segment.trim_render : ¬ segment.EndsInEscapedSpace ∧ trim segment.render = segment.render ∨
    segment.EndsInEscapedSpace ∧ ∃ text ch, isSpace ch ∧ segment.last.text = text ++ [ch] ∧
    trim segment.render = (segment.init.flatMap fun word => word.render ++ [space]) ++
    (escapeAll text ++ [backslash]) := by
  obtain ⟨init, last⟩ := segment
  rw [trim, (Segment.opens ⟨init, last⟩).dropWhile]
  by_cases hends : EndsInEscapedSpace ⟨init, last⟩
  · right
    obtain ⟨hquoting, ch, hch, hspace⟩ := id hends
    obtain ⟨text, quoting, hallowed⟩ := last
    obtain ⟨text, rfl⟩ := getLast?_eq_some_iff.1 hch
    obtain rfl : quoting = .backslash := hquoting
    have hcut : (escapeAll (text ++ [ch])).rdropWhile isSpace = escapeAll text ++ [backslash] := by
      rw [escapeAll_append, show escapeAll [ch] = [backslash] ++ [ch] from rfl,
        ← append_assoc, rdropWhile_concat_pos _ _ _ hspace,
        rdropWhile_concat_neg _ _ _ (by decide)]
    refine ⟨hends, text, ch, hspace, rfl, ?_⟩
    refine (List.rdropWhile_append_of_ne_nil ?_).trans (congrArg _ hcut)
    exact fun hnil => concat_ne_nil backslash (escapeAll text) (hcut.symm.trans hnil)
  · left
    refine ⟨hends, ?_⟩
    have hlast : last.render.rdropWhile isSpace = last.render := by
      refine last.trim_render fun hquoting ch hch => ?_
      by_contra hspace
      exact hends ⟨hquoting, ch, hch, by simpa using hspace⟩
    refine (List.rdropWhile_append_of_ne_nil ?_).trans (congrArg _ hlast)
    rw [hlast]
    exact (Opens.render last).ne_nil

theorem Segment.opens_trim : Opens (trim segment.render) := by
  rcases segment.trim_render with ⟨-, htrim⟩ | ⟨-, text, ch, -, -, htrim⟩
  · rw [htrim]
    exact segment.opens
  · rw [htrim]
    refine Opens.words segment.init ?_
    cases text with
    | nil => exact ⟨backslash, rfl, Or.inr (Or.inr rfl)⟩
    | cons ch text => exact ⟨backslash, rfl, Or.inr (Or.inr rfl)⟩

theorem Segment.tokenize_trim :
    tokenize (trim segment.render) = segment.texts ↔ ¬ segment.EndsInEscapedSpace := by
  rcases segment.trim_render with ⟨hends, htrim⟩ | ⟨hends, text, ch, hspace, htext, htrim⟩
  · simp [htrim, tokenize_render, hends]
  · rw [htrim, tokenize_cut, Segment.texts, htext]
    have hne : ch ≠ backslash := by
      rintro rfl
      exact absurd hspace (by decide)
    simp [hends, Ne.symm hne]

section Split

variable {out : List RawSegment} {cur rest text : JsString}

attribute [local simp] splitLoop in
theorem splitLoop_single (h : singleQuote ∉ text) : splitLoop out cur true false (text ++
    singleQuote :: rest) = splitLoop out (cur ++ text ++ [singleQuote]) false false rest := by
  induction text generalizing cur with
  | nil =>
    rw [nil_append, splitLoop.eq_def]
    simp
  | cons ch text ih =>
    obtain ⟨hne, htext⟩ := not_or.1 (mt mem_cons.2 h)
    rw [cons_append, splitLoop.eq_def]
    simp [Ne.symm hne, ih htext]

theorem splitLoop_double : splitLoop out cur false true (escapeDouble text ++ doubleQuote :: rest) =
    splitLoop out (cur ++ escapeDouble text ++ [doubleQuote]) false false rest := by
  induction text generalizing cur with
  | nil =>
    rw [escapeDouble, flatMap_nil, nil_append, splitLoop.eq_def]
    simp [show doubleQuote ≠ backslash by decide]
  | cons ch text ih =>
    rw [escapeDouble, flatMap_cons]
    by_cases hch : isEscapable ch = true
    · rw [if_pos hch, append_assoc, splitLoop.eq_def]
      simpa [escapeDouble] using @ih (cur ++ [backslash, ch])
    · have hback : ch ≠ backslash := by
        rintro rfl
        exact hch (by decide)
      have hquote : ch ≠ doubleQuote := by
        rintro rfl
        exact hch (by decide)
      rw [if_neg hch, append_assoc, splitLoop.eq_def]
      simpa [hback, hquote, escapeDouble] using @ih (cur ++ [ch])

theorem splitLoop_backslash : splitLoop out cur false false (escapeAll text ++ rest) =
    splitLoop out (cur ++ escapeAll text) false false rest := by
  induction text generalizing cur with
  | nil => simp [escapeAll]
  | cons ch text ih =>
    rw [escapeAll_cons, cons_append, cons_append, splitLoop.eq_def]
    simp [ih]

theorem splitLoop_render (word : QuotedWord) : splitLoop out cur false false (word.render ++ rest) =
    splitLoop out (cur ++ word.render) false false rest := by
  obtain ⟨text, quoting, hallowed⟩ := word
  cases quoting with
  | single =>
    rw [show QuotedWord.render ⟨text, .single, hallowed⟩ =
      singleQuote :: text ++ [singleQuote] from rfl, append_assoc, singleton_append,
      cons_append, splitLoop.eq_def]
    simp [show singleQuote ≠ backslash by decide, splitLoop_single hallowed]
  | double =>
    rw [show QuotedWord.render ⟨text, .double, hallowed⟩ =
      doubleQuote :: escapeDouble text ++ [doubleQuote] from rfl, append_assoc,
      singleton_append, cons_append, splitLoop.eq_def]
    simp [show doubleQuote ≠ backslash by decide, show doubleQuote ≠ singleQuote by decide,
      splitLoop_double]
  | backslash => exact splitLoop_backslash

theorem splitLoop_spaces (n : ℕ) : splitLoop out cur false false (List.replicate n space ++ rest) =
    splitLoop out (cur ++ List.replicate n space) false false rest := by
  induction n generalizing cur with
  | zero => simp
  | succ n ih =>
    rw [replicate_succ, cons_append, splitLoop.eq_def]
    simp [show space ≠ backslash by decide, show space ≠ singleQuote by decide,
      show space ≠ doubleQuote by decide, show space ≠ bar by decide,
      show space ≠ ampersand by decide, show space ≠ Terminal.semicolon by decide, ih]

theorem splitLoop_words (words : List QuotedWord) :
    splitLoop out cur false false ((words.flatMap fun word => word.render ++ [space]) ++ rest) =
      splitLoop out (cur ++ words.flatMap fun word => word.render ++ [space]) false false rest := by
  induction words generalizing cur with
  | nil => simp
  | cons word words ih =>
    have hspace : splitLoop out (cur ++ word.render) false false ([space] ++
        ((words.flatMap fun word => word.render ++ [space]) ++ rest)) = _ := splitLoop_spaces 1
    rw [flatMap_cons, append_assoc, append_assoc, splitLoop_render, hspace, ih]
    simp

theorem splitLoop_segment (segment : Segment) : splitLoop out cur false false
    (segment.render ++ rest) = splitLoop out (cur ++ segment.render) false false rest := by
  rw [Segment.render, append_assoc, splitLoop_words, splitLoop_render, append_assoc]

theorem splitLoop_separator
    (separator : SegmentSeparator) (hrest : ∀ ch ∈ rest.head?, ch ≠ bar ∧ ch ≠ ampersand) :
    splitLoop out cur false false (separator.render ++ rest) =
    splitLoop (out ++ [⟨trim cur, some separator⟩]) [] false false rest := by
  have hpush : ∀ sep, pushSegment out cur (some sep) = out ++ [⟨trim cur, some sep⟩] := by
    simp [pushSegment]
  cases separator with
  | pipe =>
    cases rest with
    | nil => exact congrArg (splitLoop · [] false false []) (hpush .pipe)
    | cons ch rest =>
      obtain ⟨hbar, hamp⟩ := hrest ch rfl
      rw [SegmentSeparator.render, singleton_append, splitLoop.eq_def]
      simp [show bar ≠ backslash by decide, show bar ≠ singleQuote by decide,
        show bar ≠ doubleQuote by decide, hbar, hamp, hpush]
  | and => exact congrArg (splitLoop · [] false false rest) (hpush .and)
  | or => exact congrArg (splitLoop · [] false false rest) (hpush .or)
  | semicolon =>
    rw [SegmentSeparator.render, singleton_append, splitLoop.eq_def]
    simp [show Terminal.semicolon ≠ backslash by decide,
      show Terminal.semicolon ≠ singleQuote by decide,
      show Terminal.semicolon ≠ doubleQuote by decide, show Terminal.semicolon ≠ bar by decide,
      show Terminal.semicolon ≠ ampersand by decide, hpush]
  | pipeAnd => exact congrArg (splitLoop · [] false false rest) (hpush .pipeAnd)

theorem splitLoop_joint (joint : Joint) (hrest : ∀ ch ∈ rest.head?, ch ≠ bar ∧ ch ≠ ampersand) :
    splitLoop out cur false false (joint.render ++ rest) =
    splitLoop (out ++ [⟨trim (cur ++ List.replicate joint.before space), some joint.separator⟩])
    (List.replicate joint.after space) false false rest := by
  have hafter : ∀ ch ∈ (List.replicate joint.after space ++ rest).head?,
      ch ≠ bar ∧ ch ≠ ampersand := by
    cases joint.after with
    | zero => exact hrest
    | succ n =>
      intro ch hch
      obtain rfl : space = ch := by simpa [replicate_succ] using hch
      decide
  rw [Joint.render, append_assoc, append_assoc, splitLoop_spaces,
    splitLoop_separator _ hafter, splitLoop_spaces, nil_append]

theorem splitLoop_pieces (pieces : List (Segment × Joint)) (hcur : ∀ ch ∈ cur, isSpace ch)
    (hrest : Opens rest) : ∃ cur' : JsString, (∀ ch ∈ cur', isSpace ch) ∧ splitLoop
    out cur false false ((pieces.flatMap fun piece => piece.1.render ++ piece.2.render) ++ rest) =
    splitLoop (out ++ pieces.map fun piece => ⟨trim piece.1.render, some piece.2.separator⟩)
    cur' false false rest := by
  induction pieces generalizing out cur with
  | nil => exact ⟨cur, hcur, by simp⟩
  | cons piece pieces ih =>
    obtain ⟨segment, joint⟩ := piece
    have hspaces : ∀ n, ∀ ch ∈ List.replicate n space, isSpace ch := by
      intro n ch hch
      rw [eq_of_mem_replicate hch]
      decide
    obtain ⟨cur', hcur', hsplit⟩ := ih (hspaces joint.after)
    refine ⟨cur', hcur', ?_⟩
    rw [flatMap_cons, append_assoc, append_assoc, splitLoop_segment,
      splitLoop_joint joint fun ch hch => ((Opens.pieces pieces hrest).head ch hch).2,
      trim_around hcur (hspaces joint.before) segment.opens, hsplit]
    simp

theorem splitLoop_last (segment : Segment) (hcur : ∀ ch ∈ cur, isSpace ch) :
    splitLoop out cur false false (trim segment.render) = out ++ [⟨trim segment.render, none⟩] := by
  have hpush : splitLoop out cur false false (trim segment.render) =
      pushSegment out (cur ++ trim segment.render) none := by
    rcases segment.trim_render with ⟨-, htrim⟩ | ⟨-, text, ch, -, -, htrim⟩
    · rw [htrim, ← append_nil segment.render, splitLoop_segment, append_nil, splitLoop]
    · rw [htrim, splitLoop_words, splitLoop_backslash, splitLoop.eq_def]
      simp
  have htwice : trim (trim segment.render) = trim segment.render := by
    rw [trim, segment.opens_trim.dropWhile, trim, rdropWhile_idempotent]
  have htrimmed : trim (cur ++ trim segment.render) = trim segment.render := by
    have haround := trim_around hcur (by simp : ∀ ch ∈ ([] : JsString), isSpace ch)
      segment.opens_trim
    rwa [append_nil, htwice] at haround
  have hlength : 0 < (trim segment.render).length :=
    length_pos_of_ne_nil segment.opens_trim.ne_nil
  rw [hpush, pushSegment, htrimmed]
  simp [hlength]

end Split

namespace CommandLine

variable (line : CommandLine)

def rawSegments : List RawSegment :=
  (line.init.map fun piece => ⟨trim piece.1.render, some piece.2.separator⟩) ++
    [⟨trim line.last.render, none⟩]

theorem trim_render : trim line.render =
    (line.init.flatMap fun piece => piece.1.render ++ piece.2.render) ++ trim line.last.render := by
  have hlast : trim line.last.render = line.last.render.rdropWhile isSpace := by
    rw [trim, line.last.opens.dropWhile]
  rw [trim, render, (Opens.pieces line.init line.last.opens).dropWhile, hlast]
  exact List.rdropWhile_append_of_ne_nil (hlast ▸ line.last.opens_trim.ne_nil)

theorem splitSegments_render : splitSegments (trim line.render) = line.rawSegments := by
  obtain ⟨cur, hcur, hsplit⟩ := splitLoop_pieces line.init
    (by simp : ∀ ch ∈ ([] : JsString), isSpace ch) line.last.opens_trim
  rw [splitSegments, trim_render, hsplit, splitLoop_last line.last hcur, rawSegments, nil_append]

theorem parseCommand_render :
    parseCommand (some line.render) = some ⟨trim line.render, line.rawSegments.map toSegment⟩ := by
  have hne : trim line.render ≠ [] := by
    rw [trim_render]
    exact (Opens.pieces line.init line.last.opens_trim).ne_nil
  simp [parseCommand, hne, splitSegments_render, rawSegments]

end CommandLine

theorem rawSegments_readings (line : CommandLine) :
    (line.rawSegments.map toSegment).map (fun s => (s.rawTokens, s.trailingSeparator)) =
    line.readings ↔ ∀ segment ∈ line.segments, tokenize (trim segment.render) = segment.texts := by
  simp [CommandLine.rawSegments, CommandLine.readings, CommandLine.segments, toSegment,
    map_inj_left, or_imp, forall_and]

/-- A rendered line is parsed as written unless a segment ends in an escaped blank. -/
theorem parseCommand_reads_back (line : CommandLine) :
    (parseCommand (some line.render)).map ParsedCommand.readings = some line.readings ↔
      ∀ segment ∈ line.segments, ¬ segment.EndsInEscapedSpace := by
  rw [line.parseCommand_render, Option.map_some, Option.some_inj, ParsedCommand.readings,
    rawSegments_readings]
  exact forall₂_congr fun segment _ => segment.tokenize_trim

/-- The word `a` and a blank behind it, each code unit behind a backslash. -/
def escapedBlank : CommandLine := ⟨[], [], ⟨[0x61, space], .backslash, cons_ne_nil _ _⟩⟩

theorem parseCommand_misreads :
    ¬ ∀ line : CommandLine,
      (parseCommand (some line.render)).map ParsedCommand.readings = some line.readings := by
  intro h
  have hread : (parseCommand (some escapedBlank.render)).map ParsedCommand.readings =
      some [([[0x61, backslash]], none)] := by decide
  exact absurd (hread.symm.trans (h escapedBlank)) (by decide)

end CodeOss.Terminal
