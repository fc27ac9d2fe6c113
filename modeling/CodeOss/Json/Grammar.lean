import CodeOss.Json.Parse
import CodeOss.Json.TokenChain

/-! JSON as its grammar has it: terminals, how they are spelled, what may stand
between them, and the value of a text. Comments count as white space. -/

open List

namespace CodeOss.Json

open CharacterCodes

variable {ν : Type}

inductive Terminal
  | openBrace
  | closeBrace
  | openBracket
  | closeBracket
  | comma
  | colon
  | null
  | boolean (b : Bool)
  | number (text : JsString)
  | string (s : JsString)

/-- What stands between the quotes of a string, and the string it denotes. -/
inductive Quoted : JsString → JsString → Prop
  | nil : Quoted [] []
  | char {ch : CodeUnit} {raw s : JsString} (hquote : ch ≠ doubleQuote)
      (hbackslash : ch ≠ backslash) (hcontrol : ¬ch ≤ 0x1F) (h : Quoted raw s) :
      Quoted (ch :: raw) (ch :: s)
  | escape {ch c : CodeUnit} {raw s : JsString} (hescape : simpleEscape ch = some c)
      (h : Quoted raw s) : Quoted (backslash :: ch :: raw) (c :: s)
  | unicode {a b c d : CodeUnit} {i j k l : Nat} {raw s : JsString} (ha : hexDigit a = some i)
      (hb : hexDigit b = some j) (hc : hexDigit c = some k) (hd : hexDigit d = some l)
      (h : Quoted raw s) :
      Quoted (backslash :: 0x75 :: a :: b :: c :: d :: raw)
        (UInt16.ofNat (((i * 16 + j) * 16 + k) * 16 + l) :: s)

def IsNumber (text : JsString) : Prop :=
  isUnsigned text = true ∨ ∃ rest, text = minus :: rest ∧ isUnsigned rest = true

inductive Terminal.Spelled : Terminal → JsString → Prop
  | openBrace : Spelled .openBrace [CharacterCodes.openBrace]
  | closeBrace : Spelled .closeBrace [CharacterCodes.closeBrace]
  | openBracket : Spelled .openBracket [CharacterCodes.openBracket]
  | closeBracket : Spelled .closeBracket [CharacterCodes.closeBracket]
  | comma : Spelled .comma [CharacterCodes.comma]
  | colon : Spelled .colon [CharacterCodes.colon]
  | null : Spelled .null [0x6E, 0x75, 0x6C, 0x6C]
  | yes : Spelled (.boolean true) [0x74, 0x72, 0x75, 0x65]
  | no : Spelled (.boolean false) [0x66, 0x61, 0x6C, 0x73, 0x65]
  | number {text : JsString} (h : IsNumber text) : Spelled (.number text) text
  | string {raw s : JsString} (h : Quoted raw s) :
      Spelled (.string s) (doubleQuote :: raw ++ [doubleQuote])

inductive Blank : JsString → Prop
  | nil : Blank []
  | white {ch : CodeUnit} {text : JsString} (hch : isWhitespace ch = true) (h : Blank text) :
      Blank (ch :: text)
  | lineBreak {ch : CodeUnit} {text : JsString} (hch : isLineBreak ch = true) (h : Blank text) :
      Blank (ch :: text)
  | lineComment {body : JsString} {ch : CodeUnit} {text : JsString}
      (hbody : ∀ c ∈ body, isLineBreak c = false) (hch : isLineBreak ch = true)
      (h : Blank text) : Blank (slash :: slash :: body ++ ch :: text)
  | blockComment {body text : JsString} (hbody : ¬[asterisk, slash] <:+: body ++ [asterisk])
      (h : Blank text) : Blank (slash :: asterisk :: body ++ asterisk :: slash :: text)

/-- At the end of the text a line comment needs no line break. -/
inductive BlankEnd : JsString → Prop
  | blank {text : JsString} (h : Blank text) : BlankEnd text
  | lineComment {text body : JsString} (h : Blank text)
      (hbody : ∀ c ∈ body, isLineBreak c = false) : BlankEnd (text ++ slash :: slash :: body)

/-- The terminals in order, with white space and comments around them. -/
inductive Written : List Terminal → JsString → Prop
  | nil {text : JsString} (h : BlankEnd text) : Written [] text
  | cons {t : Terminal} {ts : List Terminal} {blank spelled text : JsString}
      (hblank : Blank blank) (ht : t.Spelled spelled) (h : Written ts text) :
      Written (t :: ts) (blank ++ spelled ++ text)

section Values

variable (numbers : Numbers ν)

mutual

inductive IsValue : List Terminal → JsValue ν → Prop
  | null : IsValue [.null] .null
  | boolean {b : Bool} : IsValue [.boolean b] (.boolean b)
  | number {text : JsString} (h : IsNumber text) :
      IsValue [.number text] (.number (numbers.ofLiteral text))
  | string {s : JsString} : IsValue [.string s] (.string s)
  | emptyArray : IsValue [.openBracket, .closeBracket] (.array [])
  | array {ts : List Terminal} {els : List (JsValue ν)} (h : IsElements ts els) :
      IsValue (.openBracket :: ts ++ [.closeBracket]) (.array els)
  | emptyObject : IsValue [.openBrace, .closeBrace] (.object [])
  | object {ts : List Terminal} {members : List (JsString × JsValue ν)}
      (h : IsMembers ts members) :
      IsValue (.openBrace :: ts ++ [.closeBrace])
        (.object (members.foldl (fun obj m => JsMap.upsert m.1 m.2 obj) []))

inductive IsElements : List Terminal → List (JsValue ν) → Prop
  | one {ts : List Terminal} {value : JsValue ν} (h : IsValue ts value) :
      IsElements ts [value]
  | more {ts rest : List Terminal} {value : JsValue ν} {els : List (JsValue ν)}
      (h : IsValue ts value) (hrest : IsElements rest els) :
      IsElements (ts ++ .comma :: rest) (value :: els)

/-- Of two members with one name the later one counts. -/
inductive IsMembers : List Terminal → List (JsString × JsValue ν) → Prop
  | one {name : JsString} {ts : List Terminal} {value : JsValue ν} (h : IsValue ts value) :
      IsMembers (.string name :: .colon :: ts) [(name, value)]
  | more {name : JsString} {ts rest : List Terminal} {value : JsValue ν}
      {members : List (JsString × JsValue ν)} (h : IsValue ts value)
      (hrest : IsMembers rest members) :
      IsMembers (.string name :: .colon :: ts ++ .comma :: rest) ((name, value) :: members)

end

def IsText (text : JsString) (value : JsValue ν) : Prop :=
  ∃ ts, IsValue numbers ts value ∧ Written ts text

end Values

end CodeOss.Json

/-! A text of the grammar is scanned into its terminals. -/

namespace CodeOss.Json

open CharacterCodes

namespace Terminal

def kind (t : Terminal) : SyntaxKind :=
  match t with
  | .openBrace => .OpenBraceToken
  | .closeBrace => .CloseBraceToken
  | .openBracket => .OpenBracketToken
  | .closeBracket => .CloseBracketToken
  | .comma => .CommaToken
  | .colon => .ColonToken
  | .null => .NullKeyword
  | .boolean true => .TrueKeyword
  | .boolean false => .FalseKeyword
  | .number _ => .NumericLiteral
  | .string _ => .StringLiteral

def isPunctuation (t : Terminal) : Bool :=
  match t with
  | .openBrace | .closeBrace | .openBracket | .closeBracket | .comma | .colon => true
  | _ => false

/-- What `getTokenValue` must return, where it is read at all. -/
def HasValue (t : Terminal) (value : JsString) : Prop :=
  match t with
  | .number text => value = text
  | .string s => value = s
  | _ => True

end Terminal

variable {α : Type} {ch : CodeUnit} {t : Terminal} {text rest exponent integer body : JsString}

theorem takeWhile_append_of_stop {p : α → Bool} {l rest : List α} (hl : ∀ a ∈ l, p a = true)
    (hrest : ∀ a ∈ rest.head?, p a = false) : (l ++ rest).takeWhile p = l := by
  rw [takeWhile_append_of_pos hl]
  cases rest with
  | nil => rw [takeWhile_nil, append_nil]
  | cons a rest => rw [takeWhile_cons_of_neg (by simp [hrest a rfl]), append_nil]

theorem unit_eq_iff (a b : CodeUnit) : a = b ↔ a.toNat = b.toNat := UInt16.toNat_inj.symm

theorem takeWhile_append_drop (p : α → Bool) (l : List α) :
    l.takeWhile p ++ l.drop (l.takeWhile p).length = l := by
  conv => lhs; arg 2; arg 2; rw [← takeWhile_append_dropWhile (p := p) (l := l)]
  rw [drop_left, takeWhile_append_dropWhile]

/-- What may follow a number or a keyword: a separator, white space or a comment. -/
def isDelimiter (ch : CodeUnit) : Bool := !isUnknownContentCharacter ch

theorem unknownContent_of_isDigit (h : isDigit ch = true) :
    isUnknownContentCharacter ch = true := by
  simp only [isDigit, Bool.and_eq_true, decide_eq_true_eq, UInt16.le_iff_toNat_le] at h
  simp only [isUnknownContentCharacter, isWhitespace, isLineBreak, Bool.and_eq_true,
    Bool.not_eq_true', Bool.or_eq_false_iff, decide_eq_false_iff_not, UInt16.le_iff_toNat_le,
    unit_eq_iff, Bool.and_eq_false_iff]
  simp only [space, tab, verticalTab, formFeed, nonBreakingSpace, ogham, enQuad, zeroWidthSpace,
    narrowNoBreakSpace, mathematicalSpace, ideographicSpace, byteOrderMark, lineFeed,
    carriageReturn, lineSeparator, paragraphSeparator, closeBrace, closeBracket, openBrace,
    openBracket, doubleQuote, colon, comma, slash, UInt16.reduceToNat] at *
  omega

theorem isDigit_of_delimiter (h : isDelimiter ch = true) : isDigit ch = false := by
  by_contra hdigit
  rw [Bool.not_eq_false] at hdigit
  rw [isDelimiter, unknownContent_of_isDigit hdigit] at h
  cases h

theorem ne_of_delimiter {c : CodeUnit} (h : isDelimiter ch = true)
    (hc : isUnknownContentCharacter c = true) : ch ≠ c := by
  rintro rfl
  rw [isDelimiter, hc] at h
  cases h

theorem not_blank_of_unknownContent (h : isUnknownContentCharacter ch = true) : isWhitespace ch =
    false ∧ isLineBreak ch = false ∧ punctuation ch = none ∧ ch ≠ doubleQuote ∧ ch ≠ slash := by
  simp only [isUnknownContentCharacter, Bool.and_eq_true, Bool.not_eq_true', Bool.or_eq_false_iff,
    decide_eq_false_iff_not] at h
  obtain ⟨⟨hwhite, hbreak⟩, ⟨⟨⟨⟨⟨⟨⟨hcb, hck⟩, hob⟩, hok⟩, hquote⟩, hcolon⟩, hcomma⟩, hslash⟩⟩ := h
  exact ⟨hwhite, hbreak, by simp [punctuation, *], hquote, hslash⟩

/-- The text behind a number or a keyword. -/
def Delimited (rest : JsString) : Prop := ∀ ch ∈ rest.head?, isDelimiter ch = true

theorem scanToken_punctuation (h : t.Spelled text) (ht : t.isPunctuation = true) (rest : JsString) :
    scanToken (text ++ rest) = ⟨t.kind, [], .None, text.length⟩ := by
  cases h <;> first | rfl | cases ht

theorem scanToken_word {word : JsString}
    (hword : ∀ c ∈ ch :: word, isUnknownContentCharacter c = true) (hminus : ch ≠ minus)
    (hdigit : isDigit ch = false) (hrest : Delimited rest) : scanToken (ch :: word ++ rest) =
    ⟨keyword (ch :: word), ch :: word, .None, (ch :: word).length⟩ := by
  obtain ⟨hwhite, hbreak, hpunctuation, hquote, hslash⟩ :=
    not_blank_of_unknownContent (hword ch mem_cons_self)
  have htake : (ch :: word ++ rest).takeWhile isUnknownContentCharacter = ch :: word :=
    takeWhile_append_of_stop hword fun c hc => by
      have := hrest c hc
      rwa [isDelimiter, Bool.not_eq_true'] at this
  rw [cons_append] at htake ⊢
  simp only [scanToken, hwhite, hbreak, hpunctuation, hquote, hslash, hminus, hdigit, scanWord,
    htake]
  simp

theorem scanExponent_append (pre : JsString) (hexponent : isExponent exponent = true)
    (hrest : Delimited rest) : scanExponent (pre ++ exponent ++ rest) pre.length =
    ⟨pre ++ exponent, .None, (pre ++ exponent).length⟩ := by
  have hdrop : (pre ++ exponent ++ rest).drop pre.length = exponent ++ rest := by
    rw [append_assoc, drop_left]
  rw [scanExponent, hdrop]
  cases exponent with
  | nil =>
    rw [nil_append, append_nil, take_left]
    cases rest with
    | nil => rfl
    | cons ch rest =>
      have hch := hrest ch rfl
      have hne : ¬(ch = 0x45 ∨ ch = 0x65) :=
        not_or.2 ⟨ne_of_delimiter hch rfl, ne_of_delimiter hch rfl⟩
      simp only [if_neg hne]
  | cons e digits =>
    simp only [isExponent, Bool.and_eq_true, Bool.or_eq_true, decide_eq_true_eq] at hexponent
    obtain ⟨⟨he, hne⟩, hall⟩ := hexponent
    have hsign : exponentSign (digits ++ rest) = exponentSign digits := by
      cases digits with
      | nil => exact absurd (drop_nil) hne
      | cons d digits => rfl
    have htake : ((digits ++ rest).drop (exponentSign digits)).takeWhile isDigit =
        digits.drop (exponentSign digits) := by
      rw [drop_append_of_le_length (exponentSign_le digits)]
      exact takeWhile_append_of_stop (all_eq_true.1 hall)
        fun c hc => isDigit_of_delimiter (hrest c hc)
    have hlen : (pre ++ e :: digits).length =
        pre.length + 1 + exponentSign digits + (digits.drop (exponentSign digits)).length := by
      have := exponentSign_le digits
      simp only [length_append, length_cons, List.length_drop]
      omega
    simp only [cons_append, if_pos he, hsign, htake, if_neg hne]
    rw [← hlen, take_left]

theorem isFraction_cases {fraction : JsString} (h : isFraction fraction = true) : fraction =
    [] ∨ ∃ digits, fraction = dot :: digits ∧ digits ≠ [] ∧ ∀ c ∈ digits, isDigit c = true := by
  cases fraction with
  | nil => exact .inl rfl
  | cons ch digits =>
    simp only [isFraction, Bool.and_eq_true, decide_eq_true_eq, all_eq_true] at h
    exact .inr ⟨digits, by rw [h.1.1], h.1.2, h.2⟩

theorem not_isDigit_exponent (hexponent : isExponent exponent = true) (hrest : Delimited rest) :
    ∀ c ∈ (exponent ++ rest).head?, isDigit c = false := by
  intro c hc
  cases exponent with
  | nil => exact isDigit_of_delimiter (hrest c hc)
  | cons e digits =>
    simp only [isExponent, Bool.and_eq_true, Bool.or_eq_true, decide_eq_true_eq] at hexponent
    obtain rfl : e = c := Option.some.inj hc
    rcases hexponent.1.1 with rfl | rfl <;> rfl

theorem integerLength_append (hinteger : isInteger integer = true)
    (hrest : ∀ c ∈ rest.head?, isDigit c = false) :
    integerLength (integer ++ rest) = integer.length := by
  simp only [isInteger, Bool.or_eq_true, Bool.and_eq_true, decide_eq_true_eq,
    all_eq_true] at hinteger
  rcases hinteger with rfl | ⟨⟨hne, hall⟩, hzero⟩
  · rfl
  · cases integer with
    | nil => exact absurd rfl hne
    | cons d digits =>
      have hd : d ≠ 0x30 := fun h => hzero (congrArg some h)
      rw [cons_append, integerLength, if_neg hd, takeWhile_append_of_stop
        (fun c hc => hall c (mem_cons_of_mem _ hc)) hrest, length_cons, Nat.add_comm]

theorem scanNumber_append {fraction : JsString} (hinteger : isInteger integer = true)
    (hfraction : isFraction fraction = true) (hexponent : isExponent exponent = true)
    (hrest : Delimited rest) : scanNumber (integer ++ fraction ++ exponent ++ rest) =
    ⟨integer ++ fraction ++ exponent, .None, (integer ++ fraction ++ exponent).length⟩ := by
  have hstop := not_isDigit_exponent hexponent hrest
  rcases isFraction_cases hfraction with rfl | ⟨digits, rfl, hne, hdigits⟩
  · rw [append_nil]
    have hlen : integerLength (integer ++ exponent ++ rest) = integer.length := by
      rw [append_assoc]
      exact integerLength_append hinteger hstop
    rw [scanNumber, hlen, append_assoc, drop_left, ← append_assoc]
    have hscan := scanExponent_append integer hexponent hrest
    cases htail : exponent ++ rest with
    | nil => exact hscan
    | cons ch tail =>
      have hdot : ch ≠ dot := by
        rintro rfl
        cases exponent with
        | nil =>
          obtain rfl : rest = dot :: tail := htail
          exact ne_of_delimiter (hrest dot rfl) (by decide) rfl
        | cons e digits =>
          simp only [isExponent, Bool.and_eq_true, Bool.or_eq_true, decide_eq_true_eq] at hexponent
          obtain rfl : e = dot := (List.cons.inj htail).1
          exact absurd hexponent.1.1 (by decide)
      simp only [if_neg hdot]
      exact hscan
  · have hlen : integerLength (integer ++ dot :: digits ++ exponent ++ rest) = integer.length := by
      rw [append_assoc, append_assoc]
      exact integerLength_append hinteger fun c hc => by
        obtain rfl : dot = c := Option.some.inj hc
        rfl
    have hdrop : (integer ++ dot :: digits ++ exponent ++ rest).drop integer.length =
        dot :: (digits ++ (exponent ++ rest)) := by
      rw [append_assoc, append_assoc, drop_left]
      rfl
    have htake : (digits ++ (exponent ++ rest)).takeWhile isDigit = digits :=
      takeWhile_append_of_stop hdigits hstop
    have hpre : integer.length + 1 + digits.length = (integer ++ dot :: digits).length := by
      simp only [length_append, length_cons]
      omega
    rw [scanNumber, hlen, hdrop]
    simp only [if_true, htake, if_neg hne, hpre]
    exact scanExponent_append _ hexponent hrest

theorem isUnsigned_cases (h : isUnsigned text = true) :
    ∃ integer fraction exponent, text = integer ++ fraction ++ exponent ∧
      isInteger integer = true ∧ isFraction fraction = true ∧ isExponent exponent = true := by
  simp only [isUnsigned, Bool.and_eq_true] at h
  refine ⟨_, _, _, ?_, h.1.1, h.1.2, h.2⟩
  rw [append_assoc, takeWhile_append_drop, takeWhile_append_drop]

theorem isInteger_head (h : isInteger integer = true) :
    ∃ d digits, integer = d :: digits ∧ isDigit d = true := by
  simp only [isInteger, Bool.or_eq_true, Bool.and_eq_true, decide_eq_true_eq, all_eq_true] at h
  rcases h with rfl | ⟨⟨hne, hall⟩, -⟩
  · exact ⟨0x30, [], rfl, rfl⟩
  · obtain ⟨d, digits, rfl⟩ := exists_cons_of_ne_nil hne
    exact ⟨d, digits, rfl, hall d mem_cons_self⟩

theorem scanToken_number (h : isUnsigned text = true) (hrest : Delimited rest) :
    scanToken (text ++ rest) = ⟨.NumericLiteral, text, .None, text.length⟩ ∧ scanToken
    (minus :: text ++ rest) = ⟨.NumericLiteral, minus :: text, .None, (minus :: text).length⟩ := by
  obtain ⟨integer, fraction, exponent, rfl, hinteger, hfraction, hexponent⟩ := isUnsigned_cases h
  have hscan := scanNumber_append hinteger hfraction hexponent hrest
  obtain ⟨d, digits, rfl, hd⟩ := isInteger_head hinteger
  obtain ⟨hwhite, hbreak, hpunctuation, hquote, hslash⟩ :=
    not_blank_of_unknownContent (unknownContent_of_isDigit hd)
  have hminus : d ≠ minus := by
    rintro rfl
    cases hd
  simp only [cons_append] at hscan ⊢
  constructor
  · simp only [scanToken, hwhite, hbreak, hpunctuation, hquote, hslash, hminus, hd, hscan]
    simp
  · rw [scanToken]
    simp only [head?_cons, Option.map_some, hd, Option.getD_some, if_true, hscan]
    rw [show isWhitespace minus = false from rfl, show isLineBreak minus = false from rfl,
      show punctuation minus = none from rfl]
    simp only [Bool.false_eq_true, if_false, show ¬minus = doubleQuote by decide,
      show ¬minus = slash by decide, length_cons]
    simp [Nat.add_comm]

theorem scanString_char {ch : CodeUnit} (hquote : ch ≠ doubleQuote) (hbackslash : ch ≠ backslash)
    (hcontrol : ¬ch ≤ 0x1F) (fuel : Nat) (error : ScanError) (rest : JsString) :
    scanString (fuel + 1) error (ch :: rest) = (scanString fuel error rest).after [ch] 1 := by
  cases rest <;> rw [scanString, if_neg hquote, if_neg hbackslash, if_neg hcontrol]

theorem Quoted.scan {raw s : JsString} (h : Quoted raw s) (fuel : Nat) (rest : JsString)
    (hfuel : raw.length < fuel) :
    scanString fuel .None (raw ++ doubleQuote :: rest) = ⟨s, .None, raw.length + 1⟩ := by
  induction h generalizing fuel with
  | nil =>
    obtain ⟨fuel, rfl⟩ := Nat.exists_eq_add_one.2 (Nat.zero_lt_of_lt hfuel)
    rfl
  | @char ch raw s hquote hbackslash hcontrol h ih =>
    obtain ⟨fuel, rfl⟩ := Nat.exists_eq_add_one.2 (Nat.zero_lt_of_lt hfuel)
    rw [cons_append, scanString_char hquote hbackslash hcontrol, ih _ (Nat.lt_of_succ_lt_succ hfuel)]
    simp [Text.after, Nat.add_comm]
  | @escape ch c raw s hescape h ih =>
    obtain ⟨fuel, rfl⟩ := Nat.exists_eq_add_one.2 (Nat.zero_lt_of_lt hfuel)
    simp only [length_cons] at hfuel
    rw [cons_append, cons_append, scanString, if_neg (by decide), if_pos rfl]
    simp only [hescape]
    rw [ih _ (by omega)]
    simp only [Text.after, length_cons, singleton_append, Text.mk.injEq, true_and]
    omega
  | @unicode a b c d i j k l raw s ha hb hc hd h ih =>
    obtain ⟨fuel, rfl⟩ := Nat.exists_eq_add_one.2 (Nat.zero_lt_of_lt hfuel)
    simp only [length_cons] at hfuel
    have hescape : simpleEscape 0x75 = none := rfl
    rw [cons_append, cons_append, scanString, if_neg (by decide), if_pos rfl]
    simp only [cons_append, hescape, if_true, scanHexDigits, ha, hb, hc, hd, Nat.zero_mul,
      Nat.zero_add, drop_succ_cons, drop_zero]
    rw [ih _ (by omega)]
    simp only [Text.after, length_cons, singleton_append, Text.mk.injEq, true_and]
    omega

theorem scanToken_string {raw s : JsString} (h : Quoted raw s) (rest : JsString) :
    scanToken (doubleQuote :: raw ++ [doubleQuote] ++ rest) =
      ⟨.StringLiteral, s, .None, (doubleQuote :: raw ++ [doubleQuote]).length⟩ := by
  have hscan := h.scan ((raw ++ doubleQuote :: rest).length + 1) rest (by
    rw [length_append]
    omega)
  have htext : doubleQuote :: raw ++ [doubleQuote] ++ rest =
      doubleQuote :: (raw ++ doubleQuote :: rest) := by simp
  rw [htext, scanToken, show isWhitespace doubleQuote = false from rfl,
    show isLineBreak doubleQuote = false from rfl, show punctuation doubleQuote = none from rfl]
  simp only [Bool.false_eq_true, if_false, if_true, hscan]
  simp [Nat.add_comm]

theorem Terminal.Spelled.scan
    (h : t.Spelled text) (hrest : t.isPunctuation = true ∨ (∃ s, t = .string s) ∨ Delimited rest) :
    ∃ value, scanToken (text ++ rest) = ⟨t.kind, value, .None, text.length⟩ ∧ t.HasValue value := by
  by_cases hpunctuation : t.isPunctuation = true
  · refine ⟨[], scanToken_punctuation h hpunctuation rest, ?_⟩
    cases t <;> trivial
  · by_cases hstring : ∃ s, t = .string s
    · obtain ⟨s, rfl⟩ := hstring
      cases h with
      | string h => exact ⟨s, scanToken_string h rest, rfl⟩
    · have hdelimited : Delimited rest :=
        (hrest.resolve_left hpunctuation).resolve_left hstring
      cases h with
      | null =>
        exact ⟨_, scanToken_word (all_eq_true.1 rfl) (by decide) rfl hdelimited,
          trivial⟩
      | yes =>
        exact ⟨_, scanToken_word (all_eq_true.1 rfl) (by decide) rfl hdelimited,
          trivial⟩
      | no =>
        exact ⟨_, scanToken_word (all_eq_true.1 rfl) (by decide) rfl hdelimited,
          trivial⟩
      | number h =>
        rcases h with h | ⟨digits, rfl, h⟩
        · exact ⟨_, (scanToken_number h hdelimited).1, rfl⟩
        · exact ⟨_, (scanToken_number h hdelimited).2, rfl⟩
      | string h => exact absurd ⟨_, rfl⟩ hstring
      | _ => exact absurd rfl hpunctuation

theorem scanFrom_fuel {len fuel pos : Nat} (hfuel : text.length ≤ fuel) :
    scanFrom len fuel pos text = scanFrom len text.length pos text := by
  induction fuel using Nat.strongRecOn generalizing pos text with
  | ind fuel ih =>
    cases text with
    | nil => cases fuel <;> rfl
    | cons code rest =>
      obtain ⟨fuel, rfl⟩ := Nat.exists_eq_add_one.2 (Nat.zero_lt_of_lt hfuel)
      obtain ⟨-, hpos, -, -⟩ := scanToken_fits code rest
      have hlen : (code :: rest).length = rest.length + 1 := rfl
      have hdrop : ((code :: rest).drop (scanToken (code :: rest)).length).length ≤
          rest.length := by
        rw [List.length_drop]
        omega
      rw [scanFrom, ih fuel (Nat.lt_succ_self _) (by omega), hlen, scanFrom,
        ih rest.length (by omega) hdrop]

/-- The tokens of what is left of the text behind `pos`. -/
def scanTokens (len pos : Nat) (text : JsString) : List Token := scanFrom len text.length pos text

theorem scanTokens_nil (len pos : Nat) :
    scanTokens len pos [] = [⟨⟨.EOF, [], .None, pos - len⟩, len⟩] := rfl

theorem scanTokens_append (len pos : Nat) {scan : Scan}
    (hne : text ≠ []) (hscan : scanToken (text ++ rest) = scan) (hlen : scan.length = text.length) :
    scanTokens len pos (text ++ rest) = ⟨scan, pos⟩ :: scanTokens len (pos + text.length) rest := by
  obtain ⟨code, tail, rfl⟩ := exists_cons_of_ne_nil hne
  rw [scanTokens, cons_append, length_cons, scanFrom, ← cons_append, hscan, hlen,
    drop_left, scanFrom_fuel (by simp)]
  rfl

def SyntaxKind.isBlank (kind : SyntaxKind) : Bool :=
  match kind with
  | .LineCommentTrivia | .BlockCommentTrivia | .Trivia | .LineBreakTrivia => true
  | _ => false

def Token.isBlank (t : Token) : Prop := t.kind.isBlank = true ∧ t.error = .None

theorem not_isWhitespace_of_isLineBreak (h : isLineBreak ch = true) : isWhitespace ch = false := by
  simp only [isLineBreak, Bool.or_eq_true, decide_eq_true_eq] at h
  rcases h with ((rfl | rfl) | rfl) | rfl <;> rfl

theorem takeWhile_append_of_head {p : α → Bool} {l rest : List α}
    (hrest : ∀ a ∈ rest.head?, p a = false) : (l ++ rest).takeWhile p = l.takeWhile p := by
  induction l with
  | nil =>
    cases rest with
    | nil => rfl
    | cons a rest => exact takeWhile_cons_of_neg (by simp [hrest a rfl])
  | cons a l ih => simp only [cons_append, takeWhile_cons, ih]

/-- What stands behind white space: neither more of it nor a line break. -/
def Solid (rest : JsString) : Prop :=
  ∀ ch ∈ rest.head?, isWhitespace ch = false ∧ isLineBreak ch = false

theorem Blank.tail (h : Blank (ch :: text)) (hch : isWhitespace ch = true ∨ isLineBreak ch = true) :
    Blank text := by
  cases h with
  | white _ h => exact h
  | lineBreak _ h => exact h
  | lineComment => exact absurd hch (by decide)
  | blockComment => exact absurd hch (by decide)

theorem Blank.drop_white (h : Blank text) :
    Blank (text.drop (text.takeWhile isWhitespace).length) := by
  induction text with
  | nil => exact h
  | cons ch text ih =>
    by_cases hch : isWhitespace ch = true
    · rw [takeWhile_cons_of_pos hch]
      exact ih (h.tail (.inl hch))
    · rwa [takeWhile_cons_of_neg hch]

theorem scanBlockComment_append (rest : JsString)
    (hbody : ¬[asterisk, slash] <:+: body ++ [asterisk]) :
    scanBlockComment (body ++ asterisk :: slash :: rest) = (body.length + 2, true) := by
  induction body with
  | nil =>
    rw [nil_append, scanBlockComment]
    exact if_pos ⟨rfl, rfl⟩
  | cons ch body ih =>
    have htail := ih fun htail => hbody (htail.trans (suffix_cons ch _).isInfix)
    have hstop : ∀ next tail, body ++ asterisk :: slash :: rest = next :: tail →
        ¬(ch = asterisk ∧ next = slash) := by
      rintro next tail heq ⟨rfl, rfl⟩
      cases body with
      | nil => exact absurd (List.cons.inj heq).1 (by decide)
      | cons b body =>
        obtain rfl : b = slash := (List.cons.inj heq).1
        exact hbody (List.IsPrefix.isInfix ⟨body ++ [asterisk], rfl⟩)
    obtain ⟨next, tail, heq⟩ : ∃ next tail, body ++ asterisk :: slash :: rest = next :: tail :=
      exists_cons_of_ne_nil (by simp)
    rw [cons_append, heq, scanBlockComment, if_neg (hstop next tail heq), ← heq, htail]
    simp only [length_cons]

theorem scanToken_white (hch : isWhitespace ch = true) (hrest : Solid rest) :
    scanToken (ch :: text ++ rest) = ⟨.Trivia, (ch :: text).takeWhile isWhitespace, .None,
      ((ch :: text).takeWhile isWhitespace).length⟩ := by
  have htake : (ch :: text ++ rest).takeWhile isWhitespace = (ch :: text).takeWhile isWhitespace :=
    takeWhile_append_of_head fun c hc => (hrest c hc).1
  rw [cons_append] at htake ⊢
  rw [scanToken, if_pos hch, htake]

theorem scanToken_lineBreak (hch : isLineBreak ch = true) : scanToken (ch :: rest) = if ch =
    carriageReturn ∧ rest.head? = some lineFeed then ⟨.LineBreakTrivia, [carriageReturn, lineFeed],
    .None, 2⟩ else ⟨.LineBreakTrivia, [ch], .None, 1⟩ := by
  rw [scanToken, if_neg (by simp [not_isWhitespace_of_isLineBreak hch]), if_pos hch]

theorem scanToken_lineComment (rest : JsString) (hbody : ∀ c ∈ body, isLineBreak c = false)
    (hrest : ∀ c ∈ rest.head?, isLineBreak c = true) : scanToken (slash :: slash :: body ++ rest) =
    ⟨.LineCommentTrivia, [], .None, (slash :: slash :: body).length⟩ := by
  have htake : (body ++ rest).takeWhile (fun c => !isLineBreak c) = body :=
    takeWhile_append_of_stop (fun c hc => by simp [hbody c hc]) fun c hc => by simp [hrest c hc]
  show scanComment (slash :: (body ++ rest)) = _
  simp only [scanComment, if_true, htake, length_cons, Scan.mk.injEq, true_and]
  omega

theorem scanToken_blockComment
    (rest : JsString) (hbody : ¬[asterisk, slash] <:+: body ++ [asterisk]) :
    scanToken (slash :: asterisk :: body ++ asterisk :: slash :: rest) =
    ⟨.BlockCommentTrivia, [], .None, (slash :: asterisk :: body ++ [asterisk, slash]).length⟩ := by
  show scanComment (asterisk :: (body ++ asterisk :: slash :: rest)) = _
  have hne : ¬asterisk = slash := by decide
  simp only [scanComment, if_neg hne, if_true, scanBlockComment_append rest hbody,
    length_append, length_cons, length_nil, Scan.mk.injEq, true_and]
  omega

theorem Blank.scan (h : Blank text) (rest : JsString) (hrest : Solid rest) (len pos : Nat) :
    ∃ ts, (∀ t ∈ ts, Token.isBlank t) ∧
      scanTokens len pos (text ++ rest) = ts ++ scanTokens len (pos + text.length) rest := by
  induction hn : text.length using Nat.strongRecOn generalizing text pos with
  | ind n ih =>
    subst hn
    have hmore (kind : SyntaxKind) (value spelled more : JsString) (hblank : Blank more)
        (htext : text = spelled ++ more) (hne : spelled ≠ []) (hkind : kind.isBlank = true)
        (hscan : scanToken (spelled ++ (more ++ rest)) = ⟨kind, value, .None, spelled.length⟩) :
        ∃ ts, (∀ t ∈ ts, Token.isBlank t) ∧
          scanTokens len pos (text ++ rest) = ts ++ scanTokens len (pos + text.length) rest := by
      have hpos := length_pos_iff.2 hne
      have hlength : text.length = spelled.length + more.length := by
        rw [htext, length_append]
      obtain ⟨ts, hts, heq⟩ := ih more.length (by omega) hblank (pos + spelled.length) rfl
      refine ⟨⟨⟨kind, value, .None, spelled.length⟩, pos⟩ :: ts,
        forall_mem_cons.2 ⟨⟨hkind, rfl⟩, hts⟩, ?_⟩
      rw [htext, append_assoc, scanTokens_append _ _ hne hscan rfl, heq, cons_append,
        length_append, Nat.add_assoc]
    cases h with
    | nil => exact ⟨[], fun t ht => (not_mem_nil ht).elim, rfl⟩
    | @white ch text hch h =>
      have hwhole := takeWhile_append_drop isWhitespace (ch :: text)
      refine hmore .Trivia ((ch :: text).takeWhile isWhitespace) ((ch :: text).takeWhile
        isWhitespace) _ (Blank.white hch h).drop_white hwhole.symm ?_ rfl ?_
      · exact length_pos_iff.1 (takeWhile_pos hch)
      · rw [← append_assoc, hwhole]
        exact scanToken_white hch hrest
    | @lineBreak ch text hch h =>
      by_cases hcrlf : ch = carriageReturn ∧ (text ++ rest).head? = some lineFeed
      · obtain ⟨rfl, hhead⟩ := hcrlf
        cases text with
        | nil =>
          have := (hrest lineFeed hhead).2
          cases this
        | cons c text =>
          obtain rfl : c = lineFeed := Option.some.inj hhead
          refine hmore .LineBreakTrivia [carriageReturn, lineFeed] [carriageReturn, lineFeed]
            text (h.tail (.inr rfl)) rfl (by simp) rfl ?_
          exact (scanToken_lineBreak hch).trans (if_pos ⟨rfl, rfl⟩)
      · refine hmore .LineBreakTrivia [ch] [ch] text h rfl (by simp) rfl ?_
        exact (scanToken_lineBreak hch).trans (if_neg hcrlf)
    | @lineComment body ch text hbody hch h =>
      refine hmore .LineCommentTrivia [] (slash :: slash :: body) _ (.lineBreak hch h) rfl
        (by simp) rfl (scanToken_lineComment _ hbody fun c hc => ?_)
      obtain rfl : ch = c := Option.some.inj hc
      exact hch
    | @blockComment body text hbody h =>
      refine hmore .BlockCommentTrivia [] (slash :: asterisk :: body ++ [asterisk, slash]) text h
        (by simp) (by simp) rfl ?_
      have hscan := scanToken_blockComment (text ++ rest) hbody
      simpa using hscan

theorem BlankEnd.scan (h : BlankEnd text) (len pos : Nat) : ∃ ts, (∀ t ∈ ts, Token.isBlank t) ∧
    scanTokens len pos text = ts ++ scanTokens len (pos + text.length) [] := by
  cases h with
  | blank h =>
    obtain ⟨ts, hts, heq⟩ := h.scan [] (fun c hc => by cases hc) len pos
    rw [append_nil] at heq
    exact ⟨ts, hts, heq⟩
  | @lineComment text body h hbody =>
    obtain ⟨ts, hts, heq⟩ := h.scan (slash :: slash :: body)
      (fun c hc => by
        obtain rfl : slash = c := Option.some.inj hc
        exact ⟨rfl, rfl⟩) len pos
    have hscan := scanToken_lineComment [] hbody (fun c hc => by cases hc)
    have hlast := scanTokens_append len (pos + text.length) (by simp) hscan rfl
    rw [append_nil] at hlast
    refine ⟨ts ++ [⟨⟨.LineCommentTrivia, [], .None, (slash :: slash :: body).length⟩,
      pos + text.length⟩], ?_, ?_⟩
    · intro t ht
      rcases List.mem_append.1 ht with ht | ht
      · exact hts t ht
      · rw [mem_singleton.1 ht]
        exact ⟨rfl, rfl⟩
    · rw [heq, hlast, append_assoc, length_append, Nat.add_assoc]
      rfl

/-- The tokens stand for the terminals; there are blank tokens between them. -/
inductive Shows : List Token → List Terminal → Prop
  | nil {blanks : List Token} {t : Token} (hblanks : ∀ b ∈ blanks, Token.isBlank b)
      (ht : t.kind = .EOF) (herror : t.error = .None) : Shows (blanks ++ [t]) []
  | cons {blanks rest : List Token} {t : Token} {terminal : Terminal} {ts : List Terminal}
      (hblanks : ∀ b ∈ blanks, Token.isBlank b) (hkind : t.kind = terminal.kind)
      (herror : t.error = .None) (hvalue : terminal.HasValue t.value) (h : Shows rest ts) :
      Shows (blanks ++ t :: rest) (terminal :: ts)

/-- Numbers and keywords are followed by punctuation. -/
def Separated : List Terminal → Prop
  | [] => True
  | [_] => True
  | t :: next :: rest =>
    (t.isPunctuation = true ∨ (∃ s, t = .string s) ∨ next.isPunctuation = true) ∧
      Separated (next :: rest)

theorem Terminal.Spelled.head (h : t.Spelled text) : ∃ ch rest, text = ch :: rest ∧ isWhitespace
    ch = false ∧ isLineBreak ch = false ∧ (t.isPunctuation = true → isDelimiter ch = true) := by
  cases h with
  | number h =>
    rcases h with h | ⟨digits, rfl, -⟩
    · obtain ⟨integer, fraction, exponent, rfl, hinteger, -, -⟩ := isUnsigned_cases h
      obtain ⟨d, digits, rfl, hd⟩ := isInteger_head hinteger
      obtain ⟨hwhite, hbreak, -, -, -⟩ :=
        not_blank_of_unknownContent (unknownContent_of_isDigit hd)
      exact ⟨d, _, rfl, hwhite, hbreak, fun h => by cases h⟩
    · exact ⟨_, _, rfl, rfl, rfl, fun h => by cases h⟩
  | _ => exact ⟨_, _, rfl, rfl, rfl, fun h => by first | rfl | cases h⟩

theorem Blank.delimited (h : Blank text) (rest : JsString) (hrest : Delimited rest) :
    Delimited (text ++ rest) := by
  have hwhite {ch : CodeUnit} (h : isWhitespace ch = true) : isDelimiter ch = true := by
    simp [isDelimiter, isUnknownContentCharacter, h]
  have hbreak {ch : CodeUnit} (h : isLineBreak ch = true) : isDelimiter ch = true := by
    simp [isDelimiter, isUnknownContentCharacter, h]
  have hslash : isDelimiter slash = true := rfl
  cases h with
  | nil => exact hrest
  | white hch => exact fun c hc => by cases hc; exact hwhite hch
  | lineBreak hch => exact fun c hc => by cases hc; exact hbreak hch
  | lineComment => exact fun c hc => by cases hc; exact hslash
  | blockComment => exact fun c hc => by cases hc; exact hslash

theorem Written.delimited {ts : List Terminal} (h : Written ts text) (hsep : Separated (t :: ts)) :
    t.isPunctuation = true ∨ (∃ s, t = .string s) ∨ Delimited text := by
  cases h with
  | nil h =>
    refine .inr (.inr ?_)
    cases h with
    | blank h =>
      have := h.delimited [] fun c hc => by cases hc
      rwa [append_nil] at this
    | lineComment h => exact h.delimited _ fun c hc => by cases hc; rfl
  | @cons next ts blank spelled text hblank ht h =>
    refine hsep.1.imp_right (Or.imp_right fun hnext => ?_)
    obtain ⟨ch, rest, rfl, -, -, hdelimiter⟩ := ht.head
    rw [append_assoc]
    exact hblank.delimited _ fun c hc => by cases hc; exact hdelimiter hnext

theorem Written.shows {ts : List Terminal} (h : Written ts text) (hsep : Separated ts)
    (len pos : Nat) : Shows (scanTokens len pos text) ts := by
  induction h generalizing pos with
  | nil h =>
    obtain ⟨blanks, hblanks, heq⟩ := h.scan len pos
    rw [heq, scanTokens_nil]
    exact .nil hblanks rfl rfl
  | @cons t ts blank spelled text hblank ht h ih =>
    obtain ⟨ch, tail, hspelled, hwhite, hbreak, -⟩ := ht.head
    have hsolid : Solid (spelled ++ text) := by
      rw [hspelled]
      rintro c hc
      cases hc
      exact ⟨hwhite, hbreak⟩
    obtain ⟨blanks, hblanks, heq⟩ := hblank.scan _ hsolid len pos
    obtain ⟨value, hscan, hvalue⟩ := ht.scan (h.delimited hsep)
    have hne : spelled ≠ [] := by
      rw [hspelled]
      exact cons_ne_nil _ _
    have hrest : Separated ts := by
      cases ts with
      | nil => trivial
      | cons next ts => exact hsep.2
    rw [append_assoc, heq, scanTokens_append _ _ hne hscan rfl]
    exact .cons hblanks rfl rfl hvalue (ih hrest _)

end CodeOss.Json
