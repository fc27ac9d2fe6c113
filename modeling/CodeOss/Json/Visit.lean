import CodeOss.Json.Scanner

/-! `visit`: the fault-tolerant parser. It reads the tokens one after the other
and calls the visitor; the model lists the calls. `ν` are the numbers. -/

namespace CodeOss.Json

open CharacterCodes

inductive ParseErrorCode
  | InvalidSymbol
  | InvalidNumberFormat
  | PropertyNameExpected
  | ValueExpected
  | ColonExpected
  | CommaExpected
  | CloseBraceExpected
  | CloseBracketExpected
  | EndOfFileExpected
  | InvalidCommentToken
  | UnexpectedEndOfComment
  | UnexpectedEndOfString
  | UnexpectedEndOfNumber
  | InvalidUnicode
  | InvalidEscapeCharacter
  | InvalidCharacter
deriving DecidableEq, Repr

structure ParseOptions where
  disallowComments : Bool
  allowTrailingComma : Bool
  allowEmptyContent : Bool
deriving DecidableEq, Repr

def ParseOptions.DEFAULT : ParseOptions := ⟨false, true, false⟩

inductive Literal (ν : Type)
  | null
  | boolean (b : Bool)
  | number (n : ν)
  | string (s : JsString)
deriving DecidableEq, Repr

/-- The calls of a `JSONVisitor`, each with the place of the token it is about. -/
inductive Event (ν : Type)
  | onObjectBegin (offset length : Nat)
  | onObjectProperty (property : JsString) (offset length : Nat)
  | onObjectEnd (offset length : Nat)
  | onArrayBegin (offset length : Nat)
  | onArrayEnd (offset length : Nat)
  | onLiteralValue (value : Literal ν) (offset length : Nat)
  | onSeparator (character : CodeUnit) (offset length : Nat)
  | onComment (offset length : Nat)
  | onError (error : ParseErrorCode) (offset length : Nat)
deriving DecidableEq, Repr

/-- The platform's numbers: the one a number literal denotes, and `String(n)`. -/
structure Numbers (ν : Type) where
  ofLiteral : JsString → ν
  toString : ν → JsString

variable (text : JsString)

/-- The number literals of JSON: an integer, a fraction and an exponent. -/
def isFraction : Bool :=
  match text with
  | [] => true
  | ch :: rest => ch = dot && rest ≠ [] && rest.all isDigit

def isExponent : Bool :=
  match text with
  | [] => true
  | ch :: rest =>
    let digits := rest.drop (exponentSign rest)
    (ch = 0x45 || ch = 0x65) && digits ≠ [] && digits.all isDigit

def isInteger : Bool :=
  text = [0x30] || (text ≠ [] && text.all isDigit && text.head? ≠ some 0x30)

def isUnsigned : Bool :=
  let integer := text.takeWhile isDigit
  let rest := text.drop integer.length
  let fraction := rest.takeWhile (fun ch => ch = dot || isDigit ch)
  isInteger integer && isFraction fraction && isExponent (rest.drop fraction.length)

/-- `JSON.parse` on the value of a number token, `none` for a `SyntaxError`. -/
def Numbers.parse {ν : Type} (numbers : Numbers ν) (text : JsString) : Option ν :=
  let unsigned := if text.head? = some minus then text.tail else text
  if isUnsigned unsigned then some (numbers.ofLiteral text) else none

variable {ν : Type}

/-- The scanner and what the visitor was called with so far. -/
structure Visitor (ν : Type) where
  token : Token
  rest : List Token
  events : List (Event ν)

section Parser

variable (numbers : Numbers ν) (options : ParseOptions)

def scanErrorCode (error : ScanError) : Option ParseErrorCode :=
  match error with
  | .None => none
  | .InvalidUnicode => some .InvalidUnicode
  | .InvalidEscapeCharacter => some .InvalidEscapeCharacter
  | .UnexpectedEndOfNumber => some .UnexpectedEndOfNumber
  | .UnexpectedEndOfComment =>
    if options.disallowComments then none else some .UnexpectedEndOfComment
  | .UnexpectedEndOfString => some .UnexpectedEndOfString
  | .InvalidCharacter => some .InvalidCharacter

/-- What `scanNext` tells the visitor about a token it has just read. -/
def reports (t : Token) : List (Event ν) :=
  ((scanErrorCode options t.error).map (fun code => .onError code t.offset t.length)).toList ++
    match t.kind with
    | .LineCommentTrivia | .BlockCommentTrivia =>
      if options.disallowComments then [.onError .InvalidCommentToken t.offset t.length]
      else [.onComment t.offset t.length]
    | .Unknown => [.onError .InvalidSymbol t.offset t.length]
    | _ => []

def SyntaxKind.isSkipped (kind : SyntaxKind) : Bool :=
  match kind with
  | .LineCommentTrivia | .BlockCommentTrivia | .Unknown | .Trivia | .LineBreakTrivia => true
  | _ => false

def scanNextFrom (token : Token) : List Token → List (Event ν) → Visitor ν
  | [], events => ⟨token, [], events⟩
  | t :: rest, events =>
    if t.kind.isSkipped then scanNextFrom t rest (events ++ reports options t)
    else ⟨t, rest, events ++ reports options t⟩

namespace Visitor

def scanNext (s : Visitor ν) : Visitor ν := scanNextFrom options s.token s.rest s.events

def emit (s : Visitor ν) (event : Nat → Nat → Event ν) : Visitor ν :=
  { s with events := s.events ++ [event s.token.offset s.token.length] }

/-- The loop of `handleError`; every round but the last reads a token. -/
def skip (skipUntilAfter skipUntil : List SyntaxKind) : Nat → Visitor ν → Visitor ν
  | 0, s => s
  | fuel + 1, s =>
    if s.token.kind = .EOF then s
    else if s.token.kind ∈ skipUntilAfter then s.scanNext options
    else if s.token.kind ∈ skipUntil then s
    else skip skipUntilAfter skipUntil fuel (s.scanNext options)

variable (s : Visitor ν)

def handleError (error : ParseErrorCode) (skipUntilAfter skipUntil : List SyntaxKind) : Visitor ν :=
  let s := s.emit (.onError error)
  if skipUntilAfter.length + skipUntil.length > 0 then
    s.skip options skipUntilAfter skipUntil (s.rest.length + 1)
  else s

def parseString (isValue : Bool) : Visitor ν :=
  let value := s.token.value
  let s := if isValue then s.emit (.onLiteralValue (.string value))
    else s.emit (.onObjectProperty value)
  s.scanNext options

/-- `none` where the token is no literal. -/
def parseLiteral : Visitor ν × Bool :=
  match s.token.kind with
  | .NumericLiteral =>
    match numbers.parse s.token.value with
    | some value => ((s.emit (.onLiteralValue (.number value))).scanNext options, true)
    | none =>
      let s := s.handleError options .InvalidNumberFormat [] []
      ((s.emit (.onLiteralValue (.number (numbers.ofLiteral [0x30])))).scanNext options, true)
  | .NullKeyword => ((s.emit (.onLiteralValue .null)).scanNext options, true)
  | .TrueKeyword => ((s.emit (.onLiteralValue (.boolean true))).scanNext options, true)
  | .FalseKeyword => ((s.emit (.onLiteralValue (.boolean false))).scanNext options, true)
  | _ => (s, false)

variable (parseValue : Visitor ν → Option (Visitor ν × Bool))

def parseProperty (s : Visitor ν) : Option (Visitor ν × Bool) :=
  if s.token.kind ≠ .StringLiteral then
    some (s.handleError options .PropertyNameExpected [] [.CloseBraceToken, .CommaToken], false)
  else
    let s := s.parseString options false
    if s.token.kind = .ColonToken then
      let s := (s.emit (.onSeparator colon)).scanNext options
      match parseValue s with
      | none => none
      | some (s, true) => some (s, true)
      | some (s, false) =>
        some (s.handleError options .ValueExpected [] [.CloseBraceToken, .CommaToken], true)
    else
      some (s.handleError options .ColonExpected [] [.CloseBraceToken, .CommaToken], true)

/-- The loop that objects and arrays share: what is between the brackets. -/
def parseItems (close : SyntaxKind) (parseItem : Visitor ν → Option (Visitor ν × Bool)) :
    Nat → Bool → Visitor ν → Option (Visitor ν)
  | 0, _, _ => none
  | fuel + 1, needsComma, s =>
    let round (s : Visitor ν) : Option (Visitor ν) :=
      match parseItem s with
      | none => none
      | some (s, true) => parseItems close parseItem fuel true s
      | some (s, false) =>
        parseItems close parseItem fuel true
          (s.handleError options .ValueExpected [] [close, .CommaToken])
    if s.token.kind = close ∨ s.token.kind = .EOF then some s
    else if s.token.kind = .CommaToken then
      let s := if needsComma then s else s.handleError options .ValueExpected [] []
      let s := (s.emit (.onSeparator comma)).scanNext options
      if s.token.kind = close ∧ options.allowTrailingComma then some s else round s
    else round (if needsComma then s.handleError options .CommaExpected [] [] else s)

def closeWith (close : SyntaxKind) (expected : ParseErrorCode) (s : Visitor ν) : Visitor ν :=
  if s.token.kind ≠ close then s.handleError options expected [close] []
  else s.scanNext options

def parseObject (fuel : Nat) (s : Visitor ν) : Option (Visitor ν) :=
  let s := (s.emit .onObjectBegin).scanNext options
  match s.parseItems options .CloseBraceToken (parseProperty options parseValue) fuel false with
  | none => none
  | some s =>
    some ((s.emit .onObjectEnd).closeWith options .CloseBraceToken .CloseBraceExpected)

def parseArray (fuel : Nat) (s : Visitor ν) : Option (Visitor ν) :=
  let s := (s.emit .onArrayBegin).scanNext options
  match s.parseItems options .CloseBracketToken parseValue fuel false with
  | none => none
  | some s =>
    some ((s.emit .onArrayEnd).closeWith options .CloseBracketToken .CloseBracketExpected)

end Visitor

/-- `false` where there is no value at the token. -/
def Visitor.parseValue : Nat → Visitor ν → Option (Visitor ν × Bool)
  | 0, _ => none
  | fuel + 1, s =>
    match s.token.kind with
    | .OpenBracketToken => (s.parseArray options (parseValue fuel) fuel).map (·, true)
    | .OpenBraceToken => (s.parseObject options (parseValue fuel) fuel).map (·, true)
    | .StringLiteral => some (s.parseString options true, true)
    | _ => some (s.parseLiteral numbers options)

def unscanned : Token := ⟨⟨.Unknown, [], .None, 0⟩, 0⟩

def visitTokens (tokens : List Token) : Option (List (Event ν)) :=
  let s := Visitor.scanNext options ⟨unscanned, tokens, []⟩
  if s.token.kind = .EOF then
    if options.allowEmptyContent then some s.events
    else some (s.handleError options .ValueExpected [] []).events
  else
    match s.parseValue numbers options (tokens.length + 1) with
    | none => none
    | some (s, false) => some (s.handleError options .ValueExpected [] []).events
    | some (s, true) =>
      if s.token.kind ≠ .EOF then some (s.handleError options .EndOfFileExpected [] []).events
      else some s.events

/-- The calls of the visitor, in order; `none` is a parse out of fuel. -/
def visit (text : JsString) : Option (List (Event ν)) :=
  visitTokens numbers options (scanAll text)

end Parser

end CodeOss.Json
