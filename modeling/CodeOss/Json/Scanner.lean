import CodeOss.Base.JsString

/-! The JSON scanner. A token is read off the front of the text that is left;
`scanAll` lists what successive calls of `scan` return, the end of file last. -/

namespace CodeOss.Json

inductive ScanError
  | None
  | UnexpectedEndOfComment
  | UnexpectedEndOfString
  | UnexpectedEndOfNumber
  | InvalidUnicode
  | InvalidEscapeCharacter
  | InvalidCharacter
deriving DecidableEq, Repr

inductive SyntaxKind
  | OpenBraceToken
  | CloseBraceToken
  | OpenBracketToken
  | CloseBracketToken
  | CommaToken
  | ColonToken
  | NullKeyword
  | TrueKeyword
  | FalseKeyword
  | StringLiteral
  | NumericLiteral
  | LineCommentTrivia
  | BlockCommentTrivia
  | LineBreakTrivia
  | Trivia
  | Unknown
  | EOF
deriving DecidableEq, Repr

namespace CharacterCodes

def lineFeed : CodeUnit := 0x0A
def carriageReturn : CodeUnit := 0x0D
def lineSeparator : CodeUnit := 0x2028
def paragraphSeparator : CodeUnit := 0x2029
def space : CodeUnit := 0x20
def nonBreakingSpace : CodeUnit := 0xA0
def enQuad : CodeUnit := 0x2000
def zeroWidthSpace : CodeUnit := 0x200B
def narrowNoBreakSpace : CodeUnit := 0x202F
def ideographicSpace : CodeUnit := 0x3000
def mathematicalSpace : CodeUnit := 0x205F
def ogham : CodeUnit := 0x1680
def byteOrderMark : CodeUnit := 0xFEFF
def formFeed : CodeUnit := 0x0C
def tab : CodeUnit := 0x09
def verticalTab : CodeUnit := 0x0B
def backspace : CodeUnit := 0x08
def openBrace : CodeUnit := 0x7B
def closeBrace : CodeUnit := 0x7D
def openBracket : CodeUnit := 0x5B
def closeBracket : CodeUnit := 0x5D
def colon : CodeUnit := 0x3A
def comma : CodeUnit := 0x2C
def doubleQuote : CodeUnit := 0x22
def backslash : CodeUnit := 0x5C
def slash : CodeUnit := 0x2F
def asterisk : CodeUnit := 0x2A
def minus : CodeUnit := 0x2D
def plus : CodeUnit := 0x2B
def dot : CodeUnit := 0x2E

end CharacterCodes

open CharacterCodes

variable (ch : CodeUnit)

def isWhitespace : Bool :=
  ch = space || ch = tab || ch = verticalTab || ch = formFeed || ch = nonBreakingSpace ||
    ch = ogham || (enQuad ≤ ch && ch ≤ zeroWidthSpace) || ch = narrowNoBreakSpace ||
    ch = mathematicalSpace || ch = ideographicSpace || ch = byteOrderMark

def isLineBreak : Bool :=
  ch = lineFeed || ch = carriageReturn || ch = lineSeparator || ch = paragraphSeparator

def isDigit : Bool := 0x30 ≤ ch && ch ≤ 0x39

def isUnknownContentCharacter : Bool :=
  !(isWhitespace ch || isLineBreak ch) &&
    !(ch = closeBrace || ch = closeBracket || ch = openBrace || ch = openBracket ||
      ch = doubleQuote || ch = colon || ch = comma || ch = slash)

/-- What one call of `scanNext` reads; `length` is how far it moves on. -/
structure Scan where
  kind : SyntaxKind
  value : JsString
  error : ScanError
  length : Nat
deriving DecidableEq, Repr

def hexDigit : Option Nat :=
  if 0x30 ≤ ch && ch ≤ 0x39 then some (ch.toNat - 0x30)
  else if 0x41 ≤ ch && ch ≤ 0x46 then some (ch.toNat - 0x41 + 10)
  else if 0x61 ≤ ch && ch ≤ 0x66 then some (ch.toNat - 0x61 + 10)
  else none

/-- The digits passed and the value, `none` where fewer than `count` are there. -/
def scanHexDigits : Nat → Nat → JsString → Nat × Option Nat
  | 0, hexValue, _ => (0, some hexValue)
  | _ + 1, _, [] => (0, none)
  | count + 1, hexValue, ch :: rest =>
    match hexDigit ch with
    | none => (0, none)
    | some digit =>
      let scanned := scanHexDigits count (hexValue * 16 + digit) rest
      (scanned.1 + 1, scanned.2)

def simpleEscape : Option CodeUnit :=
  if ch = doubleQuote then some doubleQuote
  else if ch = backslash then some backslash
  else if ch = slash then some slash
  else if ch = 0x62 then some backspace
  else if ch = 0x66 then some formFeed
  else if ch = 0x6E then some lineFeed
  else if ch = 0x72 then some carriageReturn
  else if ch = 0x74 then some tab
  else none

structure Text where
  value : JsString
  error : ScanError
  length : Nat
deriving DecidableEq, Repr

def Text.after (t : Text) (read : JsString) (n : Nat) : Text :=
  { t with value := read ++ t.value, length := n + t.length }

/-- From behind the opening quote; the last error found stays. Every round
passes a code unit, so the length of the text is fuel enough. -/
def scanString : Nat → ScanError → JsString → Text
  | 0, _, _ => ⟨[], .UnexpectedEndOfString, 0⟩
  | _ + 1, _, [] => ⟨[], .UnexpectedEndOfString, 0⟩
  | fuel + 1, error, ch :: rest =>
    if ch = doubleQuote then ⟨[], error, 1⟩
    else if ch = backslash then
      match rest with
      | [] => ⟨[], .UnexpectedEndOfString, 1⟩
      | ch2 :: rest =>
        match simpleEscape ch2 with
        | some c => (scanString fuel error rest).after [c] 2
        | none =>
          if ch2 = 0x75 then
            let ch3 := scanHexDigits 4 0 rest
            match ch3.2 with
            | some hexValue =>
              (scanString fuel error (rest.drop ch3.1)).after
                [UInt16.ofNat hexValue] (2 + ch3.1)
            | none =>
              (scanString fuel .InvalidUnicode (rest.drop ch3.1)).after [] (2 + ch3.1)
          else (scanString fuel .InvalidEscapeCharacter rest).after [] 2
    else if ch ≤ 0x1F then
      if isLineBreak ch then ⟨[], .UnexpectedEndOfString, 0⟩
      else (scanString fuel .InvalidCharacter rest).after [ch] 1
    else (scanString fuel error rest).after [ch] 1

variable (text : JsString)

def exponentSign : Nat :=
  match text with
  | ch :: _ => if ch = plus ∨ ch = minus then 1 else 0
  | [] => 0

/-- `text` starts with the exponent; the first `n` code units are the number so far. -/
def scanExponent (number : JsString) (n : Nat) : Text :=
  match number.drop n with
  | ch :: rest =>
    if ch = 0x45 ∨ ch = 0x65 then
      let sign := exponentSign rest
      let digits := (rest.drop sign).takeWhile isDigit
      if digits = [] then ⟨number.take n, .UnexpectedEndOfNumber, n + 1 + sign⟩
      else
        ⟨number.take (n + 1 + sign + digits.length), .None, n + 1 + sign + digits.length⟩
    else ⟨number.take n, .None, n⟩
  | [] => ⟨number.take n, .None, n⟩

def integerLength (number : JsString) : Nat :=
  match number with
  | ch :: rest => if ch = 0x30 then 1 else 1 + (rest.takeWhile isDigit).length
  | [] => 0

def scanNumber (number : JsString) : Text :=
  let n := integerLength number
  match number.drop n with
  | ch :: rest =>
    if ch = dot then
      let digits := rest.takeWhile isDigit
      if digits = [] then ⟨number.take (n + 1), .UnexpectedEndOfNumber, n + 1⟩
      else scanExponent number (n + 1 + digits.length)
    else scanExponent number n
  | [] => scanExponent number n

/-- From behind the opening of the comment: the code units passed, and whether
the comment was closed. At the very end of the text one more is counted than
there is. -/
def scanBlockComment : JsString → Nat × Bool
  | [] => (1, false)
  | [_] => (1, false)
  | ch :: next :: rest =>
    if ch = asterisk ∧ next = slash then (2, true)
    else
      let scanned := scanBlockComment (next :: rest)
      (scanned.1 + 1, scanned.2)

def punctuation : Option SyntaxKind :=
  if ch = openBrace then some .OpenBraceToken
  else if ch = closeBrace then some .CloseBraceToken
  else if ch = openBracket then some .OpenBracketToken
  else if ch = closeBracket then some .CloseBracketToken
  else if ch = colon then some .ColonToken
  else if ch = comma then some .CommaToken
  else none

def keyword (word : JsString) : SyntaxKind :=
  if word = [0x74, 0x72, 0x75, 0x65] then .TrueKeyword
  else if word = [0x66, 0x61, 0x6C, 0x73, 0x65] then .FalseKeyword
  else if word = [0x6E, 0x75, 0x6C, 0x6C] then .NullKeyword
  else .Unknown

def scanComment (rest : JsString) : Scan :=
  match rest with
  | ch :: rest =>
    if ch = slash then
      ⟨.LineCommentTrivia, [], .None, 2 + (rest.takeWhile (fun c => !isLineBreak c)).length⟩
    else if ch = asterisk then
      let body := scanBlockComment rest
      ⟨.BlockCommentTrivia, [], if body.2 then .None else .UnexpectedEndOfComment, 2 + body.1⟩
    else ⟨.Unknown, [slash], .None, 1⟩
  | [] => ⟨.Unknown, [slash], .None, 1⟩

def scanWord : Scan :=
  let word := text.takeWhile isUnknownContentCharacter
  if word ≠ [] then ⟨keyword word, word, .None, word.length⟩
  else ⟨.Unknown, text.take 1, .None, 1⟩

/-- `scanNext`, on the text that is left. Nothing reads the value of a comment. -/
def scanToken : Scan :=
  match text with
  | [] => ⟨.EOF, [], .None, 0⟩
  | code :: rest =>
    if isWhitespace code then
      let blanks := text.takeWhile isWhitespace
      ⟨.Trivia, blanks, .None, blanks.length⟩
    else if isLineBreak code then
      if code = carriageReturn ∧ rest.head? = some lineFeed then
        ⟨.LineBreakTrivia, [carriageReturn, lineFeed], .None, 2⟩
      else ⟨.LineBreakTrivia, [code], .None, 1⟩
    else
      match punctuation code with
      | some kind => ⟨kind, [], .None, 1⟩
      | none =>
        if code = doubleQuote then
          let scanned := scanString (rest.length + 1) .None rest
          ⟨.StringLiteral, scanned.value, scanned.error, 1 + scanned.length⟩
        else if code = slash then scanComment rest
        else if code = minus then
          if (rest.head?.map isDigit).getD false then
            let scanned := scanNumber rest
            ⟨.NumericLiteral, minus :: scanned.value, scanned.error, 1 + scanned.length⟩
          else ⟨.Unknown, [minus], .None, 1⟩
        else if isDigit code then
          let scanned := scanNumber text
          ⟨.NumericLiteral, scanned.value, scanned.error, scanned.length⟩
        else scanWord text

structure Token extends Scan where
  offset : Nat
deriving DecidableEq, Repr

/-- At the end the offset is the length of the text, also where the scanner has
moved past it. -/
def scanFrom (len : Nat) : Nat → Nat → JsString → List Token
  | _, pos, [] => [⟨⟨.EOF, [], .None, pos - len⟩, len⟩]
  | 0, _, _ :: _ => []
  | fuel + 1, pos, code :: rest =>
    let scan := scanToken (code :: rest)
    ⟨scan, pos⟩ :: scanFrom len fuel (pos + scan.length) ((code :: rest).drop scan.length)

def scanAll : List Token := scanFrom text.length text.length 0 text

end CodeOss.Json
