import CodeOss.Base.JsString

/-! The command lines of the terminal tool: a line is cut at its separators, and each of the pieces
into words. The two scanners keep their own quote states. -/

namespace CodeOss.Terminal

def singleQuote : CodeUnit := 0x27
def doubleQuote : CodeUnit := 0x22
def backslash : CodeUnit := 0x5C
def dollar : CodeUnit := 0x24
def backtick : CodeUnit := 0x60
def bar : CodeUnit := 0x7C
def ampersand : CodeUnit := 0x26
def semicolon : CodeUnit := 0x3B
def space : CodeUnit := 0x20
def hyphen : CodeUnit := 0x2D
def equals : CodeUnit := 0x3D
def underscore : CodeUnit := 0x5F

variable (ch : CodeUnit)

/-- A code unit that `\s` matches, which are those that `trim` cuts off. -/
def isSpace : Bool :=
  (9 ≤ ch && ch ≤ 13) || ch = space || ch = 0xA0 || ch = 0x1680 || (0x2000 ≤ ch && ch ≤ 0x200A) ||
    ch = 0x2028 || ch = 0x2029 || ch = 0x202F || ch = 0x205F || ch = 0x3000 || ch = 0xFEFF

def trim (s : JsString) : JsString := (s.dropWhile isSpace).rdropWhile isSpace

/-- The code units that a backslash protects between double quotes. -/
def isEscapable : Bool :=
  ch = backslash || ch = doubleQuote || ch = dollar || ch = backtick

def pushToken (tokens : List JsString) (cur : JsString) (hasContent : Bool) : List JsString :=
  if cur.length > 0 || hasContent then tokens ++ [cur] else tokens

def tokenizeLoop (tokens : List JsString) (cur : JsString) (inSingle inDouble hasContent : Bool) :
    JsString → List JsString
  | [] => pushToken tokens cur hasContent
  | ch :: rest =>
    if inSingle then
      if ch = singleQuote then tokenizeLoop tokens cur false inDouble hasContent rest
      else tokenizeLoop tokens (cur ++ [ch]) true inDouble hasContent rest
    else if inDouble then
      if ch = backslash then
        match rest with
        | [] => pushToken tokens (cur ++ [ch]) hasContent
        | next :: rest =>
          if isEscapable next then tokenizeLoop tokens (cur ++ [next]) false true hasContent rest
          else tokenizeLoop tokens (cur ++ [ch]) false true hasContent (next :: rest)
      else if ch = doubleQuote then tokenizeLoop tokens cur false false hasContent rest
      else tokenizeLoop tokens (cur ++ [ch]) false true hasContent rest
    else if ch = backslash then
      match rest with
      | [] => pushToken tokens (cur ++ [ch]) true
      | next :: rest => tokenizeLoop tokens (cur ++ [next]) false false true rest
    else if ch = singleQuote then tokenizeLoop tokens cur true false true rest
    else if ch = doubleQuote then tokenizeLoop tokens cur false true true rest
    else if isSpace ch then
      tokenizeLoop (pushToken tokens cur hasContent) [] false false false rest
    else tokenizeLoop tokens (cur ++ [ch]) false false true rest

def tokenize (segment : JsString) : List JsString :=
  tokenizeLoop [] [] false false false segment

inductive SegmentSeparator
  | pipe
  | and
  | or
  | semicolon
  | pipeAnd
  deriving DecidableEq, Repr

structure RawSegment where
  raw : JsString
  sep : Option SegmentSeparator
  deriving DecidableEq, Repr

def pushSegment (out : List RawSegment) (cur : JsString) (sep : Option SegmentSeparator) :
    List RawSegment :=
  if (trim cur).length > 0 || sep ≠ none then out ++ [⟨trim cur, sep⟩] else out

def splitLoop (out : List RawSegment) (cur : JsString) (inSingle inDouble : Bool) :
    JsString → List RawSegment
  | [] => pushSegment out cur none
  | ch :: rest =>
    if inSingle then splitLoop out (cur ++ [ch]) (ch ≠ singleQuote) inDouble rest
    else if inDouble then
      if ch = backslash then
        match rest with
        | [] => pushSegment out (cur ++ [ch]) none
        | next :: rest => splitLoop out (cur ++ [ch, next]) false true rest
      else splitLoop out (cur ++ [ch]) false (ch ≠ doubleQuote) rest
    else if ch = backslash then
      match rest with
      | [] => pushSegment out (cur ++ [ch]) none
      | next :: rest => splitLoop out (cur ++ [ch, next]) false false rest
    else if ch = singleQuote then splitLoop out (cur ++ [ch]) true false rest
    else if ch = doubleQuote then splitLoop out (cur ++ [ch]) false true rest
    else if ch = bar then
      match rest with
      | [] => splitLoop (pushSegment out cur (some .pipe)) [] false false []
      | next :: rest =>
        if next = bar then splitLoop (pushSegment out cur (some .or)) [] false false rest
        else if next = ampersand then
          splitLoop (pushSegment out cur (some .pipeAnd)) [] false false rest
        else splitLoop (pushSegment out cur (some .pipe)) [] false false (next :: rest)
    else if ch = ampersand then
      match rest with
      | [] => pushSegment out (cur ++ [ch]) none
      | next :: rest =>
        if next = ampersand then splitLoop (pushSegment out cur (some .and)) [] false false rest
        else splitLoop out (cur ++ [ch]) false false (next :: rest)
    else if ch = semicolon then
      splitLoop (pushSegment out cur (some .semicolon)) [] false false rest
    else splitLoop out (cur ++ [ch]) false false rest

def splitSegments (command : JsString) : List RawSegment :=
  splitLoop [] [] false false command

def ascii (s : String) : JsString := s.toList.map fun c => UInt16.ofNat c.toNat

def wrapperPrograms : List JsString :=
  ["sudo", "doas", "time", "command", "builtin", "exec", "nice", "ionice", "nohup", "env", "xargs",
    "stdbuf", "unbuffer", "script", "timeout"].map ascii

def isDigit : Bool := 0x30 ≤ ch && ch ≤ 0x39

def isLetter : Bool := (0x41 ≤ ch && ch ≤ 0x5A) || (0x61 ≤ ch && ch ≤ 0x7A)

def isLineTerminator : Bool := ch = 10 || ch = 13 || ch = 0x2028 || ch = 0x2029

/-- `/^[A-Za-z_][A-Za-z0-9_]*=.*$/`. -/
def isEnvAssign : JsString → Bool
  | [] => false
  | first :: rest =>
    (isLetter first || first = underscore) &&
      match rest.dropWhile fun ch => isLetter ch || isDigit ch || ch = underscore with
      | [] => false
      | ch :: value => ch = equals && value.all fun ch => !isLineTerminator ch

structure Stripped where
  tokens : List JsString
  envPrefixes : List JsString
  wrappers : List JsString
  deriving DecidableEq, Repr

/-- The tokens behind the wrapper `tok`, or those where a wrapper may stand. -/
def stripWrappers (tok : Option JsString) : List JsString → Stripped
  | [] => ⟨[], [], []⟩
  | next :: rest =>
    if tok ≠ none ∧ next = [hyphen, hyphen] then stripWrappers none rest
    else if tok ≠ none ∧ next.head? = some hyphen then stripWrappers tok rest
    else if tok ≠ none ∧ isEnvAssign next then
      let stripped := stripWrappers tok rest
      { stripped with envPrefixes := next :: stripped.envPrefixes }
    else if (∃ name ∈ tok, name ∈ [ascii "timeout", ascii "nice", ascii "ionice"]) ∧
        next.head?.any isDigit then stripWrappers tok rest
    else if next ∈ wrapperPrograms then
      let stripped := stripWrappers (some next) rest
      { stripped with wrappers := next :: stripped.wrappers }
    else ⟨next :: rest, [], []⟩

def stripPrefixesAndWrappers (rawTokens : List JsString) : Stripped :=
  let stripped := stripWrappers none (rawTokens.dropWhile isEnvAssign)
  { stripped with envPrefixes := rawTokens.takeWhile isEnvAssign ++ stripped.envPrefixes }

structure CommandSegment where
  raw : JsString
  tokens : List JsString
  rawTokens : List JsString
  envPrefixes : List JsString
  wrappers : List JsString
  trailingSeparator : Option SegmentSeparator
  deriving DecidableEq, Repr

structure ParsedCommand where
  raw : JsString
  segments : List CommandSegment
  deriving DecidableEq, Repr

def toSegment (seg : RawSegment) : CommandSegment :=
  let rawTokens := tokenize seg.raw
  let stripped := stripPrefixesAndWrappers rawTokens
  ⟨seg.raw, stripped.tokens, rawTokens, stripped.envPrefixes, stripped.wrappers, seg.sep⟩

def parseCommand (command : Option JsString) : Option ParsedCommand :=
  match command with
  | none => none
  | some command =>
    let trimmed := trim command
    if trimmed = [] then none
    else if splitSegments trimmed = [] then none
    else some ⟨trimmed, (splitSegments trimmed).map toSegment⟩

end CodeOss.Terminal
