import CodeOss.Glob.Pattern
import CodeOss.SearchTree.KeyIterators
import CodeOss.Settings.ConfigurationModel

/-! Parsed patterns. Common shapes of patterns are tested without a regular expression, patterns of
names are looked up together, and what was parsed is kept in a cache. -/

namespace CodeOss.Glob

/-- What the code gets from the platform: `String.prototype.toLowerCase`, `Canonicalize` of regular
expressions that ignore case, and whether paths are separated by `/`. -/
structure Platform where
  toLowerCase : JsString → JsString
  canonicalize : CodeUnit → CodeUnit
  usingPosixSep : Bool

structure Options where
  trimForExclusions : Bool
  ignoreCase : Bool
deriving DecidableEq

/-- A function of a path and of its base name, if that is known. It gives the pattern that
matches. -/
structure ParsedStringPattern where
  run : JsString → Option JsString → Option JsString
  basenames : Option (List JsString)
  patterns : Option (List JsString)

def truthy (result : Option JsString) : Bool := result.any fun s => s ≠ []

/-- `[\w\.-]`. -/
def isNameChar (c : CodeUnit) : Bool :=
  (97 ≤ c.toNat && c.toNat ≤ 122) || (65 ≤ c.toNat && c.toNat ≤ 90) ||
    (48 ≤ c.toNat && c.toNat ≤ 57) || c ∈ ([95, 46, 45] : List CodeUnit)

def isName (s : JsString) : Bool := s ≠ [] && s.all isNameChar

def isNamePath (s : JsString) : Bool := (s.splitOn slash).all isName

/-- `\/?$`. -/
def dropSlash (s : JsString) : JsString := if s.getLast? = some slash then s.dropLast else s

/-- `**/`. -/
def anywhere : JsString := [asterisk, asterisk, slash]

/-- `/**`. -/
def everything : JsString := [slash, asterisk, asterisk]

def behind (front s : JsString) : Option JsString :=
  if front.isPrefixOf s then some (s.drop front.length) else none

variable (pattern : JsString)

/-- `/^\*\*\/\*\.[\w\.-]+$/`. -/
def testT1 : Bool :=
  match behind (anywhere ++ [asterisk, 46]) pattern with
  | none => false
  | some rest => isName rest

/-- `/^\*\*\/([\w\.-]+)\/?$/`. -/
def matchT2 : Option JsString :=
  (behind anywhere pattern).bind fun rest =>
    if isName (dropSlash rest) then some (dropSlash rest) else none

/-- `\*\*\/\*?[\w\.-]+\/?`, and with an optional `/**` at the end for exclusions. -/
def testChoice (trimForExclusions : Bool) (choice : JsString) : Bool :=
  match behind anywhere choice with
  | none => false
  | some rest =>
    let rest := if rest.head? = some asterisk then rest.tail else rest
    isName (if trimForExclusions ∧ everything.isSuffixOf rest then rest.take (rest.length - 3)
      else dropSlash rest)

/-- `T3` or `T3_2`. -/
def testT3 (trimForExclusions : Bool) (pattern : JsString) : Bool :=
  pattern.head? = some openBrace && pattern.getLast? = some closeBrace &&
    (pattern.tail.dropLast.splitOn comma).all (testChoice trimForExclusions)

/-- `/^\*\*((\/[\w\.-]+)+)\/?$/`, without the first slash of the group. -/
def matchT4 : Option JsString :=
  (behind anywhere pattern).bind fun rest =>
    if isNamePath (dropSlash rest) then some (dropSlash rest) else none

/-- `/^([\w\.-]+(\/[\w\.-]+)*)\/?$/`. -/
def matchT5 : Option JsString :=
  if isNamePath (dropSlash pattern) then some (dropSlash pattern) else none

/-- The entries, the one that was used last at the end. -/
abbrev Cache := List (JsString × Option ParsedStringPattern)

namespace Cache

def limit : ℕ := 10000

/-- `get` makes the entry the one that was used last. -/
def touch (cache : Cache) (key : JsString) : Option (Option ParsedStringPattern × Cache) :=
  (cache.find? fun e => e.1 = key).map fun e =>
    (e.2, cache.filter (fun e => e.1 ≠ key) ++ [e])

def set (cache : Cache) (key : JsString) (value : Option ParsedStringPattern) : Cache :=
  let cache := cache.filter (fun e => e.1 ≠ key) ++ [(key, value)]
  cache.drop (cache.length - limit)

end Cache

section Parsing

variable (P : Platform) (options : Options)

def equalsIgnoreCase (a b : JsString) : Bool :=
  a.length = b.length &&
    compareSubstringIgnoreCase P.toLowerCase a b 0 a.length 0 b.length = 0

def endsWithIgnoreCase (str candidate : JsString) : Bool :=
  candidate.length ≤ str.length &&
    compareSubstringIgnoreCase P.toLowerCase str candidate (str.length - candidate.length)
      str.length 0 candidate.length = 0

def equals (a b : JsString) : Bool := if options.ignoreCase then equalsIgnoreCase P a b else a = b

def endsWith (str candidate : JsString) : Bool :=
  if options.ignoreCase then endsWithIgnoreCase P str candidate else candidate.isSuffixOf str

def boolText (b : Bool) : JsString :=
  if b then [116, 114, 117, 101] else [102, 97, 108, 115, 101]

def patternKey (pattern : JsString) : JsString :=
  (if options.ignoreCase then P.toLowerCase pattern else pattern) ++
    95 :: (boolText options.trimForExclusions ++ 95 :: boolText options.ignoreCase)

def trimForExclusions (pattern : JsString) : JsString :=
  if options.trimForExclusions ∧ everything.isSuffixOf pattern then
    pattern.take (pattern.length - 2)
  else pattern

def trivia1 (base pattern : JsString) : ParsedStringPattern where
  run path _ := if endsWith P options path base then some pattern else none
  basenames := none
  patterns := none

def trivia2 (base pattern : JsString) : ParsedStringPattern where
  run path basename :=
    if (match basename with
      | some (c :: rest) => equals P options (c :: rest) base
      | _ => equals P options path base || endsWith P options path (slash :: base) ||
          endsWith P options path (backslash :: base)) then some pattern
    else none
  basenames := some [base]
  patterns := some [pattern]

def trivia4and5 (targetPath pattern : JsString) (matchPathEnds : Bool) : ParsedStringPattern where
  run path _ :=
    let sep := if P.usingPosixSep then slash else backslash
    let nativePath :=
      if P.usingPosixSep then targetPath
      else targetPath.map fun c => if c = slash then backslash else c
    let found :=
      if matchPathEnds then
        (equals P options path nativePath || endsWith P options path (sep :: nativePath)) ||
          !P.usingPosixSep &&
            (equals P options path targetPath || endsWith P options path (slash :: targetPath))
      else
        equals P options path nativePath || (!P.usingPosixSep && equals P options path targetPath)
    if found then some pattern else none
  basenames := none
  patterns := none

def toRegExp (pattern : JsString) : Option ParsedStringPattern :=
  (parseRegExp pattern).map fun regEx =>
    { run := fun path _ =>
        if regExpTest P.canonicalize regEx options.ignoreCase path then some pattern else none
      basenames := none
      patterns := none }

def lastName (path : JsString) : JsString :=
  (path.reverse.takeWhile fun c => c ≠ slash && c ≠ backslash).reverse

def aggregate (basenames patterns : List JsString) : ParsedStringPattern where
  run path basename :=
    let basename := match basename with
      | some (c :: rest) => c :: rest
      | _ => lastName path
    (basenames.idxOf? basename).bind fun index => patterns[index]?
  basenames := some basenames
  patterns := some patterns

def aggregateBasenameMatches (parsedPatterns : List ParsedStringPattern)
    (result : Option JsString) : List ParsedStringPattern :=
  let basenamePatterns := parsedPatterns.filter (·.basenames.isSome)
  if basenamePatterns.length < 2 then parsedPatterns
  else
    let basenames := basenamePatterns.flatMap (·.basenames.getD [])
    let patterns := match result with
      | some result => basenames.map fun _ => result
      | none => basenamePatterns.flatMap (·.patterns.getD [])
    parsedPatterns.filter (·.basenames.isNone) ++ [aggregate basenames patterns]

/-- What the parsed choices of a pattern are put together to. -/
def combine (parsedPatterns : List ParsedStringPattern) (pattern : JsString) :
    Option ParsedStringPattern :=
  match aggregateBasenameMatches parsedPatterns (some pattern) with
  | [] => none
  | [parsedPattern] => some parsedPattern
  | parsedPatterns =>
    some {
      run := fun path basename =>
        if parsedPatterns.any fun p => truthy (p.run path basename) then some pattern else none
      basenames := none
      patterns := none }

/-- A parser of patterns: what it gives depends on the cache, which it may change. -/
abbrev Parser := JsString → Cache → Option ParsedStringPattern × Cache

section With

variable (trivia3 : Parser)

def parseFresh : Parser := fun pattern cache =>
  if testT1 pattern then (some (trivia1 P options (pattern.drop 4) pattern), cache)
  else match matchT2 (trimForExclusions options pattern) with
    | some base => (some (trivia2 P options base pattern), cache)
    | none =>
      if testT3 options.trimForExclusions pattern then trivia3 pattern cache
      else match matchT4 (trimForExclusions options pattern) with
        | some target => (some (trivia4and5 P options target pattern true), cache)
        | none =>
          match matchT5 (trimForExclusions options pattern) with
          | some target => (some (trivia4and5 P options target pattern false), cache)
          | none => (toRegExp P options pattern, cache)

def parsePatternWith : Parser := fun arg1 cache =>
  if arg1 = [] then (none, cache)
  else
    let pattern := Settings.trim arg1
    let key := patternKey P options pattern
    match cache.touch key with
    | some (parsedPattern, cache) => (parsedPattern, cache)
    | none =>
      let (parsedPattern, cache) := parseFresh P options trivia3 pattern cache
      (parsedPattern, cache.set key parsedPattern)

end With

/-- `parsePattern` of a choice, which has no choices. -/
def parseChoicePattern : Parser := parsePatternWith P options fun _ cache => (none, cache)

/-- The patterns one after the other, without those that match nothing. -/
def parseAll (parser : Parser) : List JsString → Cache → List ParsedStringPattern × Cache
  | [], cache => ([], cache)
  | pattern :: rest, cache =>
    let (parsedPattern, cache) := parser pattern cache
    let (parsedPatterns, cache) := parseAll parser rest cache
    (parsedPattern.toList ++ parsedPatterns, cache)

def trivia3 : Parser := fun pattern cache =>
  let (parsedPatterns, cache) :=
    parseAll (parseChoicePattern P options) (pattern.tail.dropLast.splitOn comma) cache
  (combine parsedPatterns pattern, cache)

def parsePattern : Parser := parsePatternWith P options (trivia3 P options)

def parse (arg1 : JsString) (cache : Cache) : (JsString → Option JsString → Bool) × Cache :=
  let (parsedPattern, cache) := parsePattern P options arg1 cache
  (fun path basename => parsedPattern.any fun p => truthy (p.run path basename), cache)

abbrev Expression := List (JsString × Bool)

def parseExpression (expression : Expression) (cache : Cache) :
    (JsString → Option JsString → Option JsString) × Cache :=
  let (parsedPatterns, cache) :=
    parseAll (parsePattern P options) ((expression.filter Prod.snd).map Prod.fst) cache
  let parsedPatterns := aggregateBasenameMatches parsedPatterns none
  (fun path basename => parsedPatterns.findSome? fun p => p.run path basename, cache)

end Parsing

def basename (path : JsString) : JsString :=
  ((path.reverse.dropWhile (· = slash)).takeWhile (· ≠ slash)).reverse

end CodeOss.Glob
