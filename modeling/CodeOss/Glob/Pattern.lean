import CodeOss.Base.JsString
import CodeOss.Library.Regex

/-! Glob patterns become regular expressions: a pattern is cut at its slashes, each part is read
unit by unit, and stars, classes and alternatives are written as what they stand for. -/

namespace CodeOss.Glob

def slash : CodeUnit := 47
def backslash : CodeUnit := 92
def asterisk : CodeUnit := 42
def questionMark : CodeUnit := 63
def openBrace : CodeUnit := 123
def closeBrace : CodeUnit := 125
def openBracket : CodeUnit := 91
def closeBracket : CodeUnit := 93
def comma : CodeUnit := 44
def hyphen : CodeUnit := 45
def caret : CodeUnit := 94
def exclamationMark : CodeUnit := 33

def globstar : JsString := [asterisk, asterisk]

structure CharacterClass where
  inverted : Bool
  ranges : List (CodeUnit × CodeUnit)
deriving DecidableEq

abbrev Pattern := Regex CharacterClass

/-- Whether a unit of the range is the same as `ch` once both are canonicalized. -/
def inRange (canonicalize : CodeUnit → CodeUnit) (range : CodeUnit × CodeUnit) (ch : CodeUnit) :
    Bool :=
  (List.range (range.2.toNat + 1 - range.1.toNat)).any fun n =>
    canonicalize (UInt16.ofNat (range.1.toNat + n)) = canonicalize ch

def CharacterClass.sat (canonicalize : CodeUnit → CodeUnit) (c : CharacterClass) (ch : CodeUnit) :
    Bool :=
  c.inverted ^^ c.ranges.any fun range => inRange canonicalize range ch

def unit (c : CodeUnit) : Pattern := .atom ⟨false, [(c, c)]⟩

def pathRegex : Pattern := .atom ⟨false, [(slash, slash), (backslash, backslash)]⟩

/-- `[^/\\]`. -/
def noPathRegex : Pattern := .atom ⟨true, [(slash, slash), (backslash, backslash)]⟩

def dot : Pattern := .atom ⟨true, [(10, 10), (13, 13), (0x2028, 0x2028), (0x2029, 0x2029)]⟩

def plus (r : Pattern) : Pattern := .seq r (.star r)

def starsToRegExp : ℕ → Bool → Pattern
  | 0, _ => .one
  | 1, _ => .star noPathRegex
  | _, isLastPattern =>
    .star (.alt pathRegex (.alt (.seq (plus noPathRegex) pathRegex)
      (if isLastPattern then .seq pathRegex (plus noPathRegex) else .zero)))

def splitGlobAwareFrom (splitChar : CodeUnit) :
    Bool → Bool → JsString → JsString → List JsString
  | _, _, curVal, [] => if curVal = [] then [] else [curVal]
  | inBraces, inBrackets, curVal, char :: rest =>
    if char = splitChar ∧ ¬ inBraces ∧ ¬ inBrackets then
      curVal :: splitGlobAwareFrom splitChar inBraces inBrackets [] rest
    else
      let inBraces := if char = openBrace then true
        else if char = closeBrace then false else inBraces
      let inBrackets := if char = openBracket then true
        else if char = closeBracket then false else inBrackets
      splitGlobAwareFrom splitChar inBraces inBrackets (curVal ++ [char]) rest

def splitGlobAware (pattern : JsString) (splitChar : CodeUnit) : List JsString :=
  splitGlobAwareFrom splitChar false false [] pattern

/-- What is written between brackets: a range operator, or a unit, escaped where it has to be. -/
inductive ClassAtom where
  | range
  | unit (c : CodeUnit)
deriving DecidableEq

def ClassAtom.toUnit : ClassAtom → CodeUnit
  | .range => hyphen
  | .unit c => c

structure BracketVal where
  negated : Bool
  atoms : List ClassAtom
deriving DecidableEq

def BracketVal.isEmpty (b : BracketVal) : Bool := !b.negated && b.atoms.isEmpty

def BracketVal.push (b : BracketVal) (char : CodeUnit) : BracketVal :=
  if char = hyphen then { b with atoms := b.atoms ++ [.range] }
  else if (char = caret ∨ char = exclamationMark) ∧ b.isEmpty then { b with negated := true }
  else if char = slash then b
  else { b with atoms := b.atoms ++ [.unit char] }

/-- How a regular expression reads them, or `none` where a range is out of order. -/
def readRanges : List ClassAtom → Option (List (CodeUnit × CodeUnit))
  | [] => some []
  | a :: .range :: b :: rest =>
    if a.toUnit.toNat ≤ b.toUnit.toNat then
      (readRanges rest).map ((a.toUnit, b.toUnit) :: ·)
    else none
  | a :: rest => (readRanges rest).map ((a.toUnit, a.toUnit) :: ·)

def BracketVal.regEx (b : BracketVal) : Option Pattern :=
  (readRanges b.atoms).map fun ranges => .atom ⟨b.negated, ranges⟩

structure State where
  regEx : List Pattern
  inBraces : Bool
  braceVal : JsString
  inBrackets : Bool
  bracketVal : BracketVal

def State.init : State := ⟨[], false, [], false, ⟨false, []⟩⟩

def State.emit (st : State) (r : Pattern) : State := { st with regEx := st.regEx ++ [r] }

def alternatives (choices : List (List Pattern)) : Pattern :=
  if choices = [] then .one else .altAll (choices.map .seqAll)

section Segments

variable (parseChoice : JsString → Option (List Pattern))

/-- One unit of a segment. What is written for any other unit is the unit, escaped where it has
to be. -/
def step (st : State) (char : CodeUnit) : Option State :=
  if char ≠ closeBrace ∧ st.inBraces then some { st with braceVal := st.braceVal ++ [char] }
  else if st.inBrackets ∧ (char ≠ closeBracket ∨ st.bracketVal.isEmpty) then
    some { st with bracketVal := st.bracketVal.push char }
  else if char = openBrace then some { st with inBraces := true }
  else if char = openBracket then some { st with inBrackets := true }
  else if char = closeBrace then do
    let choices ← (splitGlobAware st.braceVal comma).mapM parseChoice
    return { st.emit (alternatives choices) with inBraces := false, braceVal := [] }
  else if char = closeBracket then do
    let r ← st.bracketVal.regEx
    return { st.emit r with inBrackets := false, bracketVal := ⟨false, []⟩ }
  else if char = questionMark then some (st.emit noPathRegex)
  else if char = asterisk then some (st.emit (starsToRegExp 1 false))
  else some (st.emit (unit char))

def segmentRegExp (segment : JsString) : Option (List Pattern) :=
  (segment.foldlM (step parseChoice) State.init).map State.regEx

/-- The slash behind a segment is written here, unless only a `**` follows. -/
def segmentsRegExp : List JsString → Bool → Option (List Pattern)
  | [], _ => some []
  | segment :: rest, previousSegmentWasGlobStar =>
    if segment = globstar then
      if previousSegmentWasGlobStar then segmentsRegExp rest true
      else (segmentsRegExp rest true).map (starsToRegExp 2 (rest = []) :: ·)
    else do
      let regEx ← segmentRegExp parseChoice segment
      let tail ← segmentsRegExp rest false
      return regEx ++
        (if rest ≠ [] ∧ (rest.head? ≠ some globstar ∨ rest.tail ≠ []) then [pathRegex] else []) ++
        tail

def patternRegExp (pattern : JsString) : Option (List Pattern) :=
  if pattern = [] then some []
  else
    let segments := splitGlobAware pattern slash
    if segments.all (· = globstar) then some [.star dot]
    else segmentsRegExp parseChoice segments false

end Segments

/-- `parseRegExp`, or `none` where what it writes is no regular expression. A choice has no `}`,
so it has no choices. -/
def parseChoice (choice : JsString) : Option (List Pattern) := patternRegExp (fun _ => none) choice

def parseRegExp (pattern : JsString) : Option (List Pattern) := patternRegExp parseChoice pattern

section Test

-- `Canonicalize` of a regular expression that ignores case.
variable (canonicalize : CodeUnit → CodeUnit)

/-- `new RegExp('^...$', ignoreCase ? 'i' : undefined).test(path)`. -/
def regExpTest (regEx : List Pattern) (ignoreCase : Bool) (path : JsString) : Bool :=
  Regex.test (CharacterClass.sat (if ignoreCase then canonicalize else id)) (.seqAll regEx) path

end Test

end CodeOss.Glob
