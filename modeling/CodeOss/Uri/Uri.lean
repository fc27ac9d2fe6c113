import CodeOss.Uri.Decoding

/-! URIs: how they are built and validated, cut out of a string, and written as one. -/

namespace CodeOss.Uri

open UriCoding

/-- What the code gets from the platform: whether it is Windows, `String.prototype.toLowerCase`,
and the joining of paths. -/
structure Platform where
  isWindows : Bool
  toLowerCase : JsString → JsString
  join : JsString → List JsString → JsString
  joinWin32 : JsString → List JsString → JsString

structure UriComponents where
  scheme : JsString
  authority : JsString
  path : JsString
  query : JsString
  fragment : JsString
deriving DecidableEq

def file : JsString := [102, 105, 108, 101]
def http : JsString := [104, 116, 116, 112]
def https : JsString := [104, 116, 116, 112, 115]

/-- `\w`. -/
def isWord (c : CodeUnit) : Bool := isAsciiAlnum c || c = 95

/-- `/^\w[\w\d+.-]*$/`. -/
def schemePattern : JsString → Bool
  | [] => false
  | c :: rest => isWord c && rest.all fun c => isWord c || c ∈ ([43, 46, 45] : List CodeUnit)

/-- It does not throw. -/
def validateUri (ret : UriComponents) (strict : Bool) : Bool :=
  !(ret.scheme = [] && strict) && (ret.scheme = [] || schemePattern ret.scheme) &&
    (ret.path = [] ||
      if ret.authority ≠ [] then ret.path.head? = some slash
      else ret.path.take 2 ≠ [slash, slash])

def schemeFix (scheme : JsString) (strict : Bool) : JsString :=
  if scheme = [] ∧ ¬ strict then file else scheme

def referenceResolution (scheme path : JsString) : JsString :=
  if scheme = https ∨ scheme = http ∨ scheme = file then
    if path = [] then [slash] else if path.head? ≠ some slash then slash :: path else path
  else path

/-- `new Uri(...)`, or `none` where it throws. -/
def newUri (scheme authority path query fragment : JsString) (strict : Bool) :
    Option UriComponents :=
  let scheme := schemeFix scheme strict
  let ret : UriComponents := ⟨scheme, authority, referenceResolution scheme path, query, fragment⟩
  if validateUri ret strict then some ret else none

/-- `.` in a regular expression matches all but these. -/
def isLineTerminator (c : CodeUnit) : Bool := c ∈ ([10, 13, 0x2028, 0x2029] : List CodeUnit)

def delimiters : List CodeUnit := [slash, questionMark, hash]

def isNone (set : List CodeUnit) (c : CodeUnit) : Bool := c ∉ set

variable (value : JsString)

/-- `([^:/?#]+?):`, and what follows. -/
def cutScheme : JsString × JsString :=
  let scheme := value.takeWhile (isNone [colon, slash, questionMark, hash])
  let rest := value.dropWhile (isNone [colon, slash, questionMark, hash])
  if scheme ≠ [] ∧ rest.head? = some colon then (scheme, rest.tail) else ([], value)

/-- `\/\/([^/?#]*)`. -/
def cutAuthority : JsString × JsString :=
  match value with
  | a :: b :: rest =>
    if a = slash ∧ b = slash then rest.span (isNone delimiters)
    else ([], value)
  | _ => ([], value)

/-- `\?([^#]*)`. -/
def cutQuery : JsString × JsString :=
  match value with
  | c :: rest => if c = questionMark then rest.span (isNone [hash]) else ([], value)
  | [] => ([], value)

/-- `#(.*)`. -/
def cutFragment : JsString → JsString
  | c :: rest => if c = hash then rest.takeWhile (!isLineTerminator ·) else []
  | [] => []

/-- The groups of `_regexp`, where one that did not match is empty. -/
def cut : UriComponents :=
  let (scheme, value) := cutScheme value
  let (authority, value) := cutAuthority value
  let (path, value) := value.span (isNone [questionMark, hash])
  let (query, value) := cutQuery value
  ⟨scheme, authority, path, query, cutFragment value⟩

def parse (strict : Bool) : Option UriComponents :=
  let m := cut value
  newUri m.scheme (percentDecode m.authority) (percentDecode m.path) (percentDecode m.query)
    (percentDecode m.fragment) strict

def isDriveLetter (c : CodeUnit) : Bool := 65 ≤ c.toNat && c.toNat ≤ 90

section Obtaining

variable (P : Platform)

def fromFile (path : JsString) : Option UriComponents :=
  let path := if P.isWindows then path.map fun c => if c = 92 then slash else c else path
  match path with
  | a :: b :: rest =>
    if a = slash ∧ b = slash then
      let authority := rest.takeWhile (· ≠ slash)
      let path := rest.dropWhile (· ≠ slash)
      newUri file authority (if path = [] then [slash] else path) [] [] false
    else newUri file [] path [] [] false
  | path => newUri file [] path [] [] false

def fromComponents (components : UriComponents) (strict : Bool) : Option UriComponents :=
  newUri components.scheme components.authority components.path components.query
    components.fragment strict

/-- A component that `with` is given: `none` is `undefined`, and `null` is the empty string. -/
structure Change where
  scheme : Option JsString
  authority : Option JsString
  path : Option JsString
  query : Option JsString
  fragment : Option JsString

def withChange (u : UriComponents) (change : Change) : Option UriComponents :=
  let scheme := change.scheme.getD u.scheme
  let authority := change.authority.getD u.authority
  let path := change.path.getD u.path
  let query := change.query.getD u.query
  let fragment := change.fragment.getD u.fragment
  if UriComponents.mk scheme authority path query fragment = u then some u
  else newUri scheme authority path query fragment false

def isLetter (c : CodeUnit) : Bool :=
  isDriveLetter c || (97 ≤ c.toNat && c.toNat ≤ 122)

def uriToFsPath (u : UriComponents) : JsString :=
  let value :=
    if u.authority ≠ [] ∧ 1 < u.path.length ∧ u.scheme = file then
      slash :: slash :: u.authority ++ u.path
    else
      match u.path with
      | a :: b :: c :: rest =>
        if a = slash ∧ isLetter b ∧ c = colon then b :: c :: rest else u.path
      | _ => u.path
  if P.isWindows then value.map fun c => if c = slash then 92 else c else value

def joinPath (u : UriComponents) (pathFragment : List JsString) : Option UriComponents :=
  if u.path = [] then none
  else
    let newPath :=
      if P.isWindows ∧ u.scheme = file then
        (fromFile P (P.joinWin32 (uriToFsPath P u) pathFragment)).map UriComponents.path
      else some (P.join u.path pathFragment)
    newPath.bind fun path => withChange u ⟨none, none, some path, none, none⟩

inductive Obtained : UriComponents → Prop
  | parse {value strict u} (h : parse value strict = some u) : Obtained u
  | file {path u} (h : fromFile P path = some u) : Obtained u
  | components {components strict u} (h : fromComponents components strict = some u) : Obtained u
  | change {u change u'} (hu : Obtained u) (h : withChange u change = some u') : Obtained u'
  | joinPath {u pathFragment u'} (hu : Obtained u) (h : joinPath P u pathFragment = some u') :
      Obtained u'

end Obtaining

/-- What is before the last `:`, and the `:` with what follows it. -/
def splitLast (s : JsString) : Option (JsString × JsString) :=
  if colon ∈ s then
    let port := s.reverse.takeWhile (· ≠ colon)
    some (s.take (s.length - port.length - 1), colon :: port.reverse)
  else none

/-- `userinfo@host`, cut at the first `@`. -/
def splitUser (authority : JsString) : Option (JsString × JsString) :=
  if atSign ∈ authority then
    some (authority.takeWhile (· ≠ atSign), (authority.dropWhile (· ≠ atSign)).tail)
  else none

/-- `user:pass`, cut at the last `:`. -/
def formatUser (userinfo : JsString) : Option JsString :=
  match splitLast userinfo with
  | none => encodeURIComponentFast userinfo false false
  | some (user, pass) => do
      let user ← encodeURIComponentFast user false false
      let pass ← encodeURIComponentFast pass.tail false true
      return user ++ colon :: pass

/-- `host:port`, cut at the last `:`; the port is copied. -/
def formatHost (host : JsString) : Option JsString :=
  match splitLast host with
  | none => encodeURIComponentFast host false true
  | some (host, port) => do
      let host ← encodeURIComponentFast host false true
      return host ++ port

section Format

variable (P : Platform)

variable (authority : JsString)

def formatAuthority : Option JsString :=
  match splitUser authority with
  | none => formatHost (P.toLowerCase authority)
  | some (userinfo, host) => do
      let userinfo ← formatUser userinfo
      let host ← formatHost (P.toLowerCase host)
      return userinfo ++ atSign :: host

def toLowerDrive (c : CodeUnit) : CodeUnit := UInt16.ofNat (c.toNat + 32)

/-- A drive letter is lower-cased in `/C:/fff` and in `C:/fff`. -/
def lowerDrive : JsString → JsString
  | a :: b :: c :: rest =>
    if a = slash ∧ c = colon then
      if isDriveLetter b then a :: toLowerDrive b :: c :: rest else a :: b :: c :: rest
    else if b = colon ∧ isDriveLetter a then toLowerDrive a :: b :: c :: rest
    else a :: b :: c :: rest
  | [a, b] => if b = colon ∧ isDriveLetter a then [toLowerDrive a, b] else [a, b]
  | path => path

/-- `_asFormatted`, or `none` where it throws. -/
def toString (u : UriComponents) : Option JsString := do
  let scheme := if u.scheme ≠ [] then u.scheme ++ [colon] else []
  let slashes := if u.authority ≠ [] ∨ u.scheme = file then [slash, slash] else []
  let authority ← if u.authority ≠ [] then formatAuthority P u.authority else some []
  let path ← encodeURIComponentFast (lowerDrive u.path) true false
  let query ← encodeURIComponentFast u.query false false
  let fragment ← encodeURIComponentFast u.fragment false false
  return scheme ++ slashes ++ authority ++ path ++
    (if u.query ≠ [] then questionMark :: query else []) ++
    (if u.fragment ≠ [] then hash :: fragment else [])

def normalizedAuthority : JsString :=
  if authority = [] then []
  else
    match splitUser authority with
    | none => P.toLowerCase authority
    | some (userinfo, host) => userinfo ++ atSign :: P.toLowerCase host

def normalized (u : UriComponents) : UriComponents :=
  { u with authority := normalizedAuthority P u.authority, path := lowerDrive u.path }

def portPart (host : JsString) : JsString :=
  match splitLast host with
  | none => []
  | some (_, port) => port

def portOf : JsString :=
  if authority = [] then []
  else
    match splitUser authority with
    | none => portPart (P.toLowerCase authority)
    | some (_, host) => portPart (P.toLowerCase host)

def PortKept (u : UriComponents) : Prop :=
  (∀ c ∈ portOf P u.authority, isNone delimiters c = true) ∧
    percentDecode (portOf P u.authority) = portOf P u.authority

end Format

structure UriComponents.IsText (u : UriComponents) : Prop where
  scheme : WellFormed u.scheme
  authority : WellFormed u.authority
  path : WellFormed u.path
  query : WellFormed u.query
  fragment : WellFormed u.fragment

end CodeOss.Uri
