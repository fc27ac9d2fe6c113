import CodeOss.Settings.ValueTree

/-! `ConfigurationModel`: the settings of one layer, with blocks of settings for override
identifiers. Models are merged, overridden for an identifier, and changed in place. -/

namespace CodeOss.Settings

open ContextKeys (Primitive)

/-- White space and line terminators, as `trim` takes them off. -/
def isWhitespace (c : CodeUnit) : Bool :=
  c ∈ ([9, 10, 11, 12, 13, 32, 160, 0x1680, 0x2028, 0x2029, 0x202f, 0x205f, 0x3000, 0xfeff] :
    List CodeUnit) || (0x2000 ≤ c && c ≤ 0x200a)

def trim (s : JsString) : JsString :=
  ((s.dropWhile isWhitespace).reverse.dropWhile isWhitespace).reverse

/-- What stands between the brackets of a key `[a][b]...`, or `none` for other keys: those that
`OVERRIDE_PROPERTY_REGEX` does not match. -/
def overrideGroups (key : JsString) : Option (List JsString) :=
  match (key.splitOn 93).reverse with
  | [] :: group :: groups =>
    if (group :: groups).all (fun g => g.head? = some 91 && 2 ≤ g.length) then
      some ((group :: groups).reverse.map List.tail)
    else none
  | _ => none

/-- `arrays.distinct`, which keeps the first of equal elements. -/
def distinct (array : List JsString) : List JsString :=
  array.foldl (fun seen element => if element ∈ seen then seen else seen ++ [element]) []

def overrideIdentifiersFromKey (key : JsString) : List JsString :=
  distinct ((((overrideGroups key).getD []).map trim).filter fun identifier => identifier ≠ [])

structure IOverrides where
  identifiers : List JsString
  keys : List JsString
  contents : Fields
deriving DecidableEq

structure IConfigurationModel where
  contents : Fields
  keys : List JsString
  overrides : List IOverrides
deriving DecidableEq

/-- What a model is made of before properties were excluded: settings as they were read, and
models without such. -/
inductive RawPart where
  | dictionary (raw : Fields)
  | model (m : IConfigurationModel)

structure ConfigurationModel extends IConfigurationModel where
  raw : Option (List RawPart)

def createEmptyModel : ConfigurationModel := ⟨⟨.nil, [], []⟩, none⟩

namespace IConfigurationModel

variable (m : IConfigurationModel)

def isEmpty : Bool :=
  m.keys = [] && m.contents.keys = [] && m.overrides = []

/-- A section that is not given, or empty, stands for all settings. -/
def getValue (sectionKey : JsString) : Value :=
  if sectionKey = [] then .object false m.contents
  else getConfigurationValue m.contents sectionKey

/-- Contents merged from the first to the last, if there are any. -/
def mergeAll : List Fields → Option Fields
  | [] => none
  | contents :: rest => some (rest.foldl mergeContents contents)

/-- Blocks for several identifiers come first, in order, and the last block for the identifier
alone comes at the end. -/
def getContentsForOverrideIdentifer (identifier : JsString) : Option Fields :=
  let contents := (m.overrides.filter fun override =>
    override.identifiers ≠ [identifier] && identifier ∈ override.identifiers).map
      IOverrides.contents
  let contentsForIdentifierOnly := (m.overrides.filter fun override =>
    override.identifiers = [identifier]).getLast?.map IOverrides.contents
  mergeAll (contents ++ contentsForIdentifierOnly.toList)

def getOverrideValue (sectionKey overrideIdentifier : JsString) : Value :=
  match m.getContentsForOverrideIdentifer overrideIdentifier with
  | none => .undefined
  | some overrideContents =>
    if sectionKey = [] then .object false overrideContents
    else getConfigurationValue overrideContents sectionKey

def mergeOverride : List IOverrides → IOverrides → List IOverrides
  | [], otherOverride => [otherOverride]
  | override :: overrides, otherOverride =>
    if override.identifiers = otherOverride.identifiers then
      { override with
        contents := mergeContents override.contents otherOverride.contents
        keys := distinct (override.keys ++ otherOverride.keys) } :: overrides
    else override :: mergeOverride overrides otherOverride

def mergeOther (m other : IConfigurationModel) : IConfigurationModel :=
  if other.isEmpty then m
  else
    { contents := mergeContents m.contents other.contents
      keys := other.keys.foldl (fun keys key => if key ∈ keys then keys else keys ++ [key]) m.keys
      overrides := other.overrides.foldl mergeOverride m.overrides }

/-- The contents of one key, or `none` where merging into `null` throws. -/
def overrideKey (contentsForKey overrideContentsForKey : Value) : Option Value :=
  if overrideContentsForKey.truthy then
    match contentsForKey, overrideContentsForKey with
    | .object isArray source, .object _ target =>
      some (.object isArray (mergeContents source target))
    | .primitive .null, .object _ target =>
      if target.keys = [] then some (.primitive .null) else none
    | _, _ => some overrideContentsForKey
  else some contentsForKey

/-- The model for an override identifier, which is the model itself if nothing is overridden. -/
inductive Overridden where
  | this
  | model (m : IConfigurationModel)

def Overridden.get : Overridden → IConfigurationModel
  | this => m
  | model m' => m'

def overrideContents (contents target : Fields) : List JsString → Option Fields
  | [] => some .nil
  | key :: keys =>
    match overrideKey (contents.get key) (target.get key), overrideContents contents target keys
    with
    | some value, some rest => some (.cons key value rest)
    | _, _ => none

/-- `none` if it throws. -/
def createOverrideConfigurationModel (identifier : JsString) : Option Overridden :=
  match m.getContentsForOverrideIdentifer identifier with
  | none => some .this
  | some target =>
    if target.keys = [] then some .this
    else
      (overrideContents m.contents target (distinct (m.contents.keys ++ target.keys))).map
        fun contents => .model { m with contents }

/-- The block that a key for override identifiers stands for, `none` if it throws. -/
def overrideOf (contents : Fields) (key : JsString) : Option IOverrides :=
  match contents.get key with
  | .primitive .undefined => none
  | .primitive .null => none
  | value =>
    some
      { identifiers := overrideIdentifiersFromKey key
        keys := (enumerable value).keys
        contents := toValuesTree (enumerable value) }

def setOverride : List IOverrides → IOverrides → List IOverrides
  | [], override => [override]
  | o :: overrides, override =>
    if o.identifiers = override.identifiers then override :: overrides
    else o :: setOverride overrides override

/-- `setValue`, and whether it throws. What `frozen` tells are the paths to objects that may
not be changed. -/
def setValue (frozen : List JsString → Bool) (m : IConfigurationModel) (key : JsString)
    (value : Value) : IConfigurationModel × Bool :=
  match addToValueTree frozen m.contents key value with
  | none => (m, true)
  | some contents =>
    let keys := if key ∈ m.keys then m.keys else m.keys ++ [key]
    if (overrideGroups key).isSome then
      match overrideOf contents key with
      | none => ({ m with contents, keys }, true)
      | some override =>
        ({ contents, keys, overrides := setOverride m.overrides override }, false)
    else ({ m with contents, keys }, false)

/-- `splice` of the block with the identifiers, or of the last block if there is none. -/
def removeOverride (overrides : List IOverrides) (identifiers : List JsString) : List IOverrides :=
  match overrides.findIdx? fun o => o.identifiers = identifiers with
  | some index => overrides.eraseIdx index
  | none => overrides.dropLast

/-- `removeValue`, and whether it throws. -/
def removeValue (frozen : List JsString → Bool) (m : IConfigurationModel) (key : JsString) :
    IConfigurationModel × Bool :=
  if key ∈ m.keys then
    match removeFromValueTree frozen m.contents key with
    | none => ({ m with keys := m.keys.erase key }, true)
    | some contents =>
      ({ contents
         keys := m.keys.erase key
         overrides :=
           if (overrideGroups key).isSome then
             removeOverride m.overrides (overrideIdentifiersFromKey key)
           else m.overrides }, false)
  else (m, false)

end IConfigurationModel

def toOverrides (raw : Fields) : List IOverrides :=
  (raw.keys.filter fun key => (overrideGroups key).isSome).map fun key =>
    let overrideRaw := enumerable (raw.get key)
    { identifiers := overrideIdentifiersFromKey key
      keys := overrideRaw.keys
      contents := toValuesTree overrideRaw }

/-- `ConfigurationModelParser.parseRaw` without options. -/
def parseRaw (raw : Fields) : IConfigurationModel :=
  { contents := toValuesTree raw, keys := raw.keys, overrides := toOverrides raw }

namespace RawPart

def isModel : RawPart → Bool
  | dictionary _ => false
  | model _ => true

def configuration : RawPart → IConfigurationModel
  | dictionary raw => parseRaw raw
  | model m => m

end RawPart

namespace ConfigurationModel

variable (m : ConfigurationModel)

def raws : List RawPart :=
  m.raw.getD [.model m.toIConfigurationModel]

def merge (others : List ConfigurationModel) : ConfigurationModel :=
  let allRaws := m.raws ++ others.flatMap raws
  { toIConfigurationModel :=
      (others.map toIConfigurationModel).foldl IConfigurationModel.mergeOther
        m.toIConfigurationModel
    raw := if allRaws.all RawPart.isModel then none else some allRaws }

/-- Raw parts, of which there is one at least, merged from the first to the last. -/
def mergeRaws (parts : List RawPart) : IConfigurationModel :=
  match parts.map RawPart.configuration with
  | [] => createEmptyModel.toIConfigurationModel
  | first :: rest => rest.foldl IConfigurationModel.mergeOther first

/-- The model as it was before properties were excluded, or itself. -/
def rawConfiguration : IConfigurationModel :=
  match m.raw with
  | none => m.toIConfigurationModel
  | some parts => mergeRaws parts

end ConfigurationModel

end CodeOss.Settings
