import CodeOss.ContextKeys.Substitution
import CodeOss.ContextKeys.Implication

/-! `KeybindingResolver`: the rules that are kept, the map from first chords to rules, the map
from commands to rules, and how pressed chords are resolved. -/

namespace CodeOss.Keybindings

open ContextKeys

structure ResolvedKeybindingItem (Args : Type) where
  chords : List JsString
  bubble : Bool
  command : Option JsString
  commandArgs : Args
  when : Option ContextKeyExpression
  isDefault : Bool

/-- A rule as an object: the rules of a resolver are told apart by their place in its list. -/
structure Entry (Args : Type) where
  index : Nat
  item : ResolvedKeybindingItem Args

inductive ResolutionResult (Args : Type) where
  | noMatchingKb
  | moreChordsNeeded
  | kbFound (commandId : Option JsString) (commandArgs : Args) (isBubble : Bool)

section Resolver

variable {Args : Type} (E : Engine) (constants : JsString → Option Bool) (depth : Nat)

def whenIsEntirelyIncluded (a b : Option ContextKeyExpression) : Bool :=
  match b with
  | none => true
  | some .trueExpr => true
  | some b =>
    match a with
    | none => false
    | some .trueExpr => false
    | some a => implies E a b

def ResolvedKeybindingItem.named (item : ResolvedKeybindingItem Args) : Option JsString :=
  item.command.filter fun command => command ≠ []

/-- The command that a rule `-command` removes. -/
def ResolvedKeybindingItem.removes (item : ResolvedKeybindingItem Args) : Option JsString :=
  match item.command with
  | some (45 :: command) => some command
  | _ => none

def isTargetedForRemoval (defaultKb : ResolvedKeybindingItem Args) (keypress : List JsString)
    (when : Option ContextKeyExpression) : Bool :=
  keypress.isPrefixOf defaultKb.chords &&
    match when with
    | none => true
    | some .trueExpr => true
    | some when =>
      match defaultKb.when with
      | none => false
      | some defaultWhen =>
        whenIsEntirelyIncluded E (defaultWhen.substituteConstants E constants depth)
          (when.substituteConstants E constants depth)

/-- The second pass of `handleRemovals` for one rule. -/
def isKept (rules : List (ResolvedKeybindingItem Args)) (rule : ResolvedKeybindingItem Args) :
    Bool :=
  match rule.named with
  | none => true
  | some command =>
    if command.head? = some 45 then false
    else
      let commandRemovals := rules.filter fun removal => removal.removes = some command
      if commandRemovals = [] ∨ !rule.isDefault then true
      else !commandRemovals.any fun commandRemoval =>
        isTargetedForRemoval E constants depth rule commandRemoval.chords commandRemoval.when

def handleRemovals (rules : List (ResolvedKeybindingItem Args)) :
    List (ResolvedKeybindingItem Args) :=
  if rules.all fun rule => rule.removes = none then rules
  else rules.filter (isKept E constants depth rules)

structure KeybindingMaps (Args : Type) where
  map : JsString → Option (List (Entry Args))
  lookupMap : JsString → Option (List (Entry Args))

def addToLookupMap (lookupMap : JsString → Option (List (Entry Args))) (entry : Entry Args) :
    JsString → Option (List (Entry Args)) :=
  match entry.item.named with
  | none => lookupMap
  | some command =>
    Function.update lookupMap command (some ((lookupMap command).getD [] ++ [entry]))

def removeFromLookupMap (lookupMap : JsString → Option (List (Entry Args)))
    (entry : Entry Args) : JsString → Option (List (Entry Args)) :=
  match entry.item.named with
  | none => lookupMap
  | some command =>
    match lookupMap command with
    | none => lookupMap
    | some arr =>
      Function.update lookupMap command
        (some (arr.eraseP fun other => other.index = entry.index))

variable (conflict item : ResolvedKeybindingItem Args)

/-- The chords of two rules with the same first chord agree as far as both go. -/
def isShorterKbPrefix : Bool :=
  (conflict.chords.tail.zip item.chords.tail).all fun chords => chords.1 = chords.2

/-- `item` completely overwrites `conflict`. -/
def overwrites : Bool :=
  conflict.command ≠ item.command && isShorterKbPrefix conflict item &&
    whenIsEntirelyIncluded E conflict.when item.when

variable (maps : KeybindingMaps Args)

def addKeyPress (keypress : JsString) (entry : Entry Args) : KeybindingMaps Args :=
  match maps.map keypress with
  | none =>
    { map := Function.update maps.map keypress (some [entry])
      lookupMap := addToLookupMap maps.lookupMap entry }
  | some conflicts =>
    { map := Function.update maps.map keypress (some (conflicts ++ [entry]))
      lookupMap := addToLookupMap
        (conflicts.reverse.foldl (fun lookupMap conflict =>
          if overwrites E conflict.item entry.item then removeFromLookupMap lookupMap conflict
          else lookupMap) maps.lookupMap) entry }

def addRule (entry : Entry Args) : KeybindingMaps Args :=
  match entry.item.chords with
  | [] => maps
  | chord :: _ =>
    match entry.item.when.bind fun when => when.substituteConstants E constants depth with
    | some .falseExpr => maps
    | _ => addKeyPress E maps chord entry

def entriesOf (keybindings : List (ResolvedKeybindingItem Args)) : List (Entry Args) :=
  keybindings.zipIdx.map fun pair => ⟨pair.2, pair.1⟩

def keybindingMaps (defaultKeybindings overrides : List (ResolvedKeybindingItem Args)) :
    KeybindingMaps Args :=
  (entriesOf (handleRemovals E constants depth (defaultKeybindings ++ overrides))).foldl
    (addRule E constants depth) ⟨fun _ => none, fun _ => none⟩

def contextMatchesRules (context : Context) (rules : Option ContextKeyExpression) : Bool :=
  match rules with
  | none => true
  | some rules => rules.evaluate E context

/-- The last match whose when-clause holds. -/
def findCommand (context : Context) (found : List (Entry Args)) : Option (Entry Args) :=
  found.reverse.find? fun entry => contextMatchesRules E context entry.item.when

/-- The rules whose chords begin with the pressed ones, `none` if there are none for the
first. -/
def candidates (pressedChords : List JsString) : Option (List (Entry Args)) :=
  match pressedChords with
  | [] => none
  | [chord] => maps.map chord
  | chord :: others =>
    (maps.map chord).map fun kbCandidates => kbCandidates.filter fun candidate =>
      others.length + 1 ≤ candidate.item.chords.length &&
        others.isPrefixOf candidate.item.chords.tail

def resolve (context : Context) (currentChords : List JsString)
    (keypress : JsString) : ResolutionResult Args :=
  let pressedChords := currentChords ++ [keypress]
  match candidates maps pressedChords with
  | none => .noMatchingKb
  | some lookupMap =>
    match findCommand E context lookupMap with
    | none => .noMatchingKb
    | some result =>
      if pressedChords.length < result.item.chords.length then .moreChordsNeeded
      else .kbFound result.item.command result.item.commandArgs result.item.bubble

end Resolver

end CodeOss.Keybindings
