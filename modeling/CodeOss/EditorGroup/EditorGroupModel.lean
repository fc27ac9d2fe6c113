import Mathlib

/-! `EditorGroupModel`: the editors of a group in their order and by recency, which of them are
selected, which one is a preview, how many at the front are sticky and which are transient. Editors
match only themselves, and nothing listens. -/

namespace CodeOss.EditorGroup

section Arrays

variable {E : Type}

def spliceStart (l : List E) (start : Int) : ℕ :=
  if start < 0 then (l.length + start).toNat else min start.toNat l.length

def insertAt (l : List E) (start : Int) (e : E) : List E :=
  l.take (spliceStart l start) ++ e :: l.drop (spliceStart l start)

def removeAt (l : List E) (start : Int) : List E := l.eraseIdx (spliceStart l start)

def getAt (l : List E) (index : Int) : Option E := if index < 0 then none else l[index.toNat]?

def indexOf [DecidableEq E] (candidate : Option E) (editors : List E) : Int :=
  match candidate.bind fun e => editors.idxOf? e with
  | none => -1
  | some i => i

end Arrays

structure EditorGroupModel (E : Type) where
  editors : List E
  mru : List E
  selection : List E
  preview : Option E
  sticky : Int
  transient : Finset E

/-- The default is to the right of the active editor. -/
inductive EditorOpenPositioning where
  | left
  | right
  | first
  | last
deriving DecidableEq

structure Settings where
  editorOpenPositioning : EditorOpenPositioning
  focusRecentEditorAfterClose : Bool

structure EditorOpenOptions (E : Type) where
  pinned : Bool
  sticky : Bool
  transient : Bool
  active : Bool
  index : Option ℕ
  inactiveSelection : List E

namespace EditorGroupModel

variable {E : Type}

def empty : EditorGroupModel E := ⟨[], [], [], none, -1, ∅⟩

variable (m : EditorGroupModel E)

def active : Option E := m.selection.head?

def isSticky (index : Int) : Bool := 0 ≤ m.sticky && 0 ≤ index && index ≤ m.sticky

variable [DecidableEq E]

variable (editor : E)

def isPinned : Bool := m.preview ≠ some editor

def findEditor (candidate : Option E) : Option (E × Int) :=
  (getAt m.editors (indexOf candidate m.editors)).map (·, indexOf candidate m.editors)

def spliceInsert (index : Int) (editor : E) : EditorGroupModel E :=
  { m with
    editors := insertAt m.editors index editor
    mru := if m.mru = [] then [editor] else insertAt m.mru 1 editor }

def spliceDelete (index : Int) : EditorGroupModel E :=
  let editorToDelete := getAt m.editors index
  { m with
    sticky := if m.isSticky index then m.sticky - 1 else m.sticky
    editors := removeAt m.editors index
    mru := removeAt m.mru (indexOf editorToDelete m.mru) }

def doSetSelection (activeSelectedEditor : Option E) (inactiveSelectedEditors : List E) :
    EditorGroupModel E :=
  match activeSelectedEditor with
  | none => { m with selection := [] }
  | some editor =>
    { m with
      selection := editor :: inactiveSelectedEditors
      mru :=
        if m.active ≠ some editor then editor :: removeAt m.mru (indexOf (some editor) m.mru)
        else m.mru }

/-- The inactive editors, each once, without the active one. -/
def inactiveEditors (active : E) (candidates : List E) : List E :=
  candidates.foldl (fun set e => if e = active ∨ e ∈ set then set else set ++ [e]) []

/-- Nothing happens if an editor is not found. -/
def setSelection (activeCandidate : Option E) (inactiveCandidates : List E) : EditorGroupModel E :=
  match m.findEditor activeCandidate with
  | none => m
  | some (active, _) =>
    if inactiveCandidates.all fun e => (m.findEditor (some e)).isSome then
      m.doSetSelection (some active) (inactiveEditors active inactiveCandidates)
    else m

variable (settings : Settings)

def doCloseEditor (candidate : E) (openNext : Bool) : EditorGroupModel E :=
  let index := indexOf (some candidate) m.editors
  match getAt m.editors index with
  | none => m
  | some editor =>
    let isActiveEditor := m.active = some editor
    let m₁ :=
      if openNext ∧ isActiveEditor then
        if 1 < m.mru.length then
          let newActive :=
            if settings.focusRecentEditorAfterClose then m.mru[1]?
            else if index = (m.editors.length : Int) - 1 then getAt m.editors (index - 1)
            else getAt m.editors (index + 1)
          m.doSetSelection newActive
            (m.selection.filter fun selected => selected ≠ editor ∧ some selected ≠ newActive)
        else m.doSetSelection none []
      else if ¬ isActiveEditor ∧ editor ∈ m.selection then
        m.doSetSelection m.active
          (m.selection.filter fun selected => selected ≠ editor ∧ some selected ≠ m.active)
      else m
    let m₂ := { m₁ with
      preview := if m₁.preview = some editor then none else m₁.preview
      transient := m₁.transient.erase editor }
    m₂.spliceDelete index

def closeEditor (candidate : E) : EditorGroupModel E :=
  m.doCloseEditor settings candidate true

def replaceEditor (toReplace replaceWith : E) (replaceIndex : Int)
    (openNext : Bool) : EditorGroupModel E :=
  (m.doCloseEditor settings toReplace openNext).spliceInsert replaceIndex replaceWith

variable (candidate : E)

def moveEditor (toIndex : Int) : EditorGroupModel E :=
  let toIndex : Int :=
    if m.editors.length ≤ toIndex then m.editors.length - 1
    else if toIndex < 0 then 0
    else toIndex
  let index := indexOf (some candidate) m.editors
  match getAt m.editors index with
  | none => m
  | some editor =>
    if toIndex = index then m
    else
      { m with
        sticky :=
          if m.isSticky index ∧ m.sticky < toIndex then m.sticky - 1
          else if ¬ m.isSticky index ∧ toIndex ≤ m.sticky then m.sticky + 1
          else m.sticky
        editors := insertAt (removeAt m.editors index) toIndex editor }

def setEditorActive : EditorGroupModel E :=
  match m.findEditor (some candidate) with
  | none => m
  | some (editor, _) => m.doSetSelection (some editor) []

/-- Without a candidate the group is active, which is no state of the model. -/
def setActive (candidate : Option E) : EditorGroupModel E :=
  match candidate with
  | none => m
  | some candidate => m.setEditorActive candidate

def doSetTransient (transient : Bool) : EditorGroupModel E :=
  { m with transient := if transient then insert editor m.transient else m.transient.erase editor }

def setTransient (transient : Bool) : EditorGroupModel E :=
  if ¬ transient ∧ m.transient = ∅ then m
  else match m.findEditor (some candidate) with
    | none => m
    | some (editor, _) => m.doSetTransient editor transient

def doPin : EditorGroupModel E :=
  if m.isPinned editor then m else { m.setTransient editor false with preview := none }

def pin : EditorGroupModel E :=
  match m.findEditor (some candidate) with
  | none => m
  | some (editor, _) => m.doPin editor

def doUnpin (editor : E) : EditorGroupModel E :=
  if ¬ m.isPinned editor then m
  else
    let oldPreview := m.preview
    let m₁ := { m with preview := some editor }
    match oldPreview with
    | none => m₁
    | some oldPreview => m₁.closeEditor settings oldPreview

def unpin (candidate : E) : EditorGroupModel E :=
  match m.findEditor (some candidate) with
  | none => m
  | some (editor, _) => m.doUnpin settings editor

def doStick (editorIndex : Int) : EditorGroupModel E :=
  if m.isSticky editorIndex then m
  else
    let m₁ := m.pin editor
    let m₂ := m₁.moveEditor editor (m₁.sticky + 1)
    { m₂ with sticky := m₂.sticky + 1 }

def stick : EditorGroupModel E :=
  match m.findEditor (some candidate) with
  | none => m
  | some (editor, editorIndex) => m.doStick editor editorIndex

def doUnstick (editorIndex : Int) : EditorGroupModel E :=
  if ¬ m.isSticky editorIndex then m
  else
    let m₁ := m.moveEditor editor m.sticky
    { m₁ with sticky := m₁.sticky - 1 }

def unstick : EditorGroupModel E :=
  match m.findEditor (some candidate) with
  | none => m
  | some (editor, editorIndex) => m.doUnstick editor editorIndex

section Open

variable (settings : Settings) (options : EditorOpenOptions E)

def makeSticky : Bool := options.sticky || options.index.any fun index : ℕ => m.isSticky index

def makePinned : Bool := options.pinned || options.sticky

def makeActive : Bool :=
  options.active || m.active.isNone || (!makePinned options && decide (m.preview = m.active))

/-- Where a new editor goes, before it is moved out of, or into, the sticky ones. -/
def targetIndex : Int :=
  let behindSticky (index : Int) : Int :=
    if !m.makeSticky options && m.isSticky index then m.sticky + 1 else index
  let indexOfActive := indexOf m.active m.editors
  match options.index with
  | some index => index
  | none =>
    match settings.editorOpenPositioning with
    | .first => behindSticky 0
    | .last => m.editors.length
    | .left => behindSticky (if indexOfActive = 0 ∨ m.editors = [] then 0 else indexOfActive)
    | .right => behindSticky (indexOfActive + 1)

def openNewEditor (newEditor : E) : EditorGroupModel E :=
  let targetIndex := m.targetIndex settings options
  let m₁ := if m.makeSticky options then { m with sticky := m.sticky + 1 } else m
  let targetIndex :=
    if m.makeSticky options ∧ ¬ m₁.isSticky targetIndex then m₁.sticky else targetIndex
  let m₂ :=
    if makePinned options ∨ m₁.preview = none then m₁.spliceInsert targetIndex newEditor else m₁
  let m₃ := if options.transient then m₂.doSetTransient newEditor true else m₂
  let m₄ :=
    if makePinned options then m₃
    else
      let m' := match m₃.preview with
        | none => m₃
        | some preview =>
          let targetIndex :=
            if indexOf (some preview) m₃.editors < targetIndex then targetIndex - 1
            else targetIndex
          m₃.replaceEditor settings preview newEditor targetIndex (!m.makeActive options)
      { m' with preview := some newEditor }
  m₄.setSelection (if m.makeActive options then some newEditor else m₄.active)
    options.inactiveSelection

def openExistingEditor (existingEditor : E) : EditorGroupModel E :=
  let m₁ := m.doSetTransient existingEditor
    (options.transient && decide (existingEditor ∈ m.transient))
  let m₂ := if makePinned options then m₁.doPin existingEditor else m₁
  let m₃ := m₂.setSelection (if m.makeActive options then some existingEditor else m₂.active)
    options.inactiveSelection
  let m₄ := match options.index with
    | some index => m₃.moveEditor existingEditor index
    | none => m₃
  if m.makeSticky options then m₄.doStick existingEditor (indexOf (some existingEditor) m₄.editors)
  else m₄

def openEditor (candidate : E) : EditorGroupModel E :=
  match m.findEditor (some candidate) with
  | none => m.openNewEditor settings options candidate
  | some (existingEditor, _) => m.openExistingEditor options existingEditor

end Open

end EditorGroupModel

end CodeOss.EditorGroup
