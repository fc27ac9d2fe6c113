import CodeOss.Base.JsString

/-! `TextChange` and the compression of consecutive change lists.
A change records the text it removed and where it stood in the old document, and
the text it put there and where that stands in the new document. -/

namespace CodeOss

structure TextChange where
  oldPosition : Int
  oldText : JsString
  newPosition : Int
  newText : JsString
deriving DecidableEq, Repr

namespace TextChange

def oldLength (c : TextChange) : Int := c.oldText.length
def oldEnd (c : TextChange) : Int := c.oldPosition + c.oldText.length
def newLength (c : TextChange) : Int := c.newText.length
def newEnd (c : TextChange) : Int := c.newPosition + c.newText.length

end TextChange

namespace TextChangeCompressor

def rebaseCurr (prevDeltaOffset : Int) (c : TextChange) : TextChange :=
  ⟨c.oldPosition - prevDeltaOffset, c.oldText, c.newPosition, c.newText⟩

def rebasePrev (currDeltaOffset : Int) (c : TextChange) : TextChange :=
  ⟨c.oldPosition, c.oldText, c.newPosition + currDeltaOffset, c.newText⟩

def splitPrev (edit : TextChange) (offset : Int) : TextChange × TextChange :=
  (⟨edit.oldPosition, edit.oldText, edit.newPosition, edit.newText.substr 0 offset⟩,
    ⟨edit.oldEnd, [], edit.newPosition + offset, edit.newText.drop offset.toNat⟩)

def splitCurr (edit : TextChange) (offset : Int) : TextChange × TextChange :=
  (⟨edit.oldPosition, edit.oldText.substr 0 offset, edit.newPosition, edit.newText⟩,
    ⟨edit.oldPosition + offset, edit.oldText.drop offset.toNat, edit.newEnd, []⟩)

/-- The two changes of one round that are merged, with what remains of both lists. -/
structure MergeStep where
  mergePrev : TextChange
  mergeCurr : TextChange
  prevEdits : List TextChange
  currEdits : List TextChange

/-- The last branches of the loop, where both heads start at the same place. -/
def mergeStep (p : TextChange) (ps : List TextChange) (c : TextChange) (cs : List TextChange) :
    MergeStep :=
  if c.oldEnd = p.newEnd then ⟨p, c, ps, cs⟩
  else if c.oldEnd < p.newEnd then
    let e := splitPrev p c.oldLength
    ⟨e.1, c, e.2 :: ps, cs⟩
  else
    let e := splitCurr c p.newLength
    ⟨p, e.1, ps, e.2 :: cs⟩

/-- Rounds left: a round drops a head, or splits one so that both heads start together. -/
def roundsLeft : List TextChange → List TextChange → Nat
  | p :: ps, c :: cs =>
    2 * (ps.length + cs.length + 2) + if p.newPosition = c.oldPosition then 0 else 1
  | ps, cs => 2 * (ps.length + cs.length)

theorem roundsLeft_bounds (ps cs : List TextChange) : 2 * (ps.length + cs.length) ≤
    roundsLeft ps cs ∧ roundsLeft ps cs ≤ 2 * (ps.length + cs.length) + 1 := by
  cases ps with
  | nil => simp [roundsLeft]
  | cons p ps =>
    cases cs with
    | nil => simp [roundsLeft]
    | cons c cs =>
      simp only [roundsLeft, List.length_cons]
      constructor <;> split_ifs <;> omega

theorem mergeStep_length (p : TextChange) (ps : List TextChange) (c : TextChange)
    (cs : List TextChange) : (mergeStep p ps c cs).prevEdits.length +
      (mergeStep p ps c cs).currEdits.length ≤ ps.length + cs.length + 1 := by
  unfold mergeStep
  split_ifs <;> simp <;> omega

/-- The loop of `compress`. The heads of the lists are `prevEdit` and `currEdit`, which are
`null` when the list is empty. -/
def compressLoop (prevEdits currEdits : List TextChange) (prevDeltaOffset currDeltaOffset : Int)
    (result : List TextChange) : List TextChange :=
  match prevEdits, currEdits with
  | [], [] => result
  | [], c :: cs =>
    compressLoop [] cs prevDeltaOffset (currDeltaOffset + (c.newLength - c.oldLength))
      (result ++ [rebaseCurr prevDeltaOffset c])
  | p :: ps, [] =>
    compressLoop ps [] (prevDeltaOffset + (p.newLength - p.oldLength)) currDeltaOffset
      (result ++ [rebasePrev currDeltaOffset p])
  | p :: ps, c :: cs =>
    if c.oldEnd ≤ p.newPosition then
      compressLoop (p :: ps) cs prevDeltaOffset (currDeltaOffset + (c.newLength - c.oldLength))
        (result ++ [rebaseCurr prevDeltaOffset c])
    else if p.newEnd ≤ c.oldPosition then
      compressLoop ps (c :: cs) (prevDeltaOffset + (p.newLength - p.oldLength)) currDeltaOffset
        (result ++ [rebasePrev currDeltaOffset p])
    else if c.oldPosition < p.newPosition then
      let e := splitCurr c (p.newPosition - c.oldPosition)
      compressLoop (p :: ps) (e.2 :: cs) prevDeltaOffset
        (currDeltaOffset + (e.1.newLength - e.1.oldLength))
        (result ++ [rebaseCurr prevDeltaOffset e.1])
    else if p.newPosition < c.oldPosition then
      let e := splitPrev p (c.oldPosition - p.newPosition)
      compressLoop (e.2 :: ps) (c :: cs) (prevDeltaOffset + (e.1.newLength - e.1.oldLength))
        currDeltaOffset (result ++ [rebasePrev currDeltaOffset e.1])
    else
      let m := mergeStep p ps c cs
      compressLoop m.prevEdits m.currEdits
        (prevDeltaOffset + (m.mergePrev.newLength - m.mergePrev.oldLength))
        (currDeltaOffset + (m.mergeCurr.newLength - m.mergeCurr.oldLength))
        (result ++ [⟨m.mergePrev.oldPosition, m.mergePrev.oldText, m.mergeCurr.newPosition,
          m.mergeCurr.newText⟩])
termination_by roundsLeft prevEdits currEdits
decreasing_by
  · have := roundsLeft_bounds [] cs
    have := roundsLeft_bounds [] (c :: cs)
    simp only [List.length_cons] at *
    omega
  · have := roundsLeft_bounds ps []
    have := roundsLeft_bounds (p :: ps) []
    simp only [List.length_cons] at *
    omega
  · have := roundsLeft_bounds (p :: ps) cs
    have := roundsLeft_bounds (p :: ps) (c :: cs)
    simp only [List.length_cons] at *
    omega
  · have := roundsLeft_bounds ps (c :: cs)
    have := roundsLeft_bounds (p :: ps) (c :: cs)
    simp only [List.length_cons] at *
    omega
  · have hsame : p.newPosition = (splitCurr c (p.newPosition - c.oldPosition)).2.oldPosition := by
      simp only [splitCurr]
      omega
    have hdiff : ¬p.newPosition = c.oldPosition := by omega
    simp only [roundsLeft]
    rw [if_pos hsame, if_neg hdiff]
    omega
  · have hsame : (splitPrev p (c.oldPosition - p.newPosition)).2.newPosition = c.oldPosition := by
      simp only [splitPrev]
      omega
    have hdiff : ¬p.newPosition = c.oldPosition := by omega
    simp only [roundsLeft]
    rw [if_pos hsame, if_neg hdiff]
    omega
  · have := roundsLeft_bounds m.prevEdits m.currEdits
    have := roundsLeft_bounds (p :: ps) (c :: cs)
    have := mergeStep_length p ps c cs
    simp only [List.length_cons, m] at *
    omega

/-- The loop of `_merge`, with `prev` the change that later ones are merged into. -/
def mergeLoop : List TextChange → TextChange → List TextChange
  | [], prev => [prev]
  | curr :: edits, prev =>
    if prev.oldEnd = curr.oldPosition then
      mergeLoop edits ⟨prev.oldPosition, prev.oldText ++ curr.oldText, prev.newPosition,
        prev.newText ++ curr.newText⟩
    else prev :: mergeLoop edits curr

def merge : List TextChange → List TextChange
  | [] => []
  | edit :: edits => mergeLoop edits edit

def removeNoOps (edits : List TextChange) : List TextChange :=
  edits.filter fun edit => edit.oldText ≠ edit.newText

def compress (prevEdits currEdits : List TextChange) : List TextChange :=
  removeNoOps (merge (compressLoop prevEdits currEdits 0 0 []))

end TextChangeCompressor

def compressConsecutiveTextChanges (prevEdits : Option (List TextChange))
    (currEdits : List TextChange) : List TextChange :=
  match prevEdits with
  | none => currEdits
  | some [] => currEdits
  | some prevEdits => TextChangeCompressor.compress prevEdits currEdits

end CodeOss
