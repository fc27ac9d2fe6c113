import CodeOss.Undo.TextChangeCompress
import CodeOss.Undo.EditStack

/-! When a change list turns one text into another.
`Turns` is the contract between an edit and the undo stack, stated on each side alone:
the places a change names, the texts it recorded, and the two replacements it stands for. -/

open List

namespace CodeOss

namespace TextChange

/-- Redoing a change puts its new text in place of the old one. -/
def redoPatch (c : TextChange) : Patch CodeUnit := ⟨c.oldPosition, c.oldEnd, c.newText⟩

def undoPatch (c : TextChange) : Patch CodeUnit := ⟨c.newPosition, c.newEnd, c.oldText⟩

def redo (cs : List TextChange) (t : JsString) : JsString := Patch.applyFrom 0 (cs.map redoPatch) t

def undo (cs : List TextChange) (t : JsString) : JsString := Patch.applyFrom 0 (cs.map undoPatch) t

/-- The text `x` stands at position `i` of `t`, where `t` starts at position `b`. -/
def StandsAt (b : Int) (t x : JsString) (i : Int) : Prop :=
  b ≤ i ∧ i - b + x.length ≤ t.length ∧ (t.drop (i - b).toNat).take x.length = x

/-- Every new text lands where its replacement puts it: `d` is what the changes before
have added to the length of the text. -/
def LandsFrom (d : Int) : List TextChange → Prop
  | [] => True
  | c :: cs => c.newPosition = c.oldPosition + d ∧ LandsFrom (d + (c.newLength - c.oldLength)) cs

/-- A sorted, non-overlapping change list that records exactly the step from `t0` to `t1`. -/
structure Turns (cs : List TextChange) (t0 t1 : JsString) : Prop where
  oldSorted : cs.Pairwise fun c d => c.oldEnd ≤ d.oldPosition
  newSorted : cs.Pairwise fun c d => c.newEnd ≤ d.newPosition
  oldTexts : ∀ c ∈ cs, StandsAt 0 t0 c.oldText c.oldPosition
  newTexts : ∀ c ∈ cs, StandsAt 0 t1 c.newText c.newPosition
  lands : LandsFrom 0 cs
  redo_eq : redo cs t0 = t1
  undo_eq : undo cs t1 = t0

variable {b i : Int} {t x gap r : JsString} {cs : List TextChange} {t0 t1 : JsString}

theorem standsAt_split (h : StandsAt b t x i) :
    ∃ gap r, t = gap ++ (x ++ r) ∧ i = b + gap.length := by
  obtain ⟨hb, hlen, hx⟩ := h
  refine ⟨t.take (i - b).toNat, (t.drop (i - b).toNat).drop x.length, ?_, ?_⟩
  · conv_rhs => rw [← hx]
    rw [List.length_take, List.length_drop, min_eq_left (by omega), take_append_drop,
      take_append_drop]
  · rw [Cut.length_take (by omega) (by omega)]
    omega

theorem standsAt_append (hi : i = b + gap.length) : StandsAt b (gap ++ (x ++ r)) x i := by
  have hdrop : (i - b).toNat = gap.length := by omega
  refine ⟨by omega, ?_, ?_⟩
  · simp only [length_append, Nat.cast_add]
    omega
  · rw [hdrop, drop_left, take_left]

theorem StandsAt.of_suffix {c : Int} {y : JsString} (hc : c = b + y.length) (h : StandsAt c t x i) :
    StandsAt b (y ++ t) x i := by
  obtain ⟨gap, r, rfl, hi⟩ := standsAt_split h
  rw [← append_assoc]
  refine standsAt_append ?_
  rw [length_append, Nat.cast_add]
  omega

theorem StandsAt.suffix {c : Int} {y : JsString} (hc : c = b + y.length) (hi : c ≤ i)
    (h : StandsAt b (y ++ t) x i) : StandsAt c t x i := by
  obtain ⟨hb, hlen, hx⟩ := h
  have hdrop : (i - b).toNat = y.length + (i - c).toNat := by omega
  rw [length_append, Nat.cast_add] at hlen
  rw [hdrop, drop_length_add_append] at hx
  exact ⟨hi, by omega, hx⟩

/-- The same contract for the rests behind `b0` and `b1`. -/
structure TurnsFrom (b0 b1 : Int) (cs : List TextChange) (t0 t1 : JsString) : Prop where
  oldSorted : cs.Pairwise fun c d => c.oldEnd ≤ d.oldPosition
  newSorted : cs.Pairwise fun c d => c.newEnd ≤ d.newPosition
  oldTexts : ∀ c ∈ cs, StandsAt b0 t0 c.oldText c.oldPosition
  newTexts : ∀ c ∈ cs, StandsAt b1 t1 c.newText c.newPosition
  lands : LandsFrom (b1 - b0) cs
  redo_eq : Patch.applyFrom b0 (cs.map redoPatch) t0 = t1
  undo_eq : Patch.applyFrom b1 (cs.map undoPatch) t1 = t0

theorem applyFrom_redo {c : TextChange} (ho : c.oldPosition = b + gap.length) :
    Patch.applyFrom b ((c :: cs).map redoPatch) (gap ++ (c.oldText ++ r)) =
      gap ++ (c.newText ++ Patch.applyFrom c.oldEnd (cs.map redoPatch) r) := by
  have hstart : (c.oldPosition - b).toNat = gap.length := by omega
  have hstop : (c.oldEnd - b).toNat = gap.length + c.oldText.length := by
    simp only [oldEnd]
    omega
  simp only [map_cons, Patch.applyFrom_cons, redoPatch, hstart, hstop, take_left,
    drop_length_add_append, drop_left, append_assoc]

theorem applyFrom_undo {c : TextChange} (hn : c.newPosition = b + gap.length) :
    Patch.applyFrom b ((c :: cs).map undoPatch) (gap ++ (c.newText ++ r)) =
      gap ++ (c.oldText ++ Patch.applyFrom c.newEnd (cs.map undoPatch) r) := by
  have hstart : (c.newPosition - b).toNat = gap.length := by omega
  have hstop : (c.newEnd - b).toNat = gap.length + c.newText.length := by
    simp only [newEnd]
    omega
  simp only [map_cons, Patch.applyFrom_cons, undoPatch, hstart, hstop, take_left,
    drop_length_add_append, drop_left, append_assoc]

theorem Describes.turnsFrom {b0 b1 : Int} (h : Describes b0 b1 cs t0 t1) :
    TurnsFrom b0 b1 cs t0 t1 := by
  induction cs generalizing b0 b1 t0 t1 with
  | nil => exact ⟨.nil, .nil, by simp, by simp, trivial, h, h.symm⟩
  | cons c cs ih =>
    obtain ⟨gap, r0, r1, rfl, rfl, ho, hn, hrest⟩ := h
    have hturns := ih hrest
    refine ⟨pairwise_cons.2 ⟨fun d hd => (hturns.oldTexts d hd).1, hturns.oldSorted⟩,
      pairwise_cons.2 ⟨fun d hd => (hturns.newTexts d hd).1, hturns.newSorted⟩, ?_, ?_, ?_,
      ?_, ?_⟩
    · intro d hd
      rcases mem_cons.1 hd with rfl | hd
      · exact standsAt_append ho
      · rw [← append_assoc]
        refine (hturns.oldTexts d hd).of_suffix ?_
        simp only [oldEnd, length_append, Nat.cast_add]
        omega
    · intro d hd
      rcases mem_cons.1 hd with rfl | hd
      · exact standsAt_append hn
      · rw [← append_assoc]
        refine (hturns.newTexts d hd).of_suffix ?_
        simp only [newEnd, length_append, Nat.cast_add]
        omega
    · refine ⟨by omega, ?_⟩
      convert hturns.lands using 1
      simp only [newEnd, oldEnd, newLength, oldLength]
      omega
    · rw [applyFrom_redo ho, hturns.redo_eq]
    · rw [applyFrom_undo hn, hturns.undo_eq]

theorem TurnsFrom.describes {b0 b1 : Int} (h : TurnsFrom b0 b1 cs t0 t1) :
    Describes b0 b1 cs t0 t1 := by
  induction cs generalizing b0 b1 t0 t1 with
  | nil => exact h.redo_eq
  | cons c cs ih =>
    obtain ⟨hold, hnew, holdTexts, hnewTexts, ⟨hland, hlands⟩, hredo, hundo⟩ := h
    obtain ⟨gap, r0, rfl, ho⟩ := standsAt_split (holdTexts c mem_cons_self)
    rw [applyFrom_redo ho] at hredo
    subst hredo
    have hn : c.newPosition = b1 + gap.length := by omega
    rw [applyFrom_undo hn, append_cancel_left_eq, append_cancel_left_eq] at hundo
    refine ⟨gap, r0, _, rfl, rfl, ho, hn, ih ⟨hold.of_cons, hnew.of_cons, ?_, ?_, ?_, rfl, hundo⟩⟩
    · intro d hd
      have hstands := holdTexts d (mem_cons_of_mem _ hd)
      rw [← append_assoc] at hstands
      refine hstands.suffix ?_ (rel_of_pairwise_cons hold hd)
      simp only [oldEnd, length_append, Nat.cast_add]
      omega
    · intro d hd
      have hstands := hnewTexts d (mem_cons_of_mem _ hd)
      rw [← append_assoc] at hstands
      refine hstands.suffix ?_ (rel_of_pairwise_cons hnew hd)
      simp only [newEnd, length_append, Nat.cast_add]
      omega
    · convert hlands using 1
      simp only [newEnd, oldEnd, newLength, oldLength]
      omega

theorem turns_iff_describes : Turns cs t0 t1 ↔ Describes 0 0 cs t0 t1 := by
  constructor
  · intro h
    exact TurnsFrom.describes ⟨h.oldSorted, h.newSorted, h.oldTexts, h.newTexts, h.lands, h.redo_eq,
      h.undo_eq⟩
  · intro h
    have hturns := h.turnsFrom
    exact ⟨hturns.oldSorted, hturns.newSorted, hturns.oldTexts, hturns.newTexts, hturns.lands,
      hturns.redo_eq, hturns.undo_eq⟩

theorem Turns.compressConsecutive {prev curr : List TextChange} {t2 : JsString}
    (hprev : Turns prev t0 t1) (hcurr : Turns curr t1 t2) :
    Turns (compressConsecutiveTextChanges (some prev) curr) t0 t2 := by
  rw [turns_iff_describes] at hprev hcurr ⊢
  cases prev with
  | nil =>
    obtain rfl : t0 = t1 := hprev
    exact hcurr
  | cons p ps => exact TextChangeCompressor.describes_compress hprev hcurr

end TextChange

end CodeOss

/-! Undo and redo stay exact while edits are appended to an undo element. -/

namespace CodeOss

namespace SingleModelEditStackData
open TextChange

/-- One call of `append`, without the model it is made for. -/
structure Edit where
  textChanges : List TextChange
  afterEOL : EndOfLineSequence
  afterVersionId : Int
  afterCursorState : Option (List Selection)

def appendEdit (data : SingleModelEditStackData) (edit : Edit) : SingleModelEditStackData :=
  data.append edit.textChanges edit.afterEOL edit.afterVersionId edit.afterCursorState

/-- Consecutive edits, each turning the text the one before left into its own. -/
def Consecutive : List Edit → JsString → JsString → Prop
  | [], t0, t1 => t0 = t1
  | edit :: edits, t0, t1 => ∃ t, Turns edit.textChanges t0 t ∧ Consecutive edits t t1

theorem turns_nil (t : JsString) : Turns [] t t := turns_iff_describes.2 rfl

variable {data : SingleModelEditStackData}

theorem turns_append {edit : Edit} {t0 t1 t2 : JsString}
    (hdata : Turns data.changes t0 t1) (hedit : Turns edit.textChanges t1 t2) :
    Turns (data.appendEdit edit).changes t0 t2 := by
  simp only [appendEdit, append]
  split_ifs with hsome
  · exact hdata.compressConsecutive hedit
  · obtain hnil : edit.textChanges = [] := eq_nil_of_length_eq_zero (by omega)
    rw [hnil] at hedit
    obtain rfl : t1 = t2 := hedit.redo_eq
    exact hdata

theorem turns_appendAll {edits : List Edit} {t0 t1 t2 : JsString}
    (hdata : Turns data.changes t0 t1) (hedits : Consecutive edits t1 t2) :
    Turns (edits.foldl appendEdit data).changes t0 t2 := by
  induction edits generalizing data t1 with
  | nil =>
    obtain rfl : t1 = t2 := hedits
    exact hdata
  | cons edit edits ih =>
    obtain ⟨t, hedit, hrest⟩ := hedits
    exact ih (turns_append hdata hedit) hrest

end SingleModelEditStackData

open SingleModelEditStackData

open TextChange in
/-- Compression composes two change lists, and a merged undo element still turns the text it
was created on into the text after its last edit, both ways. -/
theorem compressConsecutiveTextChanges_turns :
    (∀ (prev curr : List TextChange) (t0 t1 t2 : JsString), Turns prev t0 t1 → Turns curr t1 t2 →
      Turns (compressConsecutiveTextChanges (some prev) curr) t0 t2) ∧
    ∀ (edits : List SingleModelEditStackData.Edit) (versionId : Int) (eol : EndOfLineSequence)
      (cursors : Option (List Selection)) (t0 tn : JsString),
      SingleModelEditStackData.Consecutive edits t0 tn →
      Turns (edits.foldl appendEdit
        (SingleModelEditStackData.create versionId eol cursors)).changes t0 tn := by
  constructor
  · intro prev curr t0 t1 t2 hprev hcurr
    exact hprev.compressConsecutive hcurr
  · intro edits versionId eol cursors t0 tn hedits
    exact turns_appendAll (turns_nil t0) hedits

open TextChange in
/-- The second edit swallows the end of the first insertion and the unit behind it. -/
theorem compressConsecutiveTextChanges_turns_at_overlap :
    Turns (compressConsecutiveTextChanges (some [⟨1, [98], 1, [88, 89]⟩]) [⟨2, [89, 99], 2, [90]⟩])
      [97, 98, 99] [97, 88, 90] ∧
    Turns (([⟨[⟨1, [98], 1, [88, 89]⟩], .LF, 2, none⟩, ⟨[⟨2, [89, 99], 2, [90]⟩], .LF, 3, none⟩] :
        List SingleModelEditStackData.Edit).foldl appendEdit
      (SingleModelEditStackData.create 1 .LF none)).changes [97, 98, 99] [97, 88, 90] := by
  have hprev : Turns [⟨1, [98], 1, [88, 89]⟩] [97, 98, 99] [97, 88, 89, 99] :=
    turns_iff_describes.2 ⟨[97], [99], [99], rfl, rfl, rfl, rfl, rfl⟩
  have hcurr : Turns [⟨2, [89, 99], 2, [90]⟩] [97, 88, 89, 99] [97, 88, 90] :=
    turns_iff_describes.2 ⟨[97, 88], [], [], rfl, rfl, rfl, rfl, rfl⟩
  exact ⟨compressConsecutiveTextChanges_turns.1 _ _ _ _ _ hprev hcurr,
    compressConsecutiveTextChanges_turns.2 _ _ _ _ _ _ ⟨_, hprev, _, hcurr, rfl⟩⟩

end CodeOss
