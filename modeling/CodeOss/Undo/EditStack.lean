import CodeOss.Undo.TextChange
import CodeOss.Base.Utf16
import CodeOss.Library.ByteCursor

/-! The data of one undo element: how edits are appended to it, and the byte format in
which a closed element is kept. -/

open List

namespace CodeOss

open Uint8Array

inductive EndOfLineSequence
  | LF
  | CRLF
deriving DecidableEq, Repr

namespace EndOfLineSequence

def toNumber : EndOfLineSequence → Nat
  | LF => 0
  | CRLF => 1

def ofNumber : Nat → Option EndOfLineSequence
  | 0 => some LF
  | 1 => some CRLF
  | _ => none

end EndOfLineSequence

/-- `readUInt32BE(b, offset); offset += 4`. -/
def nextUInt32BE (b : Uint8Array) (offset : Nat) : Option (Int × Nat) :=
  (readUInt32BE b offset).map fun value : Nat => ((value : Int), offset + 4)

/-- `readUInt8(b, offset); offset += 1`, read as a line ending. -/
def nextEOL (b : Uint8Array) (offset : Nat) : Option (EndOfLineSequence × Nat) :=
  ((readUInt8 b offset).bind EndOfLineSequence.ofNumber).map fun eol => (eol, offset + 1)

/-- The four numbers a `Selection` is made from. -/
structure Selection where
  selectionStartLineNumber : Int
  selectionStartColumn : Int
  positionLineNumber : Int
  positionColumn : Int
deriving DecidableEq, Repr

namespace TextChange

def writeStringSize (str : JsString) : Nat := 4 + 2 * str.length

variable (b : Uint8Array)

def writeString (str : JsString) (offset : Nat) : Uint8Array × Nat :=
  let b := writeUInt32BE b str.length offset
  let offset := offset + 4
  str.foldl (fun p unit => (writeUInt16LE p.1 unit.toNat p.2, p.2 + 2)) (b, offset)

def readString (offset : Nat) : Option JsString := do
  let len ← readUInt32BE b offset
  decodeUTF16LE b (offset + 4) len

/-- `_readString(b, offset); offset += _writeStringSize(str)`. -/
def nextString (offset : Nat) : Option (JsString × Nat) :=
  (readString b offset).map fun str => (str, offset + writeStringSize str)

def writeSize (c : TextChange) : Nat :=
  4 + 4 + writeStringSize c.oldText + writeStringSize c.newText

def write (c : TextChange) (b : Uint8Array) (offset : Nat) : Uint8Array × Nat :=
  let b := writeUInt32BE b c.oldPosition offset
  let offset := offset + 4
  let b := writeUInt32BE b c.newPosition offset
  let offset := offset + 4
  let (b, offset) := writeString b c.oldText offset
  writeString b c.newText offset

def read (offset : Nat) : Option (TextChange × Nat) := do
  let (oldPosition, offset) ← nextUInt32BE b offset
  let (newPosition, offset) ← nextUInt32BE b offset
  let (oldText, offset) ← nextString b offset
  let (newText, offset) ← nextString b offset
  return (⟨oldPosition, oldText, newPosition, newText⟩, offset)

end TextChange

structure SingleModelEditStackData where
  beforeVersionId : Int
  afterVersionId : Int
  beforeEOL : EndOfLineSequence
  afterEOL : EndOfLineSequence
  beforeCursorState : Option (List Selection)
  afterCursorState : Option (List Selection)
  changes : List TextChange
deriving DecidableEq, Repr

namespace SingleModelEditStackData

def create (alternativeVersionId : Int) (eol : EndOfLineSequence)
    (beforeCursorState : Option (List Selection)) : SingleModelEditStackData :=
  ⟨alternativeVersionId, alternativeVersionId, eol, eol, beforeCursorState, beforeCursorState, []⟩

variable (data : SingleModelEditStackData)

def append (textChanges : List TextChange) (afterEOL : EndOfLineSequence) (afterVersionId : Int)
    (afterCursorState : Option (List Selection)) : SingleModelEditStackData :=
  let changes := if textChanges.length > 0 then
    compressConsecutiveTextChanges (some data.changes) textChanges else data.changes
  { data with changes, afterEOL, afterVersionId, afterCursorState }

def writeSelectionsSize (selections : Option (List Selection)) : Nat :=
  4 + 4 * 4 * (selections.elim 0 List.length)

def writeSelection (selection : Selection) (b : Uint8Array) (offset : Nat) : Uint8Array × Nat :=
  let b := writeUInt32BE b selection.selectionStartLineNumber offset
  let offset := offset + 4
  let b := writeUInt32BE b selection.selectionStartColumn offset
  let offset := offset + 4
  let b := writeUInt32BE b selection.positionLineNumber offset
  let offset := offset + 4
  let b := writeUInt32BE b selection.positionColumn offset
  (b, offset + 4)

variable (b : Uint8Array)

def writeSelections (selections : Option (List Selection)) (offset : Nat) : Uint8Array × Nat :=
  let b := writeUInt32BE b ((selections.elim 0 List.length : Nat) : Int) offset
  let offset := offset + 4
  (selections.getD []).foldl (fun p selection => writeSelection selection p.1 p.2) (b, offset)

def readSelection (offset : Nat) : Option (Selection × Nat) := do
  let (selectionStartLineNumber, offset) ← nextUInt32BE b offset
  let (selectionStartColumn, offset) ← nextUInt32BE b offset
  let (positionLineNumber, offset) ← nextUInt32BE b offset
  let (positionColumn, offset) ← nextUInt32BE b offset
  return (⟨selectionStartLineNumber, selectionStartColumn, positionLineNumber, positionColumn⟩,
    offset)

/-- `count` rounds of a loop that reads one element and pushes it. -/
def readMany {α : Type} (read : Uint8Array → Nat → Option (α × Nat)) (b : Uint8Array) :
    Nat → Nat → Option (List α × Nat)
  | 0, offset => some ([], offset)
  | count + 1, offset => do
      let (value, offset) ← read b offset
      let (values, offset) ← readMany read b count offset
      return (value :: values, offset)

def readSelections (offset : Nat) : Option (List Selection × Nat) := do
  let (count, offset) ← nextUInt32BE b offset
  readMany readSelection b count.toNat offset

/-- The size `serialize` allocates before it writes. -/
def necessarySize : Nat :=
  4 + 4 + 1 + 1 + writeSelectionsSize data.beforeCursorState +
    writeSelectionsSize data.afterCursorState + 4 + (data.changes.map TextChange.writeSize).sum

/-- The writing half of `serialize`, which ends at the offset behind the last byte. -/
def writeInto (b : Uint8Array) (offset : Nat) : Uint8Array × Nat :=
  let b := writeUInt32BE b data.beforeVersionId offset
  let offset := offset + 4
  let b := writeUInt32BE b data.afterVersionId offset
  let offset := offset + 4
  let b := writeUInt8 b data.beforeEOL.toNumber offset
  let offset := offset + 1
  let b := writeUInt8 b data.afterEOL.toNumber offset
  let offset := offset + 1
  let (b, offset) := writeSelections b data.beforeCursorState offset
  let (b, offset) := writeSelections b data.afterCursorState offset
  let b := writeUInt32BE b data.changes.length offset
  let offset := offset + 4
  data.changes.foldl (fun p change => change.write p.1 p.2) (b, offset)

def serialize : Uint8Array :=
  (data.writeInto (List.replicate data.necessarySize 0) 0).1

def bytesWritten : Nat :=
  (data.writeInto (List.replicate data.necessarySize 0) 0).2

def readFrom (offset : Nat) : Option (SingleModelEditStackData × Nat) := do
  let (beforeVersionId, offset) ← nextUInt32BE b offset
  let (afterVersionId, offset) ← nextUInt32BE b offset
  let (beforeEOL, offset) ← nextEOL b offset
  let (afterEOL, offset) ← nextEOL b offset
  let (beforeCursorState, offset) ← readSelections b offset
  let (afterCursorState, offset) ← readSelections b offset
  let (changeCount, offset) ← nextUInt32BE b offset
  let (changes, offset) ← readMany TextChange.read b changeCount.toNat offset
  return (⟨beforeVersionId, afterVersionId, beforeEOL, afterEOL, some beforeCursorState,
    some afterCursorState, changes⟩, offset)

def deserialize (source : Uint8Array) : Option SingleModelEditStackData :=
  (readFrom source 0).map Prod.fst

end SingleModelEditStackData

end CodeOss

/-! What the byte format of an undo element keeps.
Everything comes back but a text with an unpaired surrogate, unless that text starts
with a byte order mark. -/

namespace CodeOss

open Uint8Array

/-- The offsets at which a view of 16-bit units may start. -/
def Aligned (offset : Nat) : Prop := offset % 2 = 0

theorem Aligned.add {m n : Nat} (hm : Aligned m) (hn : Aligned n) : Aligned (m + n) := by
  simp only [Aligned] at *
  omega

variable (value : Int)

theorem aligned_bytes32BE : Aligned (bytes32BE value).length := by
  simp only [Aligned, bytes32BE, length_cons, length_nil]

def Fits32 : Prop := 0 ≤ value ∧ value < 2 ^ 32

instance (value : Int) : Decidable (Fits32 value) :=
  inferInstanceAs (Decidable (0 ≤ value ∧ value < 2 ^ 32))

theorem writes_writeUInt32BE :
    Writes (fun b offset => (writeUInt32BE b value offset, offset + 4)) (bytes32BE value) := by
  intro done rest hroom
  obtain ⟨x, y, z, w, rest, rfl⟩ : ∃ x y z w rest', rest = x :: y :: z :: w :: rest' := by
    match rest, hroom with
    | x :: y :: z :: w :: rest', _ => exact ⟨x, y, z, w, rest', rfl⟩
  simp only [writeUInt32BE_append]
  rfl

theorem writes_writeUInt16LE :
    Writes (fun b offset => (writeUInt16LE b value offset, offset + 2)) (bytes16LE value) := by
  intro done rest hroom
  obtain ⟨x, y, rest, rfl⟩ : ∃ x y rest', rest = x :: y :: rest' := by
    match rest, hroom with
    | x :: y :: rest', _ => exact ⟨x, y, rest', rfl⟩
  simp only [writeUInt16LE_append]
  rfl

theorem writes_writeUInt8 :
    Writes (fun b offset => (writeUInt8 b value offset, offset + 1)) [toUint8 value] := by
  intro done rest hroom
  obtain ⟨x, rest, rfl⟩ : ∃ x rest', rest = x :: rest' := by
    match rest, hroom with
    | x :: rest', _ => exact ⟨x, rest', rfl⟩
  simp only [writeUInt8_append]
  rfl

theorem read_field32 {value : Int} (h : Fits32 value) (done rest : Uint8Array) :
    readUInt32BE (done ++ bytes32BE value ++ rest) done.length = some value.toNat :=
  readUInt32BE_append done rest h.1 h.2

theorem reads_nextUInt32BE {value : Int} (h : Fits32 value) :
    Reads Aligned nextUInt32BE (bytes32BE value) value := by
  intro done rest _
  rw [nextUInt32BE, read_field32 h, Option.map_some, Int.toNat_of_nonneg h.1]
  rfl

theorem reads_bindUInt32BE {γ : Type} {value : Int} {f : Int × Nat → Uint8Array → Option (γ × Nat)}
    {bytes : Uint8Array} {c : γ} (h : Fits32 value)
    (hread : Reads Aligned (fun b offset => f (value, offset) b) bytes c) :
    Reads Aligned (fun b offset => (nextUInt32BE b offset).bind fun p => f p b)
      (bytes32BE value ++ bytes) c :=
  Reads.bind Aligned (fun _ hn => hn.add (aligned_bytes32BE _)) (reads_nextUInt32BE h) hread

theorem ofNumber_toNumber (eol : EndOfLineSequence) :
    EndOfLineSequence.ofNumber eol.toNumber = some eol := by
  cases eol <;> rfl

theorem read_nextEOL (eol : EndOfLineSequence) (done rest : Uint8Array) :
    nextEOL (done ++ [toUint8 eol.toNumber] ++ rest) done.length = some (eol, done.length + 1) := by
  have hlt : ((eol.toNumber : Nat) : Int) < 2 ^ 8 := by cases eol <;> decide
  rw [nextEOL, readUInt8_append done rest (Int.natCast_nonneg _) hlt, Int.toNat_natCast,
    Option.bind_some, ofNumber_toNumber, Option.map_some]

namespace TextChange

variable (str : JsString)

def stringBytes : Uint8Array := bytes32BE str.length ++ bytesUtf16LE str

variable (c : TextChange)

def bytes : Uint8Array :=
  bytes32BE c.oldPosition ++ (bytes32BE c.newPosition ++
    (stringBytes c.oldText ++ stringBytes c.newText))

def reread : TextChange :=
  ⟨c.oldPosition, restored c.oldText, c.newPosition, restored c.newText⟩

structure FitsFields (c : TextChange) : Prop where
  oldPosition : Fits32 c.oldPosition
  newPosition : Fits32 c.newPosition
  oldLength : c.oldText.length < 2 ^ 32
  newLength : c.newText.length < 2 ^ 32

theorem length_stringBytes : (stringBytes str).length = writeStringSize str := by
  rw [stringBytes, length_append, length_bytesUtf16LE]
  rfl

theorem length_bytes : c.bytes.length = c.writeSize := by
  simp only [bytes, length_append, length_stringBytes, writeSize]
  simp only [bytes32BE, length_cons, length_nil]
  omega

theorem writes_writeString : Writes (fun b offset => writeString b str offset) (stringBytes str) :=
  (writes_writeUInt32BE str.length).seq
    (Writes.foldl str fun unit _ => writes_writeUInt16LE unit.toNat)

theorem writes_write : Writes (fun b offset => c.write b offset) c.bytes :=
  (writes_writeUInt32BE c.oldPosition).seq ((writes_writeUInt32BE c.newPosition).seq
    ((writes_writeString c.oldText).seq (writes_writeString c.newText)))

theorem readString_append {str : JsString} (h : str.length < 2 ^ 32) (done rest : Uint8Array)
    (heven : Aligned done.length) :
    readString (done ++ stringBytes str ++ rest) done.length = some (restored str) := by
  have hlen : readUInt32BE (done ++ stringBytes str ++ rest) done.length = some str.length := by
    have hfits : Fits32 str.length := ⟨Int.natCast_nonneg _, by exact_mod_cast h⟩
    have hread := read_field32 hfits done (bytesUtf16LE str ++ rest)
    rw [Int.toNat_natCast] at hread
    rw [← hread, stringBytes]
    simp only [append_assoc]
  have htext := decodeUTF16LE_bytes (done ++ bytes32BE str.length) rest str (by
    rw [length_append]
    exact heven.add (aligned_bytes32BE _))
  rw [readString, hlen]
  rw [length_append, append_assoc done] at htext
  exact htext

theorem reads_nextString {str : JsString} (h : str.length < 2 ^ 32) :
    Reads Aligned nextString (stringBytes str) (restored str) := by
  intro done rest heven
  rw [nextString, readString_append h done rest heven, length_stringBytes, Option.map_some,
    writeStringSize, writeStringSize, length_restored]

theorem aligned_stringBytes : Aligned (stringBytes str).length := by
  rw [length_stringBytes, writeStringSize, Aligned]
  omega

theorem reads_read {c : TextChange} (h : c.FitsFields) :
    Reads Aligned TextChange.read c.bytes c.reread := by
  refine reads_bindUInt32BE h.oldPosition ?_
  refine reads_bindUInt32BE h.newPosition ?_
  refine Reads.bind Aligned (fun n hn => hn.add (aligned_stringBytes _))
    (reads_nextString h.oldLength) ?_
  exact Reads.map (reads_nextString h.newLength) fun _ => rfl

theorem aligned_bytes : Aligned c.bytes.length := by
  rw [length_bytes, writeSize, writeStringSize, writeStringSize, Aligned]
  omega

theorem reread_eq_self_iff {c : TextChange} :
    c.reread = c ↔ Restorable c.oldText ∧ Restorable c.newText := by
  obtain ⟨o, ot, n, nt⟩ := c
  simp only [reread, TextChange.mk.injEq, true_and, restored_eq_self_iff]

end TextChange

namespace SingleModelEditStackData

variable (selection : Selection)

def selectionBytes : Uint8Array :=
  bytes32BE selection.selectionStartLineNumber ++ (bytes32BE selection.selectionStartColumn ++
    (bytes32BE selection.positionLineNumber ++ bytes32BE selection.positionColumn))

variable (selections : Option (List Selection))

def selectionsBytes : Uint8Array :=
  bytes32BE ((selections.elim 0 List.length : Nat) : Int) ++
    (selections.getD []).flatMap selectionBytes

variable (data : SingleModelEditStackData)

def bytes : Uint8Array :=
  bytes32BE data.beforeVersionId ++ (bytes32BE data.afterVersionId ++
    ([toUint8 data.beforeEOL.toNumber] ++ ([toUint8 data.afterEOL.toNumber] ++
      (selectionsBytes data.beforeCursorState ++ (selectionsBytes data.afterCursorState ++
        (bytes32BE data.changes.length ++ data.changes.flatMap TextChange.bytes))))))

structure SelectionFits (selection : Selection) : Prop where
  selectionStartLineNumber : Fits32 selection.selectionStartLineNumber
  selectionStartColumn : Fits32 selection.selectionStartColumn
  positionLineNumber : Fits32 selection.positionLineNumber
  positionColumn : Fits32 selection.positionColumn

/-- Version ids, positions and lengths fit the fields they are written to. -/
structure FitsFields (data : SingleModelEditStackData) : Prop where
  beforeVersionId : Fits32 data.beforeVersionId
  afterVersionId : Fits32 data.afterVersionId
  beforeCount : (data.beforeCursorState.getD []).length < 2 ^ 32
  beforeSelections : ∀ selection ∈ data.beforeCursorState.getD [], SelectionFits selection
  afterCount : (data.afterCursorState.getD []).length < 2 ^ 32
  afterSelections : ∀ selection ∈ data.afterCursorState.getD [], SelectionFits selection
  changeCount : data.changes.length < 2 ^ 32
  changes : ∀ change ∈ data.changes, change.FitsFields

def reread : SingleModelEditStackData :=
  { data with
    beforeCursorState := some (data.beforeCursorState.getD [])
    afterCursorState := some (data.afterCursorState.getD [])
    changes := data.changes.map TextChange.reread }

theorem writes_writeSelection : Writes (writeSelection selection) (selectionBytes selection) :=
  (writes_writeUInt32BE _).seq ((writes_writeUInt32BE _).seq ((writes_writeUInt32BE _).seq
    (writes_writeUInt32BE _)))

theorem writes_writeSelections :
    Writes (fun b offset => writeSelections b selections offset) (selectionsBytes selections) :=
  (writes_writeUInt32BE _).seq (Writes.foldl _ fun selection _ => writes_writeSelection selection)

theorem writes_writeInto : Writes (fun b offset => data.writeInto b offset) data.bytes :=
  (writes_writeUInt32BE _).seq ((writes_writeUInt32BE _).seq ((writes_writeUInt8 _).seq
    ((writes_writeUInt8 _).seq ((writes_writeSelections _).seq ((writes_writeSelections _).seq
      ((writes_writeUInt32BE _).seq (Writes.foldl _ fun change _ => change.writes_write)))))))

theorem length_selectionsBytes :
    (selectionsBytes selections).length = writeSelectionsSize selections := by
  have hsize : ∀ cs : List Selection, (cs.flatMap selectionBytes).length = 4 * 4 * cs.length := by
    intro cs
    induction cs with
    | nil => rfl
    | cons c cs ih =>
      rw [flatMap_cons, length_append, ih, length_cons]
      simp only [selectionBytes, bytes32BE, length_append, length_cons, length_nil]
      omega
  rw [selectionsBytes, length_append, hsize]
  cases selections <;> rfl

theorem length_bytes : data.bytes.length = data.necessarySize := by
  have hsize : ∀ cs : List TextChange,
      (cs.flatMap TextChange.bytes).length = (cs.map TextChange.writeSize).sum := by
    intro cs
    induction cs with
    | nil => rfl
    | cons c cs ih => rw [flatMap_cons, length_append, ih, c.length_bytes]; rfl
  simp only [bytes, length_append, length_selectionsBytes, hsize, necessarySize]
  simp only [bytes32BE, length_cons, length_nil]
  omega

theorem writeInto_eq :
    data.writeInto (List.replicate data.necessarySize 0) 0 = (data.bytes, data.necessarySize) := by
  have hfill := (writes_writeInto data).fill (b := List.replicate data.necessarySize 0) (by
    rw [length_replicate, length_bytes])
  rw [length_replicate] at hfill
  exact hfill

theorem reads_readSelection {selection : Selection} (h : SelectionFits selection) :
    Reads Aligned readSelection (selectionBytes selection) selection := by
  refine reads_bindUInt32BE h.selectionStartLineNumber ?_
  refine reads_bindUInt32BE h.selectionStartColumn ?_
  refine reads_bindUInt32BE h.positionLineNumber ?_
  exact Reads.map (reads_nextUInt32BE h.positionColumn) fun _ => rfl

theorem reads_readMany
    {α : Type} {read : Uint8Array → Nat → Option (α × Nat)} {items : α → Uint8Array}
    {value : α → α} (cs : List α) (haligned : ∀ c ∈ cs, Aligned (items c).length)
    (h : ∀ c ∈ cs, Reads Aligned read (items c) (value c)) : Reads Aligned
    (fun b offset => readMany read b cs.length offset) (cs.flatMap items) (cs.map value) := by
  induction cs with
  | nil => exact Reads.pure Aligned []
  | cons c cs ih =>
    refine Reads.bind Aligned (fun n hn => hn.add (haligned c mem_cons_self))
      (h c mem_cons_self) ?_
    exact Reads.map (ih (fun d hd => haligned d (mem_cons_of_mem _ hd))
      fun d hd => h d (mem_cons_of_mem _ hd)) fun _ => rfl

theorem aligned_selectionBytes : Aligned (selectionBytes selection).length := by
  simp only [selectionBytes, Aligned, bytes32BE, length_append, length_cons, length_nil]

theorem reads_readSelections {selections : Option (List Selection)}
    (hcount : (selections.getD []).length < 2 ^ 32)
    (hfits : ∀ selection ∈ selections.getD [], SelectionFits selection) :
    Reads Aligned readSelections (selectionsBytes selections) (selections.getD []) := by
  have hlen : selections.elim 0 List.length = (selections.getD []).length := by
    cases selections <;> rfl
  rw [selectionsBytes, hlen]
  have hcount' : Fits32 ((selections.getD []).length : Nat) :=
    ⟨Int.natCast_nonneg _, by exact_mod_cast hcount⟩
  refine reads_bindUInt32BE hcount' ?_
  have hmany := reads_readMany (selections.getD [])
    (fun selection _ => aligned_selectionBytes selection)
    fun selection hs => reads_readSelection (hfits selection hs)
  rw [map_id'] at hmany
  exact hmany

theorem aligned_selectionsBytes : Aligned (selectionsBytes selections).length := by
  rw [length_selectionsBytes, writeSelectionsSize, Aligned]
  omega

theorem reads_readFrom {data : SingleModelEditStackData} (h : data.FitsFields) :
    Reads Aligned readFrom data.bytes data.reread := by
  have hcount : Fits32 (data.changes.length : Nat) :=
    ⟨Int.natCast_nonneg _, by exact_mod_cast h.changeCount⟩
  refine reads_bindUInt32BE h.beforeVersionId ?_
  refine reads_bindUInt32BE h.afterVersionId ?_
  -- The two line endings take one byte each, so the offset is odd between them.
  refine Reads.bind (fun n => Aligned (n + 1)) (fun n hn => hn.add (n := 2) rfl)
    (fun done rest _ => read_nextEOL data.beforeEOL done rest) ?_
  refine Reads.bind Aligned (fun n hn => hn)
    (fun done rest _ => read_nextEOL data.afterEOL done rest) ?_
  refine Reads.bind Aligned (fun n hn => hn.add (aligned_selectionsBytes _))
    (reads_readSelections h.beforeCount h.beforeSelections) ?_
  refine Reads.bind Aligned (fun n hn => hn.add (aligned_selectionsBytes _))
    (reads_readSelections h.afterCount h.afterSelections) ?_
  refine reads_bindUInt32BE hcount ?_
  exact Reads.map (reads_readMany data.changes (fun c _ => c.aligned_bytes)
    fun c hc => TextChange.reads_read (h.changes c hc)) fun _ => rfl

/-- What is read back differs from what was written in the change texts only. -/
theorem deserialize_bytes {data : SingleModelEditStackData} (h : data.FitsFields) :
    deserialize data.serialize = some data.reread := by
  rw [deserialize, serialize, writeInto_eq, (reads_readFrom h).whole rfl]
  rfl

/-- The element with its cursor states as lists, a missing one being the empty list. -/
def withCursorLists : SingleModelEditStackData :=
  { data with
    beforeCursorState := some (data.beforeCursorState.getD [])
    afterCursorState := some (data.afterCursorState.getD []) }

theorem reread_eq_iff {data : SingleModelEditStackData} : data.reread = data.withCursorLists ↔
    ∀ change ∈ data.changes, Restorable change.oldText ∧ Restorable change.newText := by
  have hmap : data.reread = data.withCursorLists ↔
      data.changes.map TextChange.reread = data.changes.map id := by
    simp [reread, withCursorLists]
  rw [hmap, map_inj_left]
  simp only [id, TextChange.reread_eq_self_iff]

/-- An undo element survives the format exactly when every text of its changes is free of
unpaired surrogates or starts with a byte order mark; the size is right in any case. -/
theorem roundTrip_iff (data : SingleModelEditStackData) (h : data.FitsFields) :
    (deserialize data.serialize = some data.withCursorLists ∧
      data.bytesWritten = data.necessarySize) ↔
    ∀ change ∈ data.changes, Restorable change.oldText ∧ Restorable change.newText := by
  rw [deserialize_bytes h, Option.some.injEq, reread_eq_iff, bytesWritten, writeInto_eq]
  simp

/-- An element with one change, which inserts `newText` at the start of the document. -/
def inserting (newText : JsString) : SingleModelEditStackData :=
  ⟨1, 2, .LF, .CRLF, none, some [⟨1, 1, 1, 2⟩], [⟨0, [], 0, newText⟩]⟩

theorem fitsFields_inserting {newText : JsString} (h : newText.length < 2 ^ 32) :
    (inserting newText).FitsFields := by
  have h0 : Fits32 0 := by decide
  have h1 : Fits32 1 := by decide
  have h2 : Fits32 2 := by decide
  refine ⟨h1, h2, Nat.two_pow_pos 32, by simp [inserting], Nat.one_lt_two_pow (by decide), ?_,
    Nat.one_lt_two_pow (by decide), ?_⟩
  · intro selection hs
    obtain rfl : selection = ⟨1, 1, 1, 2⟩ := by simpa [inserting] using hs
    exact ⟨h1, h1, h1, h2⟩
  · intro change hc
    obtain rfl : change = ⟨0, [], 0, newText⟩ := by simpa [inserting] using hc
    exact ⟨h0, h0, Nat.two_pow_pos 32, h⟩

/-- Behind a byte order mark even an unpaired surrogate survives. -/
theorem roundTrip_iff_at_mark :
    (deserialize (inserting [0xFEFF, 0xD800]).serialize =
        some (inserting [0xFEFF, 0xD800]).withCursorLists ∧
      (inserting [0xFEFF, 0xD800]).bytesWritten = (inserting [0xFEFF, 0xD800]).necessarySize) ↔
    ∀ change ∈ (inserting [0xFEFF, 0xD800]).changes,
      Restorable change.oldText ∧ Restorable change.newText :=
  roundTrip_iff (inserting [0xFEFF, 0xD800]) (fitsFields_inserting (by decide))

/-- A lone high surrogate is read back as U+FFFD. -/
theorem roundTrip_fails_at_lone_surrogate :
    (inserting [0xD800]).FitsFields ∧
      deserialize (inserting [0xD800]).serialize ≠ some (inserting [0xD800]).withCursorLists :=
  ⟨fitsFields_inserting (by decide), by decide⟩

end SingleModelEditStackData

end CodeOss
