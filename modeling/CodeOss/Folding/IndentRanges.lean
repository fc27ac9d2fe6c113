import CodeOss.Base.JsString
import CodeOss.Folding.FoldingRegions

/-! The folding ranges of indented blocks: the lines are read from the last one up, with a stack of
the regions that are open below, and the limit cuts the ranges off by their indent. -/

namespace CodeOss.Folding

/-- The columns in front of the text of a line, or -1 for a line of blanks only. -/
def computeIndentLevel (line : JsString) (tabSize : ℕ) : ℤ :=
  go 0 line
where
  go (indent : ℕ) : JsString → ℤ
    | [] => -1
    | chCode :: rest =>
      if chCode = 0x20 then go (indent + 1) rest
      else if chCode = 0x09 then go (indent - indent % tabSize + tabSize) rest
      else indent

/-- What the patterns of the markers find in a line. -/
inductive MarkerMatch
  | start
  | fin
  deriving DecidableEq, Repr

/-- The ranges as start and end lines, the last one inserted first. -/
structure RangesCollector where
  ranges : List (ℕ × ℕ)
  indentOccurrences : List ℕ
  deriving DecidableEq, Repr

namespace RangesCollector

def empty : RangesCollector := ⟨[], []⟩

/-- `array[index] = (array[index] || 0) + 1`, where an element left out counts as zero. -/
def countUp (array : List ℕ) (index : ℕ) : List ℕ :=
  if index < array.length then array.set index (array.getD index 0 + 1)
  else array ++ List.replicate (index - array.length) 0 ++ [1]

def insertFirst (collector : RangesCollector) (startLineNumber endLineNumber : ℕ) (indent : ℤ) :
    RangesCollector :=
  if startLineNumber > MAX_LINE_NUMBER.toNat ∨ endLineNumber > MAX_LINE_NUMBER.toNat then collector
  else
    { ranges := (startLineNumber, endLineNumber) :: collector.ranges
      indentOccurrences :=
        if indent < 1000 then countUp collector.indentOccurrences indent.toNat
        else collector.indentOccurrences }

/-- The loop over the occurrences: the indent from which on not all ranges fit, and how many
ranges have a smaller one. -/
def findMaxIndent (limit : ℕ) : List ℕ → ℕ → ℕ → ℕ × ℕ
  | [], i, entries => (i, entries)
  | n :: rest, i, entries =>
    if n ≠ 0 ∧ n + entries > limit then (i, entries)
    else findMaxIndent limit rest (i + 1) (entries + n)

/-- The ranges that are written when there are too many. -/
def pick (indentOf : ℕ → ℤ) (maxIndent limit : ℕ) : List (ℕ × ℕ) → ℕ → List (ℕ × ℕ)
  | [], _ => []
  | range :: rest, entries =>
    if indentOf range.1 < maxIndent then range :: pick indentOf maxIndent limit rest entries
    else if indentOf range.1 = maxIndent then
      if entries < limit then range :: pick indentOf maxIndent limit rest (entries + 1)
      else pick indentOf maxIndent limit rest (entries + 1)
    else pick indentOf maxIndent limit rest entries

def toFoldingRegions (ranges : List (ℕ × ℕ)) : Except String FoldingRegions :=
  FoldingRegions.new (ranges.map fun range => .ofNat range.1)
    (ranges.map fun range => .ofNat range.2)

/-- The limited arrays have the limit as their length, and what is not written stays zero. -/
def toIndentRanges (collector : RangesCollector) (indentOf : ℕ → ℤ) (limit : ℕ) :
    Except String FoldingRegions :=
  if collector.ranges.length ≤ limit then toFoldingRegions collector.ranges
  else
    let (maxIndent, entries) := findMaxIndent limit collector.indentOccurrences 0 0
    toFoldingRegions
      ((pick indentOf maxIndent limit collector.ranges entries ++
        List.replicate limit (0, 0)).take limit)

end RangesCollector

structure PreviousRegion where
  /-- The indent, or -2 for a marker. -/
  indent : ℤ
  endAbove : ℕ
  line : ℕ
  deriving DecidableEq, Repr

/-- The last region comes first. -/
structure Scan where
  previousRegions : List PreviousRegion
  result : RangesCollector

namespace Scan

def endTop (endAbove : ℕ) : List PreviousRegion → List PreviousRegion
  | [] => []
  | previous :: below => { previous with endAbove } :: below

/-- A line with the indent of the last region moves its end up, a deeper one opens a region. -/
def enter (line : ℕ) (indent : ℤ) (regions : List PreviousRegion) : List PreviousRegion :=
  if ∃ previous ∈ regions.head?, previous.indent = indent then endTop line regions
  else ⟨indent, line, line⟩ :: regions

/-- The end of a round for a line that is not a marker. -/
def regular (scan : Scan) (line : ℕ) (indent : ℤ) : Scan :=
  let regions := scan.previousRegions.dropWhile fun previous => previous.indent > indent
  let endLineNumber := (regions.head?.elim 0 (·.endAbove) : ℤ) - 1
  { result :=
      if (∃ previous ∈ scan.previousRegions.head?, previous.indent > indent) ∧
          endLineNumber - line ≥ 1 then
        scan.result.insertFirst line endLineNumber.toNat indent
      else scan.result
    previousRegions := enter line indent regions }

def round (offSide : Bool) (marker : Option MarkerMatch) (scan : Scan) (line : ℕ) (indent : ℤ) :
    Scan :=
  if indent = -1 then
    if offSide then { scan with previousRegions := endTop line scan.previousRegions } else scan
  else
    match marker with
    | none => scan.regular line indent
    | some .fin =>
      { scan with previousRegions := ⟨-2, line, line⟩ :: scan.previousRegions }
    | some .start =>
      match scan.previousRegions.dropWhile fun previous => previous.indent ≠ -2 with
      | previous :: below =>
        if below ≠ [] then
          ⟨⟨indent, line, line⟩ :: below,
            scan.result.insertFirst line previous.line indent⟩
        else scan.regular line indent
      | [] => scan.regular line indent

/-- The rounds of the lines from `line` on, the last one first. -/
def lines (tabSize : ℕ) (offSide : Bool) (markers : JsString → Option MarkerMatch) (lineCount : ℕ) :
    ℕ → List JsString → Scan
  | _, [] => ⟨[⟨-1, lineCount + 1, lineCount + 1⟩], .empty⟩
  | line, content :: rest =>
    (lines tabSize offSide markers lineCount (line + 1) rest).round offSide (markers content) line
      (computeIndentLevel content tabSize)

end Scan

variable (model : List JsString)

def collect (tabSize : ℕ) (offSide : Bool)
    (markers : JsString → Option MarkerMatch) : RangesCollector :=
  (Scan.lines tabSize offSide markers model.length 1 model).result

def lineIndent (tabSize line : ℕ) : ℤ :=
  computeIndentLevel (model.getD (line - 1) []) tabSize

def computeRanges (tabSize : ℕ) (offSide : Bool)
    (markers : JsString → Option MarkerMatch) (limit : ℕ) : Except String FoldingRegions :=
  (collect model tabSize offSide markers).toIndentRanges (lineIndent model tabSize) limit

def FoldingRegions.ranges (regions : FoldingRegions) : List (ℕ × ℕ) :=
  (regions.startIndexes.zip regions.endIndexes).map fun range => (range.1.toNat, range.2.toNat)

/-- The number of lines that belong to a line with an indent: those before the first one behind it
that is not blank and indented at most as much, less the blank ones at their end if `offSide`. -/
def reach (offSide : Bool) (indent : ℤ) (behind : List ℤ) : ℕ :=
  let block := behind.takeWhile fun other => other = -1 || indent < other
  (if offSide then block.rdropWhile (· = -1) else block).length

/-- The blocks of the lines from `line` on, given by their indents, with -1 for a blank one: a line
starts a block when the next line that is not blank is more indented. -/
def blocks (offSide : Bool) : ℕ → List ℤ → List (ℕ × ℕ)
  | _, [] => []
  | line, indent :: behind =>
    if indent ≠ -1 ∧ ∃ next ∈ (behind.dropWhile (· = -1)).head?, indent < next then
      (line, line + reach offSide indent behind) :: blocks offSide (line + 1) behind
    else blocks offSide (line + 1) behind

/-- Ranges within the document in the order of their starts, each two disjoint or nested. -/
structure NestedRanges (lineCount : ℕ) (ranges : List (ℕ × ℕ)) : Prop where
  valid : ∀ range ∈ ranges, 1 ≤ range.1 ∧ range.1 < range.2 ∧ range.2 ≤ lineCount
  pairwise : ranges.Pairwise fun a b => a.1 < b.1 ∧ (a.2 < b.1 ∨ b.2 ≤ a.2)

def FindsBlocks (tabSize : ℕ) (offSide : Bool)
    (markers : JsString → Option MarkerMatch) (limit : ℕ) : Prop :=
  ∃ regions, computeRanges model tabSize offSide markers limit = .ok regions ∧
    ((∀ content ∈ model, markers content = none) →
      (collect model tabSize offSide markers).ranges.length ≤ limit →
      regions.ranges = blocks offSide 1 (model.map (computeIndentLevel · tabSize))) ∧
    NestedRanges model.length regions.ranges ∧
    (limit < (collect model tabSize offSide markers).ranges.length →
      regions.ranges.length ≤ limit ∧
        regions.ranges.Sublist (collect model tabSize offSide markers).ranges)

/-- The ranges that the table of the occurrences lets in: those that start less than 1000 columns
in, and those at 1000 when the table has 1000 entries. -/
def admitted (indentOf : ℕ → ℤ) (ranges : List (ℕ × ℕ)) : List (ℕ × ℕ) :=
  ranges.filter fun range => indentOf range.1 < 1000 ||
    (indentOf range.1 = 1000 && ranges.any fun other => indentOf other.1 = 999)

/-- The arrays are small enough for the regions, and above the limit they are filled. -/
def Fits (tabSize : ℕ) (offSide : Bool)
    (markers : JsString → Option MarkerMatch) (limit : ℕ) : Prop :=
  let ranges := (collect model tabSize offSide markers).ranges
  min ranges.length limit ≤ MAX_FOLDING_REGIONS ∧
    (limit < ranges.length → limit ≤ (admitted (lineIndent model tabSize) ranges).length)

end CodeOss.Folding
