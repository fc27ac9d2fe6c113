import CodeOss.Core.Range
import CodeOss.Library.Runs

/-! What an edit does to the tokens of one line.
An array holds the tokens of its line, each with the offset it ends at and its metadata;
it has at least one of them. `null` says that nothing is known about the line, the empty
marker that it has no tokens. -/

namespace CodeOss

/-- `Uint32Array | ArrayBuffer | null`, where one array is set apart. -/
inductive RawLineTokens where
  | null
  | EMPTY_LINE_TOKENS
  | array (tokens : List (ℕ × ℕ))
  deriving DecidableEq

namespace LineTokens

variable (tokens : List (ℕ × ℕ))

def endOffset (tokenIndex : ℕ) : ℕ := (tokens.getD tokenIndex (0, 0)).1

def metadata (tokenIndex : ℕ) : ℕ := (tokens.getD tokenIndex (0, 0)).2

/-- The loop of the binary search; every round halves the distance. -/
def findIndexLoop (tokens : List (ℕ × ℕ)) (desiredIndex : ℕ) : ℕ → ℕ → ℕ → ℕ
  | 0, low, _ => low
  | fuel + 1, low, high =>
    if low < high then
      let mid := low + (high - low) / 2
      let endOffset := endOffset tokens mid
      if endOffset = desiredIndex then mid + 1
      else if endOffset < desiredIndex then
        findIndexLoop tokens desiredIndex fuel (mid + 1) high
      else findIndexLoop tokens desiredIndex fuel low mid
    else low

def findIndexInTokensArray (desiredIndex : ℕ) : ℕ :=
  if tokens.length ≤ 1 then 0
  else findIndexLoop tokens desiredIndex tokens.length 0 (tokens.length - 1)

end LineTokens

namespace ContiguousTokensEditing

open LineTokens

/-- `tokens[tokens.length - 2]` -/
def lineTextLength (tokens : List (ℕ × ℕ)) : ℕ := endOffset tokens (tokens.length - 1)

/-- The rest of `delete` for a range that reaches the end of its first token. The loop goes
over the tokens behind that one. -/
def deleteAcross (tokens : List (ℕ × ℕ)) (fromTokenIndex fromChIndex toChIndex : ℕ) :
    List (ℕ × ℕ) :=
  let fromTokenStartOffset :=
    if 0 < fromTokenIndex then endOffset tokens (fromTokenIndex - 1) else 0
  let delta := toChIndex - fromChIndex
  let others := tokens.drop (fromTokenIndex + 1)
  if fromTokenStartOffset ≠ fromChIndex then
    tokens.take fromTokenIndex ++ [(fromChIndex, metadata tokens fromTokenIndex)] ++
      Runs.trim delta fromChIndex others
  else tokens.take fromTokenIndex ++ Runs.trim delta fromTokenStartOffset others

variable (lineTokens : RawLineTokens)

def delete (fromChIndex toChIndex : ℕ) : RawLineTokens :=
  match lineTokens with
  | .null => .null
  | .EMPTY_LINE_TOKENS => .EMPTY_LINE_TOKENS
  | .array tokens =>
    if fromChIndex = toChIndex then .array tokens
    -- special case: deleting everything
    else if fromChIndex = 0 ∧ lineTextLength tokens = toChIndex then .EMPTY_LINE_TOKENS
    else
      let fromTokenIndex := findIndexInTokensArray tokens fromChIndex
      if toChIndex < endOffset tokens fromTokenIndex then
        .array (tokens.take fromTokenIndex ++
          (tokens.drop fromTokenIndex).map (Runs.moveLeft (toChIndex - fromChIndex)))
      else .array (deleteAcross tokens fromTokenIndex fromChIndex toChIndex)

def deleteBeginning (toChIndex : ℕ) : RawLineTokens :=
  match lineTokens with
  | .null => .null
  | .EMPTY_LINE_TOKENS => .EMPTY_LINE_TOKENS
  | .array tokens => delete (.array tokens) 0 toChIndex

def deleteEnding (fromChIndex : ℕ) : RawLineTokens :=
  match lineTokens with
  | .null => .null
  | .EMPTY_LINE_TOKENS => .EMPTY_LINE_TOKENS
  | .array tokens => delete (.array tokens) fromChIndex (lineTextLength tokens)

def append (lineTokens otherTokens : RawLineTokens) : RawLineTokens :=
  match otherTokens, lineTokens with
  | .EMPTY_LINE_TOKENS, lineTokens => lineTokens
  | otherTokens, .EMPTY_LINE_TOKENS => otherTokens
  | _, .null => .null
  -- cannot determine combined line length...
  | .null, _ => .null
  | .array otherTokens, .array myTokens =>
    .array (myTokens ++ otherTokens.map (Runs.moveRight (lineTextLength myTokens)))

def insert (chIndex textLength : ℕ) : RawLineTokens :=
  match lineTokens with
  | .null => .null
  | .EMPTY_LINE_TOKENS => .EMPTY_LINE_TOKENS
  | .array tokens =>
    let index := findIndexInTokensArray tokens chIndex
    let fromTokenIndex :=
      if 0 < index ∧ endOffset tokens (index - 1) = chIndex then index - 1 else index
    .array (tokens.take fromTokenIndex ++
      (tokens.drop fromTokenIndex).map (Runs.moveRight textLength))

/-- What a deletion leaves on the line where it starts, from what is known of each line. -/
def joinedTokens (line : ℕ → RawLineTokens) (range : Range) : RawLineTokens :=
  if range.startLineNumber = range.endLineNumber then
    delete (line range.startLineNumber) (range.startColumn - 1) (range.endColumn - 1)
  else append (deleteEnding (line range.startLineNumber) (range.startColumn - 1))
    (deleteBeginning (line range.endLineNumber) (range.endColumn - 1))

end ContiguousTokensEditing

theorem ContiguousTokensEditing.delete_self (lineTokens : RawLineTokens) (chIndex : ℕ) :
    delete lineTokens chIndex chIndex = lineTokens := by
  cases lineTokens with
  | null => rfl
  | EMPTY_LINE_TOKENS => rfl
  | array tokens => exact if_pos rfl

namespace LineTokens

/-- The search stops at the token that holds the offset, or at the last one. -/
structure FoundAt (tokens : List (ℕ × ℕ)) (desiredIndex index : ℕ) : Prop where
  lt : index < tokens.length
  before : ∀ i < index, endOffset tokens i ≤ desiredIndex
  within : index + 1 < tokens.length → desiredIndex < endOffset tokens index

variable {tokens : List (ℕ × ℕ)}

variable (h : Runs.Increasing tokens)
include h

theorem endOffset_lt {i j : ℕ} (hij : i < j) (hj : j < tokens.length) :
    endOffset tokens i < endOffset tokens j := by
  have hi : i < tokens.length := hij.trans hj
  have hlt := List.pairwise_iff_getElem.1 h i j (by simpa [Runs.ends] using hi)
    (by simpa [Runs.ends] using hj) hij
  simpa [endOffset, hi, hj, Runs.ends] using hlt

theorem endOffset_le {i j : ℕ} (hij : i ≤ j) (hj : j < tokens.length) :
    endOffset tokens i ≤ endOffset tokens j := by
  rcases hij.eq_or_lt with rfl | hlt
  · exact le_rfl
  · exact (endOffset_lt h hlt hj).le

theorem findIndexLoop_spec {desiredIndex : ℕ} {fuel low high : ℕ}
    (hfuel : high < low + fuel) (hlow : low ≤ high) (hhigh : high < tokens.length)
    (hbefore : ∀ i < low, endOffset tokens i ≤ desiredIndex)
    (hwithin : high + 1 < tokens.length → desiredIndex < endOffset tokens high) :
    FoundAt tokens desiredIndex (findIndexLoop tokens desiredIndex fuel low high) := by
  induction fuel generalizing low high with
  | zero => omega
  | succ fuel ih =>
    rw [findIndexLoop]
    split_ifs with hlt
    · have hmid : low + (high - low) / 2 < high := by omega
      simp only
      split_ifs with heq hless
      · refine ⟨by omega, fun i hi => ?_, fun hlast => ?_⟩
        · rw [← heq]
          exact endOffset_le h (by omega) (by omega)
        · rw [← heq]
          exact endOffset_lt h (by omega) (by omega)
      · refine ih (by omega) hmid hhigh (fun i hi => ?_) hwithin
        exact (endOffset_le h (by omega) (by omega)).trans hless.le
      · exact ih (by omega) (by omega) (by omega) hbefore fun _ => by omega
    · obtain rfl : low = high := by omega
      exact ⟨hhigh, hbefore, hwithin⟩

theorem findIndexInTokensArray_spec (hne : tokens ≠ []) (desiredIndex : ℕ) :
    FoundAt tokens desiredIndex (findIndexInTokensArray tokens desiredIndex) := by
  have hpos := List.length_pos_iff.2 hne
  rw [findIndexInTokensArray]
  split_ifs with hone
  · exact ⟨hpos, fun i hi => absurd hi (Nat.not_lt_zero i), fun hlt => by omega⟩
  · exact findIndexLoop_spec h (by omega) (Nat.zero_le _) (by omega)
      (fun i hi => absurd hi (Nat.not_lt_zero i)) fun hlt => by omega

end LineTokens

end CodeOss
