import CodeOss.Core.Lines
import CodeOss.Tokens.ContiguousTokensStore
import CodeOss.Tokens.EditingSpec

/-! The stored tokens beside the document they belong to.
Every character of the document remembers the metadata it was given last. -/

namespace CodeOss

open ContiguousTokensEditing Runs List ContiguousTokensStore

structure Character where
  unit : CodeUnit
  given : Option ℕ
  deriving DecidableEq

namespace Character

/-- A character that an edit has put in. -/
def fresh (unit : CodeUnit) : Character := ⟨unit, none⟩

variable (character : Character)

def give (metadata : ℕ) : Character :=
  { character with given := some metadata }

/-- The metadata a character was given is the one it has. -/
def Keeps (metadata : ℕ) : Prop :=
  ∀ given ∈ character.given, given = metadata

theorem keeps_fresh (unit : CodeUnit) (metadata : ℕ) : (fresh unit).Keeps metadata := by
  intro given h
  cases h

theorem keeps_give (metadata : ℕ) : (character.give metadata).Keeps metadata := by
  intro given h
  exact (Option.mem_some_iff.1 h).symm

end Character

/-- An array is aligned with the characters of its line. -/
def Follows (line : List Character) : RawLineTokens → Prop
  | .null => True
  | .EMPTY_LINE_TOKENS => True
  | .array tokens =>
    Covers tokens line.length ∧ List.Forall₂ Character.Keeps line (metadataOf tokens)

theorem forall₂_fresh (units : List CodeUnit) (value : ℕ) : List.Forall₂ Character.Keeps
    (units.map Character.fresh) (List.replicate units.length value) := by
  induction units with
  | nil => exact List.Forall₂.nil
  | cons unit units ih => exact List.Forall₂.cons (Character.keeps_fresh unit value) ih

variable {line : List Character} {tokens : List (ℕ × ℕ)} {lineTokens : RawLineTokens}
  {start stop : ℕ}

theorem forall₂_give {values : List ℕ} (h : values.length = line.length) :
    List.Forall₂ Character.Keeps (List.zipWith Character.give line values) values := by
  induction line generalizing values with
  | nil =>
    obtain rfl := eq_nil_of_length_eq_zero h
    exact List.Forall₂.nil
  | cons character line ih =>
    cases values with
    | nil => cases h
    | cons value values =>
      exact List.Forall₂.cons (Character.keeps_give character value) (ih (Nat.succ.inj h))

theorem noneEmpty_iff {length : ℕ} (h : Covers tokens length) :
    NoneEmpty tokens ↔ 0 < LineTokens.endOffset tokens 0 := by
  obtain ⟨hne, hincreasing, -⟩ := h
  cases tokens with
  | nil => exact absurd rfl hne
  | cons token tokens =>
    obtain ⟨hhead, -⟩ := pairwise_cons.1 hincreasing
    constructor
    · exact fun hfull => hfull token.1 mem_cons_self
    · intro hpos e he
      rcases mem_cons.1 he with rfl | he
      · exact hpos
      · exact (show 0 < token.1 from hpos).trans (hhead e he)

theorem follows_delete (h : Follows line lineTokens) (hle : start ≤ stop)
    (hstop : stop ≤ line.length) :
    Follows (line.take start ++ line.drop stop) (delete lineTokens start stop) := by
  rcases hle.eq_or_lt with rfl | hlt
  · rwa [delete_self, take_append_drop]
  cases lineTokens with
  | null => trivial
  | EMPTY_LINE_TOKENS => trivial
  | array tokens =>
    obtain ⟨hcovers, hkeeps⟩ := h
    by_cases hall : start = 0 ∧ line.length = stop
    · obtain ⟨rfl, rfl⟩ := hall
      rw [delete_all hcovers hlt]
      trivial
    · obtain ⟨result, hresult, hcovers', hmetadata, -⟩ := delete_spec hcovers hlt hstop hall
      have hlength : (line.take start ++ line.drop stop).length = line.length - (stop - start) := by
        rw [length_append, List.length_take, List.length_drop]
        omega
      rw [hresult, Follows, hlength, hmetadata]
      exact ⟨hcovers', rel_append (forall₂_take start hkeeps) (forall₂_drop stop hkeeps)⟩

theorem deleteEnding_cases (h : Follows line (.array tokens)) (hstart : start ≤ line.length) :
    start = 0 ∧ 0 < line.length ∧ deleteEnding (.array tokens) start = .EMPTY_LINE_TOKENS ∨
    (0 < start ∨ line.length = 0) ∧ ∃ result, deleteEnding (.array tokens) start = .array result ∧
    Follows (line.take start) (.array result) := by
  have hending : deleteEnding (.array tokens) start = delete (.array tokens) start line.length := by
    rw [deleteEnding, h.1.lineTextLength_eq]
  have hdelete := follows_delete h hstart le_rfl
  rw [drop_length, append_nil, ← hending] at hdelete
  rcases hstart.eq_or_lt with rfl | hlt
  · refine .inr ⟨by omega, tokens, ?_, ?_⟩
    · rw [hending, delete_self]
    · rwa [take_length]
  · by_cases hzero : start = 0
    · subst hzero
      exact .inl ⟨rfl, hlt, by rw [hending, delete_all h.1 hlt]⟩
    · obtain ⟨result, hresult, -⟩ := delete_spec h.1 hlt le_rfl fun hall => hzero hall.1
      rw [← hending] at hresult
      exact .inr ⟨.inl (Nat.pos_of_ne_zero hzero), result, hresult, hresult ▸ hdelete⟩

theorem deleteBeginning_cases (h : Follows line (.array tokens)) (hstop : stop ≤ line.length) :
    stop = line.length ∧ 0 < line.length ∧ deleteBeginning (.array tokens) stop =
    .EMPTY_LINE_TOKENS ∨ (stop < line.length ∨ line.length = 0) ∧
    ∃ result, deleteBeginning (.array tokens) stop = .array result ∧
    Follows (line.drop stop) (.array result) ∧ (NoneEmpty tokens → NoneEmpty result) := by
  have hdelete := follows_delete h (Nat.zero_le stop) hstop
  rw [take_zero, nil_append] at hdelete
  rw [deleteBeginning]
  rcases Nat.eq_zero_or_pos stop with rfl | hpos
  · refine .inr ⟨by omega, tokens, delete_self _ _, ?_, id⟩
    rwa [drop_zero]
  · rcases hstop.eq_or_lt with rfl | hlt
    · exact .inl ⟨rfl, hpos, delete_all h.1 hpos⟩
    · obtain ⟨result, hresult, -, -, hfull⟩ :=
        delete_spec h.1 hpos hstop fun hall => hlt.ne' hall.2
      exact .inr ⟨.inl hlt, result, hresult, hresult ▸ hdelete, hfull⟩

theorem follows_insert {chIndex : ℕ} (h : Follows line lineTokens) (hch : chIndex ≤ line.length)
    (units : List CodeUnit) : Follows (line.take chIndex ++ units.map Character.fresh ++ line.drop
    chIndex) (ContiguousTokensEditing.insert lineTokens chIndex units.length) := by
  cases lineTokens with
  | null => trivial
  | EMPTY_LINE_TOKENS => trivial
  | array tokens =>
    obtain ⟨hcovers, hkeeps⟩ := h
    obtain ⟨result, value, hresult, hcovers', hmetadata⟩ :=
      insert_spec hcovers hch units.length
    have hlength : (line.take chIndex ++ units.map Character.fresh ++ line.drop chIndex).length =
        line.length + units.length := by
      simp only [length_append, List.length_take, length_map, List.length_drop]
      omega
    rw [hresult, Follows, hlength, hmetadata]
    exact ⟨hcovers', rel_append (rel_append (forall₂_take chIndex hkeeps)
      (forall₂_fresh units value)) (forall₂_drop chIndex hkeeps)⟩

theorem follows_insert_ending {chIndex : ℕ}
    (h : Follows line lineTokens) (hch : chIndex ≤ line.length) (units : List CodeUnit) :
    Follows (line.take chIndex ++ units.map Character.fresh)
    (ContiguousTokensEditing.insert (deleteEnding lineTokens chIndex) chIndex units.length) := by
  have hending : Follows (line.take chIndex) (deleteEnding lineTokens chIndex) := by
    cases lineTokens with
    | null => trivial
    | EMPTY_LINE_TOKENS => trivial
    | array tokens =>
      rcases deleteEnding_cases h hch with ⟨-, -, hresult⟩ | ⟨-, result, hresult, hfollows⟩
      · rw [hresult]
        trivial
      · rwa [hresult]
  have hlength : (line.take chIndex).length = chIndex := length_take_of_le hch
  have hinsert := follows_insert hending hlength.ge units
  rwa [List.take_take, Nat.min_self, drop_of_length_le hlength.le, append_nil] at hinsert

/-- Whether `left` characters of a line of `length` characters still have an array. -/
def StaysArray (lineTokens : RawLineTokens) (left length : ℕ) : Prop :=
  (∃ tokens, lineTokens = .array tokens) ∧ (0 < left ∨ length = 0)

/-- Where a deletion makes one line of two, no marker stands for characters that are left
beside an array, and the array that comes behind another does not begin with an empty token. -/
structure Joinable (first last : RawLineTokens) (kept firstLength rest lastLength : ℕ) : Prop where
  front : first = .EMPTY_LINE_TOKENS → StaysArray last rest lastLength → kept = 0
  back : last = .EMPTY_LINE_TOKENS → StaysArray first kept firstLength → rest = 0
  inner : StaysArray first kept firstLength → StaysArray last rest lastLength →
    ∀ tokens, last = .array tokens → 0 < LineTokens.endOffset tokens 0

theorem append_empty_left (lineTokens : RawLineTokens) :
    append .EMPTY_LINE_TOKENS lineTokens = lineTokens := by
  cases lineTokens <;> rfl

theorem append_empty_right (lineTokens : RawLineTokens) :
    append lineTokens .EMPTY_LINE_TOKENS = lineTokens := by
  cases lineTokens <;> rfl

theorem append_null_left (lineTokens : RawLineTokens) : append .null lineTokens = .null := by
  cases lineTokens <;> rfl

theorem append_null_right (lineTokens : RawLineTokens) : append lineTokens .null = .null := by
  cases lineTokens <;> rfl

theorem follows_deleteBeginning (h : Follows line lineTokens) (hstop : stop ≤ line.length) :
    Follows (line.drop stop) (deleteBeginning lineTokens stop) := by
  cases lineTokens with
  | null => trivial
  | EMPTY_LINE_TOKENS => trivial
  | array tokens =>
    rcases deleteBeginning_cases h hstop with ⟨-, -, hresult⟩ | ⟨-, result, hresult, hfollows, -⟩
    · rw [hresult]
      trivial
    · rwa [hresult]

theorem follows_append
    {other : List Character} {first last : RawLineTokens} (h : Follows line first)
    (hother : Follows other last) (hstart : start ≤ line.length) (hstop : stop ≤ other.length)
    (hjoin : Joinable first last start line.length (other.length - stop) other.length) :
    Follows (line.take start ++ other.drop stop)
    (append (deleteEnding first start) (deleteBeginning last stop)) := by
  have hbeginning := follows_deleteBeginning hother hstop
  cases first with
  | null =>
    rw [deleteEnding, append_null_left]
    trivial
  | EMPTY_LINE_TOKENS =>
    rw [deleteEnding, append_empty_left]
    cases last with
    | null => trivial
    | EMPTY_LINE_TOKENS => trivial
    | array otherTokens =>
      rcases deleteBeginning_cases hother hstop with ⟨-, -, hresult⟩ | ⟨hleft, -⟩
      · rw [hresult]
        trivial
      · have hzero : start = 0 := hjoin.front rfl ⟨⟨otherTokens, rfl⟩, by omega⟩
        rwa [hzero, take_zero, nil_append]
  | array tokens =>
    rcases deleteEnding_cases h hstart with ⟨rfl, -, hending⟩ | ⟨hleft, result, hending, hfollows⟩
    · rwa [hending, append_empty_left, take_zero, nil_append]
    rw [hending]
    have hfirst : StaysArray (.array tokens) start line.length := ⟨⟨tokens, rfl⟩, hleft⟩
    cases last with
    | null =>
      rw [deleteBeginning, append_null_right]
      trivial
    | EMPTY_LINE_TOKENS =>
      have hrest : other.length - stop = 0 := hjoin.back rfl hfirst
      rw [deleteBeginning, append_empty_right, drop_of_length_le (by omega), append_nil]
      exact hfollows
    | array otherTokens =>
      rcases deleteBeginning_cases hother hstop with
        ⟨hall, -, hresult⟩ | ⟨hright, otherResult, hresult, hfollows', hfull⟩
      · rw [hresult, append_empty_right, drop_of_length_le hall.ge, append_nil]
        exact hfollows
      · have hpos := hjoin.inner hfirst ⟨⟨otherTokens, rfl⟩, by omega⟩ otherTokens rfl
        obtain ⟨joined, hjoined, hcovers, hmetadata⟩ := append_spec hfollows.1 hfollows'.1
          (hfull ((noneEmpty_iff hother.1).2 hpos))
        rw [hresult, hjoined, Follows, hmetadata, length_append]
        exact ⟨hcovers, rel_append hfollows.2 hfollows'.2⟩

structure Tokenized where
  doc : List (List Character)
  store : ContiguousTokensStore

/-- What happens to a document and its tokens. The text of an edit is given by its lines. -/
inductive TokensStep where
  | setTokens (topLevelLanguageId lineIndex : ℕ) (tokens : List (ℕ × ℕ))
  | acceptEdit (range : Range) (text : List (List CodeUnit))

namespace TokensStep

/-- Tokens are set for a line they cover, and an edit is one of the document. -/
def Possible (doc : List (List Character)) : TokensStep → Prop
  | setTokens _ lineIndex tokens =>
    lineIndex < doc.length ∧ Covers tokens (Lines.line doc (lineIndex + 1)).length
  | acceptEdit range text => Lines.Contains doc range ∧ text ≠ []

def apply (state : Tokenized) : TokensStep → Tokenized
  | setTokens topLevelLanguageId lineIndex tokens =>
    let line := Lines.line state.doc (lineIndex + 1)
    { doc := state.doc.set lineIndex (List.zipWith Character.give line (metadataOf tokens))
      store :=
        state.store.setTokens topLevelLanguageId lineIndex line.length (some tokens) }
  | acceptEdit range text =>
    { doc := Lines.replaceRange state.doc range (text.map (List.map Character.fresh))
      store := state.store.acceptEdit range (text.length - 1) (text.headD []).length }

/-- A deletion over several lines joins the first and the last of them cleanly. -/
def Clean (state : Tokenized) : TokensStep → Prop
  | setTokens _ _ _ => True
  | acceptEdit range _ => range.startLineNumber < range.endLineNumber →
      Joinable (state.store.line range.startLineNumber) (state.store.line range.endLineNumber)
        (range.startColumn - 1) (Lines.line state.doc range.startLineNumber).length
        ((Lines.line state.doc range.endLineNumber).length - (range.endColumn - 1))
        (Lines.line state.doc range.endLineNumber).length

end TokensStep

/-- Every stored array belongs to a line, has strictly increasing end offsets, of which the
last is the length of that line, and has the metadata its characters were given. -/
structure TokensAligned (state : Tokenized) : Prop where
  lines : state.store.lineTokens.length ≤ state.doc.length
  follows : ∀ lineNumber, 1 ≤ lineNumber →
    Follows (Lines.line state.doc lineNumber) (state.store.line lineNumber)

/-- The states a document with its tokens comes to by steps that satisfy `allowed`. -/
inductive Reaches (allowed : Tokenized → TokensStep → Prop) (start : Tokenized) : Tokenized → Prop
  | refl : Reaches allowed start start
  | step {state : Tokenized} (step : TokensStep) : Reaches allowed start state →
      step.Possible state.doc → allowed state step → Reaches allowed start (step.apply state)

theorem follows_massageTokens (h : Covers tokens line.length) (topLevelLanguageId : ℕ) :
    Follows (List.zipWith Character.give line (metadataOf tokens))
      (massageTokens topLevelLanguageId line.length (some tokens)) := by
  obtain ⟨tokens, last, rfl⟩ := (eq_nil_or_concat' tokens).resolve_left h.ne_nil
  -- the last token ends where the line does, so setting its end changes nothing
  have hlast : last.1 = line.length := by
    rw [← h.stop, Runs.stop_append]
    rfl
  have harray : Follows (List.zipWith Character.give line (metadataOf (tokens ++ [last])))
      (.array ((tokens ++ [last]).dropLast ++
        [(line.length, ((tokens ++ [last]).getLastD (0, 0)).2)])) := by
    have hmetadata := h.length_metadataOf
    have hlength : (List.zipWith Character.give line (metadataOf (tokens ++ [last]))).length =
        line.length := by
      rw [length_zipWith, hmetadata, Nat.min_self]
    have hsame : (tokens ++ [last]).dropLast ++
        [(line.length, ((tokens ++ [last]).getLastD (0, 0)).2)] = tokens ++ [last] := by
      rw [dropLast_concat, ← hlast]
      simp
    rw [hsame, Follows, hlength]
    exact ⟨h, forall₂_give hmetadata⟩
  cases htokens : tokens ++ [last] with
  | nil => exact absurd htokens (by simp)
  | cons token rest =>
    rw [htokens] at harray
    simp only [massageTokens]
    split_ifs
    · trivial
    · exact harray

theorem aligned_setTokens {state : Tokenized} (h : TokensAligned state)
    {topLevelLanguageId lineIndex : ℕ}
    (hpossible : (TokensStep.setTokens topLevelLanguageId lineIndex tokens).Possible state.doc) :
    TokensAligned ((TokensStep.setTokens topLevelLanguageId lineIndex tokens).apply state) := by
  obtain ⟨hindex, hcovers⟩ := hpossible
  refine ⟨?_, fun lineNumber hpos => ?_⟩
  · have hlines := h.lines
    simp only [TokensStep.apply, setTokens, ensureLine,
      List.length_set, length_append, length_replicate]
    omega
  · simp only [TokensStep.apply]
    rw [line_setTokens _ _ _ _ _ hpos, Lines.line, List.getD_set_eq _ _ _ _ _ hindex]
    by_cases heq : lineNumber = lineIndex + 1
    · rw [if_pos (by omega), if_pos heq]
      exact follows_massageTokens hcovers topLevelLanguageId
    · rw [if_neg (by omega), if_neg heq]
      exact h.follows lineNumber hpos

variable {store : ContiguousTokensStore} {doc : List (List Character)} {text : List (List CodeUnit)}

theorem aligned_acceptDeleteRange
    (h : TokensAligned ⟨doc, store⟩) {range : Range} (hrange : Lines.Contains doc range)
    (hclean : (TokensStep.acceptEdit range text).Clean ⟨doc, store⟩) :
    TokensAligned ⟨Lines.deleteRange doc range, store.acceptDeleteRange range⟩ := by
  have hlength := Lines.length_deleteRange hrange
  have hlines {lineNumber : ℕ} (hpos : 1 ≤ lineNumber) := Lines.line_deleteRange hrange hpos
  obtain ⟨hstart, hstartColumn, hendColumn, hle, hend, hcolumns, hstartFits, hendFits⟩ := hrange
  refine ⟨?_, fun lineNumber hpos => ?_⟩
  · have hshort := store.length_acceptDeleteRange hstart hle h.lines hend
    simp only at hshort ⊢
    omega
  · simp only
    rw [hlines hpos, store.line_acceptDeleteRange hstart hle hpos]
    split_ifs with hlt heq
    · exact h.follows lineNumber hpos
    · rw [joinedTokens]
      split_ifs with hone
      · have hfollows := h.follows range.startLineNumber hstart
        simp only [← hone] at hfollows hendFits ⊢
        have := hcolumns hone
        exact follows_delete hfollows (by omega) hendFits
      · exact follows_append (h.follows _ hstart) (h.follows _ (hstart.trans hle)) hstartFits
          hendFits (hclean (lt_of_le_of_ne hle hone))
    · exact h.follows _ (by omega)

theorem aligned_acceptInsertText (h : TokensAligned ⟨doc, store⟩) {position : Position}
    (hline : 1 ≤ position.lineNumber) (hend : position.lineNumber ≤ doc.length)
    (hcolumn : position.column - 1 ≤ (Lines.line doc position.lineNumber).length)
    (htext : text ≠ []) :
    TokensAligned ⟨Lines.insertText doc position (text.map (List.map Character.fresh)),
    store.acceptInsertText position (text.length - 1) (text.headD []).length⟩ := by
  obtain ⟨first, rest, rfl⟩ := exists_cons_of_ne_nil htext
  have hlength := Lines.length_insertText hline hend
    (cons_ne_nil (first.map Character.fresh) (rest.map (List.map Character.fresh)))
  refine ⟨?_, fun lineNumber hpos => ?_⟩
  · have hlong := store.length_acceptInsertText position rest.length first.length h.lines hend
    simp only [map_cons, length_map, length_cons, Nat.add_sub_cancel, headD_cons] at hlong hlength ⊢
    omega
  · obtain ⟨hbefore, hat, hbehind⟩ := @Lines.line_insertText _ lineNumber
      (rest.map (List.map Character.fresh)) position doc (first.map Character.fresh) hline hend hpos
    rw [length_map] at hbehind
    simp only [map_cons, length_cons, Nat.add_sub_cancel, headD_cons]
    rw [store.line_acceptInsertText hline _ _ hpos]
    have hfollows := h.follows lineNumber hpos
    split_ifs with hlt heq heol hnone hnew
    · rw [hbefore hlt]
      exact hfollows
    · -- nothing is inserted
      obtain rfl := eq_nil_of_length_eq_zero heol
      obtain rfl := eq_nil_of_length_eq_zero hnone
      rw [hat heq, map_nil, append_nil, map_nil, if_pos rfl, take_append_drop]
      exact hfollows
    · obtain rfl := eq_nil_of_length_eq_zero heol
      rw [hat heq, map_nil, if_pos rfl]
      exact follows_insert hfollows (heq ▸ hcolumn) first
    · have hne : rest.map (List.map Character.fresh) ≠ [] := fun hnil =>
        heol (by rw [map_eq_nil_iff.1 hnil, length_nil])
      rw [hat heq, if_neg hne, append_nil]
      exact follows_insert_ending hfollows (heq ▸ hcolumn) first
    · trivial
    · rw [hbehind (by omega)]
      exact h.follows _ (by omega)

theorem TokensAligned.apply {state : Tokenized} (h : TokensAligned state) {step : TokensStep}
    (hpossible : step.Possible state.doc) (hclean : step.Clean state) :
    TokensAligned (step.apply state) := by
  cases step with
  | setTokens topLevelLanguageId lineIndex tokens => exact aligned_setTokens h hpossible
  | acceptEdit range text =>
    obtain ⟨hrange, htext⟩ := hpossible
    have hdeleted := aligned_acceptDeleteRange h hrange hclean
    have hlength := Lines.length_deleteRange hrange
    have hline := Lines.line_deleteRange hrange hrange.startLine
    rw [if_neg (lt_irrefl _), if_pos rfl] at hline
    refine aligned_acceptInsertText hdeleted hrange.startLine ?_ ?_ htext
    · have := hrange.endLine
      change range.startLineNumber ≤ _
      omega
    · have := hrange.startFits
      change range.startColumn - 1 ≤ (Lines.line _ range.startLineNumber).length
      rw [hline, length_append, List.length_take]
      omega

/-- Tokens that are set and edits that join lines cleanly keep the arrays aligned, from an
empty store on. -/
theorem tokens_aligned (doc : List (List Character)) {state : Tokenized}
    (hrun : Reaches TokensStep.Clean ⟨doc, .empty⟩ state) : TokensAligned state := by
  induction hrun with
  | refl => exact ⟨Nat.zero_le _, fun _ _ => trivial⟩
  | step step _ hpossible hclean ih => exact ih.apply hpossible hclean

/-- Two lines are joined in the middle of the document. -/
theorem tokens_aligned_joined : TokensAligned
    (((TokensStep.acceptEdit ⟨1, 2, 2, 2⟩ [[0x78], [0x79]]).apply
      ((TokensStep.setTokens 1 1 [(2, 3)]).apply
        ((TokensStep.setTokens 1 0 [(1, 1), (2, 2)]).apply
          ⟨[[.fresh 0x61, .fresh 0x62], [.fresh 0x63, .fresh 0x64]], .empty⟩)))) := by
  refine tokens_aligned [[.fresh 0x61, .fresh 0x62], [.fresh 0x63, .fresh 0x64]]
    (.step _ (.step _ (.step _ .refl ?_ ?_) ?_ ?_) ?_ ?_)
  · exact ⟨by decide, by decide, by decide, rfl⟩
  · trivial
  · exact ⟨by decide, by decide, by decide, rfl⟩
  · trivial
  · exact ⟨⟨by decide, by decide, by decide, by decide, by decide, by decide, by decide, by decide⟩,
      by decide⟩
  · intro _
    refine ⟨?_, ?_, ?_⟩
    · intro hmarker
      cases hmarker
    · intro hmarker
      cases hmarker
    · intro _ _ tokens htokens
      obtain rfl := RawLineTokens.array.inj htokens
      decide

/-- A line without tokens gets its first character and is then joined with the next: the array
of the next line becomes the array of both. -/
theorem tokens_misaligned : ¬∀ (doc : List (List Character)) (state : Tokenized),
    Reaches (fun _ _ => True) ⟨doc, .empty⟩ state → TokensAligned state := by
  intro h
  have hrun : Reaches (fun _ _ => True) ⟨[[], [.fresh 0x64]], .empty⟩
      ((TokensStep.acceptEdit ⟨1, 2, 2, 1⟩ [[]]).apply
        ((TokensStep.acceptEdit ⟨1, 1, 1, 1⟩ [[0x78]]).apply
          ((TokensStep.setTokens 1 1 [(1, 1)]).apply
            ((TokensStep.setTokens 1 0 [(0, 1)]).apply ⟨[[], [.fresh 0x64]], .empty⟩)))) := by
    refine .step _ (.step _ (.step _ (.step _ .refl ?_ trivial) ?_ trivial) ?_ trivial) ?_ trivial
    · exact ⟨by decide, by decide, by decide, rfl⟩
    · exact ⟨by decide, by decide, by decide, rfl⟩
    · exact ⟨⟨by decide, by decide, by decide, by decide, by decide, by decide, by decide,
        by decide⟩, by decide⟩
    · exact ⟨⟨by decide, by decide, by decide, by decide, by decide, by decide, by decide,
        by decide⟩, by decide⟩
  have hfollows := (h _ _ hrun).follows 1 le_rfl
  change Covers [(1, 1)] 2 ∧ _ at hfollows
  exact absurd hfollows.1.stop (by decide)

end CodeOss
