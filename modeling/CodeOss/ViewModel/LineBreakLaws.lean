import CodeOss.ViewModel.MonospaceLineBreaks

/-! The segments of a wrapped line fit the column, or are one character. The tab stops of a
segment go on from its visible column in the unwrapped line, as the editor draws them. -/

namespace CodeOss.ViewModel

open List

/-- The code units of a character: a high surrogate takes the next code unit along. -/
def charLength (charCode : CodeUnit) : ℕ := if isHighSurrogate charCode then 2 else 1

/-- `offset` is where a character starts, or the end, and `column` its visible column. -/
inductive Reaches (o : WrappingOptions) (text : JsString) : ℕ → ℚ → Prop
  | start : Reaches o text 0 0
  | char {i : ℕ} {column : ℚ} {charCode : CodeUnit} : Reaches o text i column →
    text[i]? = some charCode → Reaches o text (min (i + charLength charCode) text.length)
      (column + charWidth o charCode column)

/-- One character stands from `i` to `j`. -/
def OneCharacter (text : JsString) (i j : ℕ) : Prop :=
  ∃ charCode, text[i]? = some charCode ∧ j = min (i + charLength charCode) text.length

structure Segment (o : WrappingOptions) (text : JsString) (limit : ℚ) (b b' : Break) : Prop where
  lt : b.offset < b'.offset
  reaches : Reaches o text b'.offset b'.visibleColumn
  fits : b'.visibleColumn - b.visibleColumn ≤ limit ∨ OneCharacter text b.offset b'.offset

/-- The segments between the breaks behind `b`, the first within `limit`. -/
def Segments (o : WrappingOptions) (text : JsString) (wrapped limit : ℚ) (b : Break) :
    List Break → Prop
  | [] => True
  | b' :: breaks => Segment o text limit b b' ∧ Segments o text wrapped wrapped b' breaks

variable {o : WrappingOptions} {text : JsString} {wrapped limit : ℚ} {b b' : Break}
  {breaks : List Break}

section

variable (h : Segments o text wrapped limit b breaks)
include h

theorem Segments.concat
    (hlast : Segment o text (if breaks = [] then limit else wrapped) (breaks.getLast?.getD b) b') :
    Segments o text wrapped limit b (breaks ++ [b']) := by
  induction breaks generalizing limit b with
  | nil => exact ⟨hlast, trivial⟩
  | cons c breaks ih =>
    refine ⟨h.1, ih h.2 ?_⟩
    rw [if_neg (cons_ne_nil c breaks), getLast?_cons, Option.getD_some] at hlast
    rwa [ite_self]

theorem Segments.reaches : ∀ c ∈ breaks, Reaches o text c.offset c.visibleColumn := by
  induction breaks generalizing limit b with
  | nil => exact fun c hc => absurd hc not_mem_nil
  | cons d breaks ih =>
    intro c hc
    rcases mem_cons.mp hc with rfl | hc
    · exact h.1.reaches
    · exact ih h.2 c hc

theorem Segments.increasing : (b :: breaks).Pairwise fun c d => c.offset < d.offset := by
  induction breaks generalizing limit b with
  | nil => exact pairwise_singleton _ b
  | cons c breaks ih =>
    have hrest := ih h.2
    refine pairwise_cons.mpr ⟨fun d hd => ?_, hrest⟩
    rcases mem_cons.mp hd with rfl | hd
    · exact h.1.lt
    · exact h.1.lt.trans ((pairwise_cons.mp hrest).1 d hd)

end

def Scan.lastBreak (s : Scan) : Break := s.breaks.getLast?.getD ⟨0, 0⟩

def Scan.lineLimit (s : Scan) (o : WrappingOptions) (wrapped : ℚ) : ℚ :=
  if s.breaks = [] then o.firstLineBreakColumn else wrapped

/-- What holds in front of the character at `i`. -/
structure ScanInv (o : WrappingOptions) (text : JsString) (wrapped : ℚ) (i : ℕ) (s : Scan) :
    Prop where
  reaches : Reaches o text i s.visibleColumn
  segments : Segments o text wrapped o.firstLineBreakColumn ⟨0, 0⟩ s.breaks
  lt : s.lastBreak.offset < i
  breaking : s.breakingColumn = s.lastBreak.visibleColumn + s.lineLimit o wrapped
  fits : s.visibleColumn ≤ s.breakingColumn ∨ OneCharacter text s.lastBreak.offset i
  candidate : s.breakOffset.offset = 0 ∨
    s.breakOffset.offset ≤ i ∧ Segment o text (s.lineLimit o wrapped) s.lastBreak s.breakOffset

variable {i j : ℕ} {s : Scan} {column : ℚ} {charCode : CodeUnit}

section

variable (h : ScanInv o text wrapped i s)
include h

theorem ScanInv.here :
    Segment o text (s.lineLimit o wrapped) s.lastBreak ⟨i, s.visibleColumn⟩ where
  lt := h.lt
  reaches := h.reaches
  fits := by
    refine h.fits.imp_left fun hle => ?_
    rw [h.breaking] at hle
    linarith

theorem ScanInv.broken {final : Break} {column : ℚ} {cls : CharacterClass}
    (hi : i < j) (hreaches : Reaches o text j column)
    (hfinal : final.offset ≤ i ∧ Segment o text (s.lineLimit o wrapped) s.lastBreak final)
    (hfits : column - final.visibleColumn ≤ wrapped ∨ OneCharacter text final.offset j) :
    ScanInv o text wrapped j
      ⟨cls, column, ⟨0, final.visibleColumn⟩, final.visibleColumn + wrapped,
        s.breaks ++ [final]⟩ where
  reaches := hreaches
  segments := h.segments.concat hfinal.2
  lt := by simpa [Scan.lastBreak] using hfinal.1.trans_lt hi
  breaking := by simp [Scan.lastBreak, Scan.lineLimit]
  fits := by
    refine hfits.imp (fun hle => ?_) (fun hone => ?_)
    · simp only
      linarith
    · simpa [Scan.lastBreak] using hone
  candidate := Or.inl rfl

theorem ScanInv.next (charCode : CodeUnit) {b : Break}
    (hb : nextBreakOffset o text i charCode s = b) :
    b.offset = 0 ∨ b.offset ≤ i ∧ Segment o text (s.lineLimit o wrapped) s.lastBreak b := by
  rw [← hb, nextBreakOffset]
  split_ifs
  · exact Or.inr ⟨le_rfl, h.here⟩
  · exact h.candidate

theorem ScanInv.step (hchar : text[i]? = some charCode) : ScanInv o text wrapped
    (min (i + charLength charCode) text.length) (scanChar o text wrapped i charCode s) := by
  have hi : i < text.length := (List.getElem?_eq_some_iff.mp hchar).1
  have hlt : i < min (i + charLength charCode) text.length := by
    rw [charLength]
    split_ifs <;> omega
  have hreaches := Reaches.char h.reaches hchar
  obtain ⟨b, hb⟩ : ∃ b, nextBreakOffset o text i charCode s = b := ⟨_, rfl⟩
  have hnext := h.next charCode hb
  simp only [scanChar, hb, add_sub_cancel_right]
  split_ifs with hover hforced
  · exact h.broken hlt hreaches ⟨le_rfl, h.here⟩ (Or.inr ⟨charCode, hchar, rfl⟩)
  · rw [not_or] at hforced
    exact h.broken hlt hreaches (hnext.resolve_left hforced.1) (Or.inl (not_lt.mp hforced.2))
  · exact
      { reaches := hreaches
        segments := h.segments
        lt := h.lt.trans hlt
        breaking := h.breaking
        fits := Or.inl (not_lt.mp fun hgt => hover (Or.inl hgt))
        candidate := hnext.imp_right fun hc => ⟨hc.1.trans hlt.le, hc.2⟩ }

end

theorem scanFrom_inv {rest : JsString} (hrest : rest = text.drop j)
    (h : ScanInv o text wrapped (min j text.length) s) :
    ScanInv o text wrapped text.length (scanFrom o text wrapped j rest s) := by
  induction hn : rest.length using Nat.strongRecOn generalizing rest j s with
  | _ n ih =>
    cases rest with
    | nil =>
      have hlength : text.length ≤ j := drop_eq_nil_iff.mp hrest.symm
      rw [min_eq_right hlength] at h
      rwa [scanFrom]
    | cons charCode rest =>
      have hj : j < text.length := by
        by_contra hge
        rw [drop_eq_nil_of_le (not_lt.mp hge)] at hrest
        cases hrest
      have hchar : text[j]? = some charCode := by
        rw [← head?_drop, ← hrest]
        rfl
      have htail : rest = text.drop (j + 1) := by
        rw [← tail_drop, ← hrest]
        rfl
      rw [min_eq_left hj.le] at h
      have hstep := h.step hchar
      rw [scanFrom]
      rw [charLength] at hstep
      rw [length_cons] at hn
      split_ifs at hstep ⊢ with hhigh
      · refine ih _ ?_ ?_ hstep rfl
        · rw [length_tail]
          omega
        · rw [htail, tail_drop]
      · exact ih _ (by omega) htail hstep rfl

theorem Reaches.ne_low {column : ℚ} (h : Reaches o text i column)
    (hhigh : ∃ c ∈ text[j]?, isHighSurrogate c = true) (hj : j + 1 < text.length)
    (halone : ∀ k, j = k + 1 → ∀ c ∈ text[k]?, isHighSurrogate c = false) : i ≠ j + 1 := by
  obtain ⟨c, hc, hhigh⟩ := hhigh
  cases h with
  | start => exact (Nat.succ_ne_zero j).symm
  | @char k column' d hbefore hd =>
    rw [charLength]
    intro heq
    split_ifs at heq with hpair
    · have hlow := halone k (by omega) d hd
      rw [hpair] at hlow
      cases hlow
    · have hk : k = j := by omega
      rw [hk, Option.mem_def.mp hc] at hd
      exact hpair (Option.some.inj hd ▸ hhigh)

theorem computeCharWidth_high {c : CodeUnit} (hhigh : isHighSurrogate c = true) (column : ℚ) :
    computeCharWidth o c column = 1 := by
  simp only [isHighSurrogate, decide_eq_true_eq, UInt16.le_iff_toNat_le] at hhigh
  obtain ⟨hlow, hhigh⟩ := hhigh
  have hlow : 0xD800 ≤ c.toNat := hlow
  have hhigh : c.toNat ≤ 0xDBFF := hhigh
  have htab : c ≠ CharCode.Tab := by
    rintro rfl
    exact absurd hlow (by decide)
  have hwide : isFullWidthCharacter c = false := by
    simp only [isFullWidthCharacter, UInt16.le_iff_toNat_le, ge_iff_le, UInt16.reduceToNat,
      Bool.or_eq_false_iff, Bool.and_eq_false_iff, decide_eq_false_iff_not]
    omega
  have hcontrol : ¬ c < 32 := by
    intro hlt
    have hlt : c.toNat < 32 := UInt16.lt_iff_toNat_lt.mp hlt
    omega
  rw [computeCharWidth, if_neg htab, hwide, if_neg Bool.false_ne_true, if_neg hcontrol]

theorem scanStart_inv {first second : CodeUnit} {rest : JsString}
    (htext : text = first :: second :: rest) (wrapped : ℚ) :
    ScanInv o text wrapped (min (charLength first) text.length) (scanStart o first second) := by
  have hchar : text[0]? = some first := by rw [htext]; rfl
  have hreaches := Reaches.char (o := o) .start hchar
  rw [zero_add, zero_add] at hreaches
  have hwidth : (scanStart o first second).visibleColumn = charWidth o first 0 := by
    rw [scanStart, charWidth]
    split_ifs with hhigh
    · rw [computeCharWidth_high hhigh]
      norm_num
    · exact add_zero _
  exact
    { reaches := hwidth ▸ hreaches
      segments := trivial
      lt := by
        have hlength : 1 < text.length := by rw [htext]; simp
        simp only [scanStart, Scan.lastBreak, charLength, List.getLast?_nil, Option.getD_none]
        split_ifs <;> omega
      breaking := by simp [scanStart, Scan.lastBreak, Scan.lineLimit]
      fits := Or.inr ⟨first, hchar, by simp [scanStart, Scan.lastBreak]⟩
      candidate := Or.inl rfl }

/-- What `createLineBreaks` answers for the text with its injections. -/
structure Wraps (o : WrappingOptions) (text : JsString) (l : LineBreaks) : Prop where
  ends : l.breakOffsets.getLast? = some (text.length : ℤ)
  increasing : l.breakOffsets.Pairwise (· < ·)
  positive : 0 < text.length → ∀ b ∈ l.breakOffsets, 0 < b
  pairs : ∀ j, (∃ c ∈ text[j]?, isHighSurrogate c = true) → j + 1 < text.length →
    (∀ k, j = k + 1 → ∀ c ∈ text[k]?, isHighSurrogate c = false) →
    ((j + 1 : ℕ) : ℤ) ∉ l.breakOffsets
  short : text.length ≤ 1 → l.breakOffsetsVisibleColumn = []
  segments : 1 < text.length → ∃ breaks : List Break,
    l.breakOffsets = breaks.map (fun b => (b.offset : ℤ)) ∧
      l.breakOffsetsVisibleColumn = breaks.map (·.visibleColumn) ∧
      Segments o text (o.firstLineBreakColumn - l.wrappedTextIndentLength)
        o.firstLineBreakColumn ⟨0, 0⟩ breaks

theorem wraps_short (o : WrappingOptions) {l : LineBreaks} (hlength : text.length ≤ 1)
    (hoffsets : l.breakOffsets = [(text.length : ℤ)])
    (hcolumns : l.breakOffsetsVisibleColumn = []) :
    Wraps o text l where
  ends := by rw [hoffsets]; rfl
  increasing := by rw [hoffsets]; exact pairwise_singleton _ _
  positive := by
    intro hpos b hb
    rw [hoffsets, mem_singleton] at hb
    omega
  pairs := fun j _ hj => absurd hj (by omega)
  short := fun _ => hcolumns
  segments := fun hlong => absurd hlong (by omega)

theorem wraps_scanned {l : LineBreaks} (hlength : 1 < text.length)
    (hlast : breaks.getLast? = some ⟨text.length, column⟩)
    (hsegments : Segments o text (o.firstLineBreakColumn - l.wrappedTextIndentLength)
      o.firstLineBreakColumn ⟨0, 0⟩ breaks)
    (hoffsets : l.breakOffsets = breaks.map fun b => (b.offset : ℤ))
    (hcolumns : l.breakOffsetsVisibleColumn = breaks.map (·.visibleColumn)) :
    Wraps o text l where
  ends := by rw [hoffsets, getLast?_map, hlast]; rfl
  increasing := by
    rw [hoffsets, pairwise_map]
    refine (pairwise_cons.mp hsegments.increasing).2.imp fun hlt => ?_
    exact_mod_cast hlt
  positive := by
    intro _ b hb
    rw [hoffsets] at hb
    obtain ⟨c, hc, rfl⟩ := mem_map.mp hb
    have hlt := (pairwise_cons.mp hsegments.increasing).1 c hc
    exact_mod_cast hlt
  pairs := by
    intro j hhigh hj halone hmem
    rw [hoffsets] at hmem
    obtain ⟨c, hc, heq⟩ := mem_map.mp hmem
    exact (hsegments.reaches c hc).ne_low hhigh hj halone (by exact_mod_cast heq)
  short := fun hshort => absurd hshort (by omega)
  segments := fun _ => ⟨_, hoffsets, hcolumns, hsegments⟩

theorem ScanInv.closed (h : ScanInv o text wrapped text.length s) : Segments
    o text wrapped o.firstLineBreakColumn ⟨0, 0⟩ (s.breaks ++ [⟨text.length, s.visibleColumn⟩]) :=
  h.segments.concat h.here

theorem scanned_inv (o : WrappingOptions) (first second : CodeUnit) (rest : JsString)
    (wrapped : ℚ) :
    ScanInv o (first :: second :: rest) wrapped (first :: second :: rest).length
      (if isHighSurrogate first then
        scanFrom o (first :: second :: rest) wrapped 2 rest (scanStart o first second)
      else
        scanFrom o (first :: second :: rest) wrapped 1 (second :: rest)
          (scanStart o first second)) := by
  have hstart := @scanStart_inv o _ first second rest rfl wrapped
  rw [charLength] at hstart
  split_ifs at hstart ⊢
  · exact scanFrom_inv rfl hstart
  · exact scanFrom_inv rfl hstart

def narrow : WrappingOptions :=
  ⟨fun _ => .none, 4, 1, 2, .none, false, false⟩

end CodeOss.ViewModel
