import CodeOss.Json.Visit

/-! The tokens of a text follow each other without gap and end with the end of
file, at the length of the text. -/

namespace CodeOss.Json

open CharacterCodes List

theorem scanHexDigits_le (count hexValue : Nat) (text : JsString) :
    (scanHexDigits count hexValue text).1 ≤ text.length := by
  induction count generalizing hexValue text with
  | zero => simp [scanHexDigits]
  | succ count ih =>
    cases text with
    | nil => simp [scanHexDigits]
    | cons ch rest =>
      cases hdigit : hexDigit ch with
      | none => simp [scanHexDigits, hdigit]
      | some digit =>
        have h := ih (hexValue * 16 + digit) rest
        simp only [scanHexDigits, hdigit, length_cons]
        omega

@[simp] theorem Text.after_length (t : Text) (read : JsString) (n : Nat) :
    (t.after read n).length = n + t.length := rfl

@[simp] theorem Text.after_error (t : Text) (read : JsString) (n : Nat) :
    (t.after read n).error = t.error := rfl

@[simp] theorem Text.after_value (t : Text) (read : JsString) (n : Nat) :
    (t.after read n).value = read ++ t.value := rfl

theorem scanString_le (fuel : Nat) (error : ScanError) (text : JsString) :
    (scanString fuel error text).length ≤ text.length := by
  have hdrop (rest : JsString) :
      (rest.drop (scanHexDigits 4 0 rest).1).length + (scanHexDigits 4 0 rest).1 = rest.length := by
    have hle := scanHexDigits_le 4 0 rest
    rw [List.length_drop]
    omega
  fun_induction scanString fuel error text <;>
    simp only [Text.after_length, length_nil, length_cons] <;> try omega
  case case6 fuel error rest ch3 hexValue _ _ _ ih =>
    have hrest : (rest.drop ch3.1).length + ch3.1 = rest.length := hdrop rest
    omega
  case case7 fuel error rest ch3 _ _ _ ih =>
    have hrest : (rest.drop ch3.1).length + ch3.1 = rest.length := hdrop rest
    omega

theorem exponentSign_le (text : JsString) : exponentSign text ≤ text.length := by
  cases text with
  | nil => rfl
  | cons ch rest =>
    simp only [exponentSign, length_cons]
    split <;> omega

theorem length_takeWhile_le {α : Type} (p : α → Bool) (l : List α) :
    (l.takeWhile p).length ≤ l.length :=
  (takeWhile_sublist p).length_le

variable {number : JsString}

theorem scanExponent_le {n : Nat} (h : n ≤ number.length) :
    (scanExponent number n).length ≤ number.length := by
  rw [scanExponent]
  split
  · next ch rest hrest =>
      have hlen := congrArg List.length hrest
      rw [List.length_drop, length_cons] at hlen
      have hsign := exponentSign_le rest
      have hdigits := length_takeWhile_le isDigit (rest.drop (exponentSign rest))
      rw [List.length_drop] at hdigits
      dsimp only
      split
      · split <;> dsimp only <;> omega
      · exact h
  · exact h

theorem integerLength_le (number : JsString) : integerLength number ≤ number.length := by
  cases number with
  | nil => rfl
  | cons ch rest =>
    have hdigits := length_takeWhile_le isDigit rest
    simp only [integerLength, length_cons]
    split <;> omega

theorem integerLength_pos (h : number ≠ []) : 0 < integerLength number := by
  cases number with
  | nil => exact absurd rfl h
  | cons ch rest =>
    simp only [integerLength]
    split <;> omega

theorem le_scanExponent (number : JsString) (n : Nat) : n ≤ (scanExponent number n).length := by
  rw [scanExponent]
  split
  · dsimp only
    split
    · split <;> dsimp only <;> omega
    · exact le_rfl
  · exact le_rfl

theorem scanNumber_bounds (h : number ≠ []) :
    0 < (scanNumber number).length ∧ (scanNumber number).length ≤ number.length := by
  have hpos := integerLength_pos h
  have hle := integerLength_le number
  rw [scanNumber]
  split
  · next ch rest hrest =>
      have hlen := congrArg List.length hrest
      rw [List.length_drop, length_cons] at hlen
      have hdigits := length_takeWhile_le isDigit rest
      split
      · dsimp only
        split
        · dsimp only
          omega
        · have hge := le_scanExponent number
            (integerLength number + 1 + (rest.takeWhile isDigit).length)
          exact ⟨by omega, scanExponent_le (by omega)⟩
      · have hge := le_scanExponent number (integerLength number)
        exact ⟨by omega, scanExponent_le hle⟩
  · have hge := le_scanExponent number (integerLength number)
    exact ⟨by omega, scanExponent_le hle⟩

theorem scanBlockComment_pos (text : JsString) : 0 < (scanBlockComment text).1 := by
  fun_cases scanBlockComment text <;> simp

theorem scanBlockComment_le {text : JsString} (h : text ≠ []) :
    (scanBlockComment text).1 ≤ text.length := by
  fun_induction scanBlockComment text with
  | case1 => exact absurd rfl h
  | case2 => simp
  | case3 => simp
  | case4 ch next rest _ scanned ih =>
    have hrest : scanned.1 ≤ (next :: rest).length := ih (cons_ne_nil _ _)
    simp only [length_cons] at hrest ⊢
    omega

/-- How far one token goes: not past the text, but for an open comment. -/
structure Scan.Fits (scan : Scan) (text : JsString) : Prop where
  kind : scan.kind ≠ .EOF
  pos : 0 < scan.length
  le : scan.kind.isSkipped = true ∨ scan.length ≤ text.length
  overrun : scan.length ≤ text.length + 1

theorem takeWhile_pos {α : Type} {p : α → Bool} {a : α} {l : List α} (h : p a = true) :
    0 < ((a :: l).takeWhile p).length := by
  rw [takeWhile_cons_of_pos h]
  exact Nat.succ_pos _

theorem punctuation_ne_eof {ch : CodeUnit} {kind : SyntaxKind} (h : punctuation ch = some kind) :
    kind ≠ .EOF := by
  rintro rfl
  simp only [punctuation] at h
  split_ifs at h <;> cases h

theorem keyword_ne_eof (word : JsString) : keyword word ≠ .EOF := by
  simp only [keyword]
  split_ifs <;> exact SyntaxKind.noConfusion

theorem scanComment_fits (code : CodeUnit) (rest : JsString) :
    (scanComment rest).Fits (code :: rest) := by
  cases rest with
  | nil => exact ⟨SyntaxKind.noConfusion, Nat.one_pos, .inl rfl, Nat.le_add_left 1 _⟩
  | cons ch rest =>
    have hline := length_takeWhile_le (fun c => !isLineBreak c) rest
    have hpos := scanBlockComment_pos rest
    have hover : (scanBlockComment rest).1 ≤ rest.length + 1 := by
      cases rest with
      | nil => exact le_rfl
      | cons next rest => exact (scanBlockComment_le (cons_ne_nil _ _)).trans (Nat.le_succ _)
    simp only [scanComment]
    split_ifs <;> refine ⟨SyntaxKind.noConfusion, ?_, .inl rfl, ?_⟩ <;>
      simp only [length_cons] <;> omega

theorem scanWord_fits (code : CodeUnit) (rest : JsString) :
    (scanWord (code :: rest)).Fits (code :: rest) := by
  have hle := length_takeWhile_le isUnknownContentCharacter (code :: rest)
  simp only [scanWord]
  split_ifs with hword
  · exact ⟨keyword_ne_eof _, length_pos_iff.2 hword, .inr hle, hle.trans (Nat.le_succ _)⟩
  · exact ⟨SyntaxKind.noConfusion, Nat.one_pos, .inl rfl, Nat.le_add_left 1 _⟩

theorem scanToken_fits (code : CodeUnit) (rest : JsString) :
    (scanToken (code :: rest)).Fits (code :: rest) := by
  have hlen : (code :: rest).length = rest.length + 1 := rfl
  have hstring := scanString_le (rest.length + 1) .None rest
  simp only [scanToken]
  split
  · next hblank =>
      have hle := length_takeWhile_le isWhitespace (code :: rest)
      exact ⟨SyntaxKind.noConfusion, takeWhile_pos hblank, .inl rfl, hle.trans (Nat.le_succ _)⟩
  · split
    · split
      · refine ⟨SyntaxKind.noConfusion, Nat.two_pos, .inl rfl, ?_⟩
        simp only
        omega
      · exact ⟨SyntaxKind.noConfusion, Nat.one_pos, .inl rfl, Nat.le_add_left 1 _⟩
    · split
      · next kind hkind =>
          refine ⟨punctuation_ne_eof hkind, Nat.one_pos, .inr ?_, Nat.le_add_left 1 _⟩
          exact Nat.le_add_left 1 _
      · split
        · refine ⟨SyntaxKind.noConfusion, ?_, .inr ?_, ?_⟩ <;> simp only <;> omega
        · split
          · exact scanComment_fits code rest
          · split
            · split
              · next hdigit =>
                  have hne : rest ≠ [] := by
                    rintro rfl
                    cases hdigit
                  obtain ⟨_, hle⟩ := scanNumber_bounds hne
                  refine ⟨SyntaxKind.noConfusion, ?_, .inr ?_, ?_⟩ <;> simp only <;> omega
              · exact ⟨SyntaxKind.noConfusion, Nat.one_pos, .inl rfl, Nat.le_add_left 1 _⟩
            · split
              · obtain ⟨hpos, hle⟩ := scanNumber_bounds (cons_ne_nil code rest)
                exact ⟨SyntaxKind.noConfusion, hpos, .inr hle, hle.trans (Nat.le_succ _)⟩
              · exact scanWord_fits code rest

/-- Where the scanner stood when it read the token. -/
def Token.start (t : Token) : Nat := if t.kind = .EOF then t.offset + t.length else t.offset

theorem Token.start_of_ne {t : Token} (h : t.kind ≠ .EOF) : t.start = t.offset := if_neg h

theorem Token.start_of_eof {t : Token} (h : t.kind = .EOF) : t.start = t.offset + t.length :=
  if_pos h

theorem Token.start_le (t : Token) : t.start ≤ t.offset + t.length := by
  rw [Token.start]
  split <;> omega

/-- The tokens behind `t` follow one another up to the end of a text of length `len`. -/
def Chained (len : Nat) : Token → List Token → Prop
  | t, [] => t.kind = .EOF
  | t, next :: rest =>
    t.kind ≠ .EOF ∧ (t.kind.isSkipped = true ∨ 0 < t.length ∧ t.offset + t.length ≤ len) ∧
      t.offset + t.length ≤ next.start ∧ Chained len next rest

theorem scanFrom_chained {len fuel pos : Nat} {text : JsString} (hfuel : text.length ≤ fuel)
    (hpos : pos + text.length = len ∨ text = []) (hle : len ≤ pos + text.length) :
    ∃ t rest, scanFrom len fuel pos text = t :: rest ∧ t.start = pos ∧ Chained len t rest := by
  induction fuel generalizing pos text with
  | zero =>
    obtain rfl := length_eq_zero_iff.1 (Nat.le_zero.1 hfuel)
    rw [length_nil] at hle
    refine ⟨_, _, rfl, ?_, rfl⟩
    rw [Token.start_of_eof rfl]
    exact Nat.add_sub_cancel' hle
  | succ fuel ih =>
    cases text with
    | nil =>
      rw [length_nil] at hle
      refine ⟨_, _, rfl, ?_, rfl⟩
      rw [Token.start_of_eof rfl]
      exact Nat.add_sub_cancel' hle
    | cons code rest =>
      obtain ⟨hkind, hscan, hfits, hover⟩ := scanToken_fits code rest
      have hlen : (code :: rest).length = rest.length + 1 := rfl
      have hpos : pos + (code :: rest).length = len := hpos.resolve_right (cons_ne_nil _ _)
      have hdrop : ((code :: rest).drop (scanToken (code :: rest)).length).length =
          (code :: rest).length - (scanToken (code :: rest)).length := List.length_drop
      obtain ⟨next, tail, hnext, hstart, hchain⟩ :=
        @ih (pos + (scanToken (code :: rest)).length)
          ((code :: rest).drop (scanToken (code :: rest)).length)
          (by omega)
          (by
            by_cases h : (scanToken (code :: rest)).length ≤ (code :: rest).length
            · left
              omega
            · right
              exact drop_eq_nil_of_le (by omega))
          (by omega)
      refine ⟨_, _, rfl, Token.start_of_ne hkind, ?_⟩
      rw [hnext]
      refine ⟨hkind, hfits.imp id fun h => ⟨hscan, ?_⟩, hstart.ge, hchain⟩
      simp only
      omega

theorem scanAll_chained (text : JsString) :
    ∃ t rest, scanAll text = t :: rest ∧ t.start = 0 ∧ Chained text.length t rest :=
  scanFrom_chained le_rfl (.inl (Nat.zero_add _)) (Nat.zero_add _).ge

end CodeOss.Json
