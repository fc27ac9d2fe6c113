import CodeOss.Base.Utf16

/-! The standard functions `encodeURIComponent` and `decodeURIComponent`: code points become the
bytes of their UTF-8 form, each written with a percent sign and two hexadecimal digits. -/

namespace CodeOss

open List

namespace UriCoding

def percent : CodeUnit := 37

def utf8 (v : ℕ) : List ℕ :=
  if v < 0x80 then [v]
  else if v < 0x800 then [0xC0 + v / 64, 0x80 + v % 64]
  else if v < 0x10000 then [0xE0 + v / 4096, 0x80 + v / 64 % 64, 0x80 + v % 64]
  else [0xF0 + v / 262144, 0x80 + v / 4096 % 64, 0x80 + v / 64 % 64, 0x80 + v % 64]

def utf16 (v : ℕ) : JsString :=
  if v < 0x10000 then [UInt16.ofNat v]
  else [UInt16.ofNat (0xD800 + (v - 0x10000) / 1024), UInt16.ofNat (0xDC00 + (v - 0x10000) % 1024)]

def codePoint (high low : CodeUnit) : ℕ :=
  0x10000 + (high.toNat - 0xD800) * 1024 + (low.toNat - 0xDC00)

def isScalar (v : ℕ) : Bool := v < 0xD800 || (0xE000 ≤ v && v < 0x110000)

def hexDigit (n : ℕ) : CodeUnit := UInt16.ofNat (if n < 10 then 48 + n else 55 + n)

def hexValue (c : CodeUnit) : Option ℕ :=
  let n := c.toNat
  if 48 ≤ n ∧ n ≤ 57 then some (n - 48)
  else if 65 ≤ n ∧ n ≤ 70 then some (n - 55)
  else if 97 ≤ n ∧ n ≤ 102 then some (n - 87)
  else none

def escapeByte (b : ℕ) : JsString := [percent, hexDigit (b / 16), hexDigit (b % 16)]

def escape (v : ℕ) : JsString := (utf8 v).flatMap escapeByte

/-- All but the unescaped units are escaped, code point by code point. It throws on a surrogate
without its partner. -/
def encode (unescaped : CodeUnit → Bool) : JsString → Option JsString
  | [] => some []
  | c :: rest =>
    if unescaped c then (encode unescaped rest).map (c :: ·)
    else if isLowSurrogate c then none
    else if isHighSurrogate c then
      match rest with
      | [] => none
      | d :: rest =>
        if isLowSurrogate d then
          (encode unescaped rest).map (escape (codePoint c d) ++ ·)
        else none
    else (encode unescaped rest).map (escape c.toNat ++ ·)

def isAsciiAlnum (c : CodeUnit) : Bool :=
  (97 ≤ c.toNat && c.toNat ≤ 122) || (65 ≤ c.toNat && c.toNat ≤ 90) ||
    (48 ≤ c.toNat && c.toNat ≤ 57)

/-- `uriUnreserved`: letters, digits and `- _ . ! ~ * ' ( )`. -/
def uriUnescaped (c : CodeUnit) : Bool :=
  isAsciiAlnum c || c ∈ ([45, 95, 46, 33, 126, 42, 39, 40, 41] : List CodeUnit)

def encodeURIComponent (s : JsString) : Option JsString := encode uriUnescaped s

inductive Token where
  | unit (c : CodeUnit)
  | byte (b : ℕ)

def tokens : JsString → Option (List Token)
  | [] => some []
  | c :: rest =>
    if c = percent then
      match rest with
      | h :: l :: rest =>
        match hexValue h, hexValue l with
        | some x, some y => (tokens rest).map (.byte (16 * x + y) :: ·)
        | _, _ => none
      | _ => none
    else (tokens rest).map (.unit c :: ·)

def isTail (b : ℕ) : Bool := 0x80 ≤ b && b < 0xC0

/-- Bytes have to be the UTF-8 forms of code points. -/
def decodeTokens : List Token → Option JsString
  | [] => some []
  | .unit c :: rest => (decodeTokens rest).map (c :: ·)
  | .byte a :: rest =>
    if a < 0x80 then (decodeTokens rest).map (utf16 a ++ ·)
    else
      match rest with
      | .byte b :: rest =>
        if ¬ isTail b then none
        else if 0xC0 ≤ a ∧ a < 0xE0 then
          let v := (a - 0xC0) * 64 + (b - 0x80)
          if 0x80 ≤ v then (decodeTokens rest).map (utf16 v ++ ·) else none
        else
          match rest with
          | .byte c :: rest =>
            if ¬ isTail c then none
            else if 0xE0 ≤ a ∧ a < 0xF0 then
              let v := (a - 0xE0) * 4096 + (b - 0x80) * 64 + (c - 0x80)
              if 0x800 ≤ v ∧ isScalar v then (decodeTokens rest).map (utf16 v ++ ·) else none
            else
              match rest with
              | .byte d :: rest =>
                let v := (a - 0xF0) * 262144 + (b - 0x80) * 4096 + (c - 0x80) * 64 +
                  (d - 0x80)
                if isTail d ∧ 0xF0 ≤ a ∧ a < 0xF8 ∧ 0x10000 ≤ v ∧ isScalar v then
                  (decodeTokens rest).map (utf16 v ++ ·)
                else none
              | _ => none
          | _ => none
      | _ => none

/-- `none` where it throws. -/
def decodeURIComponent (s : JsString) : Option JsString := (tokens s).bind decodeTokens

section RoundTrip

variable {s t : JsString} {c d : CodeUnit} {b v n : ℕ} {ts : List Token} {cps : List ℕ}

theorem isScalar_iff : isScalar v = true ↔ v < 0xD800 ∨ (0xE000 ≤ v ∧ v < 0x110000) := by
  simp [isScalar]

theorem isTail_iff : isTail b = true ↔ 0x80 ≤ b ∧ b < 0xC0 := by simp [isTail]

theorem hexValue_hexDigit (h : n < 16) : hexValue (hexDigit n) = some n := by
  interval_cases n <;> rfl

theorem isAsciiAlnum_hexDigit (h : n < 16) : isAsciiAlnum (hexDigit n) = true := by
  interval_cases n <;> rfl

theorem tokens_escapeByte (h : b < 256) :
    tokens (escapeByte b ++ s) = (tokens s).map (.byte b :: ·) := by
  have hhigh := hexValue_hexDigit (n := b / 16) (by omega)
  have hlow := hexValue_hexDigit (n := b % 16) (by omega)
  have hb : 16 * (b / 16) + b % 16 = b := by omega
  rw [escapeByte, cons_append, cons_append, cons_append, tokens, if_pos rfl]
  simp only [hhigh, hlow, hb, nil_append]

theorem tokens_escapeBytes {bs : List ℕ} (h : ∀ b ∈ bs, b < 256) :
    tokens (bs.flatMap escapeByte ++ s) = (tokens s).map (bs.map .byte ++ ·) := by
  induction bs with
  | nil => simp
  | cons b bs ih =>
    obtain ⟨hb, hbs⟩ := forall_mem_cons.mp h
    rw [flatMap_cons, append_assoc, tokens_escapeByte hb, ih hbs, Option.map_map]
    rfl

theorem utf8_lt (hv : isScalar v = true) : ∀ b ∈ utf8 v, b < 256 := by
  rw [isScalar_iff] at hv
  intro b hb
  unfold utf8 at hb
  split_ifs at hb <;> simp only [mem_cons, not_mem_nil, or_false] at hb <;> omega

attribute [local simp] decodeTokens in
theorem decodeTokens_utf8 (hv : isScalar v = true) :
    decodeTokens ((utf8 v).map .byte ++ ts) = (decodeTokens ts).map (utf16 v ++ ·) := by
  have hrange := isScalar_iff.mp hv
  unfold utf8
  split_ifs with h1 h2 h3
  · simp only [map_cons, map_nil, cons_append, nil_append]
    rw [decodeTokens.eq_def]
    exact if_pos h1
  · simp only [map_cons, map_nil, cons_append, nil_append]
    have hval : (0xC0 + v / 64 - 0xC0) * 64 + (0x80 + v % 64 - 0x80) = v := by omega
    rw [decodeTokens.eq_def]
    simp only [hval]
    rw [if_neg (by omega), if_neg (by rw [isTail_iff]; omega), if_pos (by omega), if_pos (by omega)]
  · simp only [map_cons, map_nil, cons_append, nil_append]
    have hval : (0xE0 + v / 4096 - 0xE0) * 4096 + (0x80 + v / 64 % 64 - 0x80) * 64 +
        (0x80 + v % 64 - 0x80) = v := by omega
    rw [decodeTokens.eq_def]
    simp only [hval]
    rw [if_neg (by omega), if_neg (by rw [isTail_iff]; omega), if_neg (by omega),
      if_neg (by rw [isTail_iff]; omega), if_pos (by omega), if_pos ⟨by omega, hv⟩]
  · simp only [map_cons, map_nil, cons_append, nil_append]
    have hval : (0xF0 + v / 262144 - 0xF0) * 262144 + (0x80 + v / 4096 % 64 - 0x80) * 4096 +
        (0x80 + v / 64 % 64 - 0x80) * 64 + (0x80 + v % 64 - 0x80) = v := by omega
    rw [decodeTokens.eq_def]
    simp only [hval]
    rw [if_neg (by omega), if_neg (by rw [isTail_iff]; omega), if_neg (by omega),
      if_neg (by rw [isTail_iff]; omega), if_neg (by omega),
      if_pos ⟨by rw [isTail_iff]; omega, by omega, by omega, by omega, hv⟩]

theorem decodeURIComponent_escapes (h : ∀ v ∈ cps, isScalar v = true) :
    decodeURIComponent (cps.flatMap escape) = some (cps.flatMap utf16) := by
  have htokens : ∀ ts, decodeTokens ((cps.flatMap utf8).map .byte ++ ts) =
      (decodeTokens ts).map (cps.flatMap utf16 ++ ·) := by
    induction cps with
    | nil => simp
    | cons v cps ih =>
      obtain ⟨hv, hcps⟩ := forall_mem_cons.mp h
      intro ts
      rw [flatMap_cons, map_append, append_assoc, decodeTokens_utf8 hv,
        ih hcps, Option.map_map, flatMap_cons]
      simp [Function.comp_def]
  have hbytes : ∀ b ∈ cps.flatMap utf8, b < 256 := by
    intro b hb
    obtain ⟨v, hv, hb⟩ := mem_flatMap.mp hb
    exact utf8_lt (h v hv) b hb
  have hescapes : cps.flatMap escape = (cps.flatMap utf8).flatMap escapeByte := by
    rw [flatMap_assoc]
    rfl
  have hall := tokens_escapeBytes (s := []) hbytes
  have hdecode := htokens []
  rw [append_nil] at hall hdecode
  rw [decodeURIComponent, hescapes, hall]
  simpa [tokens, decodeTokens] using hdecode

theorem utf16_unit (hhigh : isHighSurrogate c = false) (hlow : isLowSurrogate c = false) :
    utf16 c.toNat = [c] ∧ isScalar c.toNat = true := by
  simp only [isHighSurrogate, isLowSurrogate, decide_eq_false_iff_not, not_and, not_le,
    UInt16.le_iff_toNat_le, UInt16.reduceToNat] at hhigh hlow
  have hlt := c.toNat_lt
  refine ⟨?_, isScalar_iff.mpr (by omega)⟩
  rw [utf16, if_pos hlt, UInt16.ofNat_toNat]

theorem utf16_pair (hhigh : isHighSurrogate c = true) (hlow : isLowSurrogate d = true) :
    utf16 (codePoint c d) = [c, d] ∧ isScalar (codePoint c d) = true := by
  simp only [isHighSurrogate, isLowSurrogate, decide_eq_true_eq,
    UInt16.le_iff_toNat_le, UInt16.reduceToNat] at hhigh hlow
  have hv : 0x10000 ≤ codePoint c d := by
    unfold codePoint
    omega
  have hc : 0xD800 + (codePoint c d - 0x10000) / 1024 = c.toNat := by
    unfold codePoint
    omega
  have hd : 0xDC00 + (codePoint c d - 0x10000) % 1024 = d.toNat := by
    unfold codePoint
    omega
  refine ⟨?_, ?_⟩
  · rw [utf16, if_neg (not_lt.mpr hv), hc, hd, UInt16.ofNat_toNat, UInt16.ofNat_toNat]
  · rw [isScalar_iff]
    omega

end RoundTrip

section Parts

variable {f g : CodeUnit → Bool} {s t : JsString} {c : CodeUnit}

attribute [local simp] encode in
theorem encode_unescaped (h : f c = true) : encode f (c :: s) = (encode f s).map (c :: ·) := by
  rw [encode.eq_def]
  exact if_pos h

theorem encode_unit (h : f c = false) (hhigh : isHighSurrogate c = false)
    (hlow : isLowSurrogate c = false) :
    encode f (c :: s) = (encode f s).map (escape c.toNat ++ ·) := by
  rw [encode.eq_def]
  simp [h, hhigh, hlow]

theorem encode_append (ht : ∀ d ∈ t.head?, isLowSurrogate d = false) :
    encode f (s ++ t) = (encode f s).bind fun x => (encode f t).map (x ++ ·) := by
  fun_induction encode f s with
  | case1 => simp
  | case2 c rest h ih =>
    rw [cons_append, encode_unescaped h, ih]
    cases encode f rest <;> simp [Function.comp_def]
  | case3 c rest h hlow =>
    rw [cons_append, encode.eq_def]
    simp [h, hlow]
  | case4 c h hlow hhigh =>
    rw [singleton_append, encode.eq_def]
    cases t with
    | nil => simp [h, hlow, hhigh]
    | cons d t => simp [h, hlow, hhigh, ht d rfl]
  | case5 c h hlow hhigh d rest hlow' ih =>
    rw [cons_append, cons_append, encode.eq_def]
    simp only [h, hlow, hhigh, hlow', ih, Bool.false_eq_true, if_false, if_true]
    cases encode f rest <;> simp [Function.comp_def]
  | case6 c h hlow hhigh d rest hlow' =>
    rw [cons_append, cons_append, encode.eq_def]
    simp [h, hlow, hhigh, hlow']
  | case7 c rest h hlow hhigh ih =>
    rw [cons_append, encode_unit (by simpa using h) (by simpa using hhigh)
      (by simpa using hlow), ih]
    cases encode f rest <;> simp [Function.comp_def]

/-- The unescaped units are ASCII, so none of them is a surrogate. -/
def Ascii (f : CodeUnit → Bool) : Prop := ∀ c, f c = true → c.toNat < 128

theorem Ascii.not_surrogate (hf : Ascii f) (h : f c = true) :
    isHighSurrogate c = false ∧ isLowSurrogate c = false := by
  have hlt := hf c h
  simp only [isHighSurrogate, isLowSurrogate, decide_eq_false_iff_not, not_and, not_le,
    UInt16.le_iff_toNat_le, UInt16.reduceToNat]
  omega

theorem encode_isSome (hf : Ascii f) (h : WellFormed s) : ∃ t, encode f s = some t := by
  induction h with
  | nil => exact ⟨[], rfl⟩
  | @unit c s hhigh hlow _ ih =>
    obtain ⟨t, ht⟩ := ih
    cases hc : f c with
    | true => exact ⟨_, by rw [encode_unescaped hc, ht]; rfl⟩
    | false => exact ⟨_, by rw [encode_unit hc hhigh hlow, ht]; rfl⟩
  | @pair c d s hhigh hlow _ ih =>
    obtain ⟨t, ht⟩ := ih
    have hc : f c = false := by
      by_contra hne
      rw [(hf.not_surrogate (Bool.not_eq_false _ ▸ hne)).1] at hhigh
      cases hhigh
    refine ⟨escape (codePoint c d) ++ t, ?_⟩
    rw [encode.eq_def]
    simp [hc, isLowSurrogate_of_high hhigh, hhigh, hlow, ht]

theorem encode_congr (h : ∀ c ∈ s, f c = g c) : encode f s = encode g s := by
  fun_induction encode g s with
  | case1 => rfl
  | case2 c rest hc ih =>
    obtain ⟨hfc, hrest⟩ := forall_mem_cons.mp h
    rw [encode_unescaped (hfc.trans hc), ih hrest]
  | case3 c rest hc hlow =>
    rw [encode.eq_def]
    simp [h c mem_cons_self, hc, hlow]
  | case4 c hc hlow hhigh =>
    rw [encode.eq_def]
    simp [h c mem_cons_self, hc, hlow, hhigh]
  | case5 c hc hlow hhigh d rest hlow' ih =>
    have hrest : ∀ c ∈ rest, f c = g c := fun c hc =>
      h c (mem_cons_of_mem _ (mem_cons_of_mem _ hc))
    rw [encode.eq_def]
    simp [h c mem_cons_self, hc, hlow, hhigh, hlow', ih hrest]
  | case6 c hc hlow hhigh d rest hlow' =>
    rw [encode.eq_def]
    simp [h c mem_cons_self, hc, hlow, hhigh, hlow']
  | case7 c rest hc hlow hhigh ih =>
    obtain ⟨hfc, hrest⟩ := forall_mem_cons.mp h
    rw [encode_unit (hfc.trans (by simpa using hc)) (by simpa using hhigh)
      (by simpa using hlow), ih hrest]

end Parts

section Length

variable {s r : JsString} {ts : List Token}

def weight : Token → ℕ
  | .unit _ => 1
  | .byte _ => 3

theorem length_utf16 (v : ℕ) : (utf16 v).length ≤ 2 := by
  rw [utf16]
  split <;> simp

theorem weight_tokens (h : tokens s = some ts) : (ts.map weight).sum = s.length := by
  fun_induction tokens s generalizing ts with
  | case1 =>
    cases h
    rfl
  | case2 _ _ _ _ _ _ _ ih =>
    obtain ⟨ts', hts', rfl⟩ := Option.map_eq_some_iff.mp h
    rw [map_cons, sum_cons, ih hts', weight, length_cons, length_cons, length_cons]
    omega
  | case3 => cases h
  | case4 => cases h
  | case5 _ _ _ ih =>
    obtain ⟨ts', hts', rfl⟩ := Option.map_eq_some_iff.mp h
    rw [map_cons, sum_cons, ih hts', weight, length_cons]
    omega

theorem length_decoded {o : Option JsString} {v n : ℕ} (h : o.map (utf16 v ++ ·) = some r)
    (ih : ∀ {r'}, o = some r' → r'.length ≤ n) : r.length ≤ 2 + n := by
  obtain ⟨r', hr', rfl⟩ := Option.map_eq_some_iff.mp h
  rw [length_append]
  exact Nat.add_le_add (length_utf16 v) (ih hr')

theorem length_decodeTokens (h : decodeTokens ts = some r) : r.length ≤ (ts.map weight).sum := by
  fun_induction decodeTokens ts generalizing r with
  | case1 =>
    cases h
    simp
  | case2 _ _ ih =>
    obtain ⟨r', hr', rfl⟩ := Option.map_eq_some_iff.mp h
    have hrest := ih hr'
    simp only [map_cons, sum_cons, weight, length_cons]
    omega
  | case3 _ _ _ ih =>
    have hdecoded := length_decoded h ih
    simp only [map_cons, sum_cons, weight]
    omega
  | case5 =>
    rename_i ih
    have hdecoded := length_decoded h ih
    simp only [map_cons, sum_cons, weight]
    omega
  | case8 =>
    rename_i ih
    have hdecoded := length_decoded h ih
    simp only [map_cons, sum_cons, weight]
    omega
  | case10 =>
    rename_i ih
    have hdecoded := length_decoded h ih
    simp only [map_cons, sum_cons, weight]
    omega
  | _ => cases h

theorem length_decodeURIComponent (h : decodeURIComponent s = some r) : r.length ≤ s.length := by
  obtain ⟨ts, htokens, hdecode⟩ := Option.bind_eq_some_iff.mp h
  rw [← weight_tokens htokens]
  exact length_decodeTokens hdecode

end Length

end UriCoding

end CodeOss
