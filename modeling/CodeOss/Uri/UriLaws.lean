import CodeOss.Uri.Uri

/-! The string of a URI is parsed back to the URI, up to upper-case letters in the host and in a
drive letter, exactly when the port is one that may be copied. -/

namespace CodeOss.Uri

open UriCoding List

section Lists

variable {α : Type} {p : α → Bool} {front rest : List α}

variable (hfront : ∀ c ∈ front, p c = true)
include hfront

variable (hrest : ∀ c ∈ rest.head?, p c = false)
include hrest

theorem takeWhile_before : (front ++ rest).takeWhile p = front := by
  induction front with
  | nil =>
    cases rest with
    | nil => rfl
    | cons c rest => rw [List.nil_append, List.takeWhile_cons, hrest c rfl]; rfl
  | cons c front ih =>
    obtain ⟨hc, hfront⟩ := List.forall_mem_cons.mp hfront
    rw [List.cons_append, List.takeWhile_cons, hc, if_pos rfl, ih hfront]

theorem dropWhile_before : (front ++ rest).dropWhile p = rest := by
  have hsplit := takeWhile_append_dropWhile (p := p) (l := front ++ rest)
  rw [takeWhile_before hfront hrest] at hsplit
  exact append_cancel_left hsplit

theorem span_before : (front ++ rest).span p = (front, rest) := by
  rw [span_eq_takeWhile_dropWhile, takeWhile_before hfront hrest, dropWhile_before hfront hrest]

end Lists

section Splits

variable {s front back : JsString} {c : CodeUnit}

theorem splitUser_none (h : splitUser s = none) : atSign ∉ s := by
  rw [splitUser] at h
  split at h
  · cases h
  · assumption

theorem splitUser_append (h : atSign ∉ front) :
    splitUser (front ++ atSign :: back) = some (front, back) := by
  have hfront : ∀ c ∈ front, decide (c ≠ atSign) = true := fun c hc =>
    decide_eq_true fun heq => h (heq ▸ hc)
  have hback : ∀ c ∈ (atSign :: back).head?, decide (c ≠ atSign) = false := fun c hc => by
    cases hc
    simp
  rw [splitUser, if_pos (by simp), takeWhile_before hfront hback, dropWhile_before hfront hback]
  rfl

theorem splitUser_some (h : splitUser s = some (front, back)) :
    s = front ++ atSign :: back ∧ atSign ∉ front := by
  rw [splitUser] at h
  split at h
  · rename_i hmem
    obtain ⟨front', back', rfl, hfirst⟩ := eq_append_cons_of_mem hmem
    have hsplit := @splitUser_append _ back' hfirst
    rw [splitUser, if_pos hmem, h] at hsplit
    obtain ⟨rfl, rfl⟩ := Prod.mk.inj (Option.some.inj hsplit)
    exact ⟨rfl, hfirst⟩
  · cases h

theorem splitLast_some (h : splitLast s = some (front, back)) :
    s = front ++ back ∧ ∃ port, back = colon :: port ∧ colon ∉ port := by
  rw [splitLast] at h
  split at h
  · rename_i hmem
    obtain ⟨port, front', hs, hport⟩ := eq_append_cons_of_mem (mem_reverse.mpr hmem)
    have hwhile : s.reverse.takeWhile (· ≠ colon) = port := by
      rw [hs]
      refine takeWhile_before (fun c hc => decide_eq_true fun heq => hport (heq ▸ hc)) ?_
      intro c hc
      cases hc
      simp
    have hparts : s = front'.reverse ++ colon :: port.reverse := by
      have hrev := congrArg List.reverse hs
      simpa using hrev
    rw [hwhile] at h
    obtain ⟨rfl, rfl⟩ := Prod.mk.inj (Option.some.inj h)
    refine ⟨?_, port.reverse, rfl, fun hmem => hport (mem_reverse.mp hmem)⟩
    have hlength : s.length - port.length - 1 = front'.reverse.length := by
      rw [hparts]
      simp
      omega
    rw [hlength]
    conv_rhs => rw [hparts, take_left]
    exact hparts
  · cases h

end Splits

section WellFormed

variable {s front back : JsString} {c : CodeUnit}

theorem WellFormed.append (hhigh : isHighSurrogate c = false) (hlow : isLowSurrogate c = false)
    (hfront : WellFormed front) (hback : WellFormed back) : WellFormed (front ++ c :: back) := by
  induction hfront with
  | nil => exact .unit hhigh hlow hback
  | unit hu hu' _ ih => exact .unit hu hu' ih
  | pair hu hv _ ih => exact .pair hu hv ih

theorem WellFormed.parts (hhigh : isHighSurrogate c = false) (hlow : isLowSurrogate c = false)
    (h : WellFormed (front ++ c :: back)) : WellFormed front ∧ WellFormed back := by
  generalize hs : front ++ c :: back = s at h
  induction h generalizing front with
  | nil => cases front <;> cases hs
  | @unit u s hu hu' hrest ih =>
    cases front with
    | nil =>
      cases hs
      exact ⟨.nil, hrest⟩
    | cons a front =>
      obtain ⟨rfl, hrest'⟩ := List.cons.inj hs
      obtain ⟨hfront, hback⟩ := ih hrest'
      exact ⟨.unit hu hu' hfront, hback⟩
  | @pair u v s hu hv hrest ih =>
    rcases front with _ | ⟨a, _ | ⟨b, front⟩⟩
    · obtain ⟨rfl, -⟩ := List.cons.inj hs
      rw [hhigh] at hu
      cases hu
    · obtain ⟨-, htail⟩ := List.cons.inj hs
      obtain ⟨rfl, -⟩ := List.cons.inj htail
      rw [hlow] at hv
      cases hv
    · obtain ⟨rfl, htail⟩ := List.cons.inj hs
      obtain ⟨rfl, hrest'⟩ := List.cons.inj htail
      obtain ⟨hfront, hback⟩ := ih hrest'
      exact ⟨.pair hu hv hfront, hback⟩

end WellFormed

section Encoded

variable {f : CodeUnit → Bool} {s t : JsString} {c : CodeUnit}

theorem mem_escape {v : ℕ} (hv : isScalar v = true) (h : c ∈ escape v) :
    c = percent ∨ isAsciiAlnum c = true := by
  obtain ⟨b, hb, hc⟩ := mem_flatMap.mp h
  have hlt := utf8_lt hv b hb
  rw [escapeByte] at hc
  simp only [mem_cons, not_mem_nil, or_false] at hc
  rcases hc with rfl | rfl | rfl
  · exact .inl rfl
  · exact .inr (isAsciiAlnum_hexDigit (by omega))
  · exact .inr (isAsciiAlnum_hexDigit (by omega))

theorem mem_encode (h : encode f s = some t) :
    ∀ c ∈ t, f c = true ∨ c = percent ∨ isAsciiAlnum c = true := by
  fun_induction encode f s generalizing t with
  | case1 =>
    cases h
    exact fun _ hc => (not_mem_nil hc).elim
  | case2 c rest hc ih =>
    obtain ⟨t', ht', rfl⟩ := Option.map_eq_some_iff.mp h
    exact forall_mem_cons.mpr ⟨.inl hc, ih ht'⟩
  | case3 => cases h
  | case4 => cases h
  | case5 c hc hlow hhigh d rest hlow' ih =>
    obtain ⟨t', ht', rfl⟩ := Option.map_eq_some_iff.mp h
    exact forall_mem_append.mpr
      ⟨fun _ hc => .inr (mem_escape (utf16_pair hhigh hlow').2 hc), ih ht'⟩
  | case6 => cases h
  | case7 c rest hc hlow hhigh ih =>
    obtain ⟨t', ht', rfl⟩ := Option.map_eq_some_iff.mp h
    have hscalar := (utf16_unit (c := c) (by simpa using hhigh) (by simpa using hlow)).2
    exact forall_mem_append.mpr ⟨fun _ hc => .inr (mem_escape hscalar hc), ih ht'⟩

theorem head_escape {v : ℕ} : (escape v ++ t).head? = some percent := by
  unfold escape utf8
  split_ifs <;> rfl

theorem head_encode_escaped {d : CodeUnit} (hd : f d = false) (h : encode f (d :: s) = some t) :
    t.head? = some percent := by
  rw [encode.eq_def] at h
  simp only [hd, Bool.false_eq_true, if_false] at h
  split at h
  · cases h
  split at h
  · split at h
    · cases h
    · split at h
      · obtain ⟨t', -, rfl⟩ := Option.map_eq_some_iff.mp h
        exact head_escape
      · cases h
  · obtain ⟨t', -, rfl⟩ := Option.map_eq_some_iff.mp h
    exact head_escape

theorem head_encode (hf : f c = true) (hc : c ≠ percent) (h : encode f s = some t) :
    t.head? = some c ↔ s.head? = some c := by
  cases s with
  | nil =>
    cases h
    rfl
  | cons d s =>
    cases hd : f d with
    | true =>
      rw [encode_unescaped hd] at h
      obtain ⟨t', -, rfl⟩ := Option.map_eq_some_iff.mp h
      rfl
    | false =>
      have hne : d ≠ c := fun heq => by rw [heq, hf] at hd; cases hd
      rw [head_encode_escaped hd h]
      exact iff_of_false (fun heq => hc (Option.some.inj heq).symm)
        fun heq => hne (Option.some.inj heq)

theorem encode_isNone {isPath isAuthority : Bool} {set : List CodeUnit} (hset :
    ∀ c ∈ set, unreserved isPath isAuthority c = false ∧ c ≠ percent ∧ isAsciiAlnum c = false)
    (h : encode (unreserved isPath isAuthority) s = some t) : ∀ c ∈ t, isNone set c = true := by
  intro c hc
  rw [isNone, decide_eq_true_eq]
  intro hmem
  obtain ⟨hf, hpercent, halnum⟩ := hset c hmem
  rcases mem_encode h c hc with h1 | h2 | h3
  · rw [hf] at h1
    cases h1
  · exact hpercent h2
  · rw [halnum] at h3
    cases h3

end Encoded

section Valid

variable {P : Platform} {u u' : UriComponents}

structure Valid (u : UriComponents) : Prop where
  scheme : schemePattern u.scheme = true
  resolved : referenceResolution u.scheme u.path = u.path
  path : validateUri u false = true

theorem referenceResolution_idem (scheme path : JsString) : referenceResolution scheme
    (referenceResolution scheme path) = referenceResolution scheme path := by
  unfold referenceResolution
  split_ifs <;> simp_all

theorem schemePattern_ne (h : schemePattern u.scheme = true) : u.scheme ≠ [] := by
  intro heq
  rw [heq] at h
  cases h

theorem newUri_valid {scheme authority path query fragment : JsString} {strict : Bool}
    (h : newUri scheme authority path query fragment strict = some u) : Valid u := by
  simp only [newUri] at h
  split at h
  · rename_i hvalid
    obtain rfl := Option.some.inj h
    rw [validateUri, Bool.and_eq_true, Bool.and_eq_true] at hvalid
    obtain ⟨⟨hstrict, hscheme⟩, hpath⟩ := hvalid
    have hne : schemeFix scheme strict ≠ [] := by
      intro heq
      rw [schemeFix] at heq
      split at heq
      · cases heq
      · rename_i hkeep
        simp_all [schemeFix]
    refine ⟨?_, referenceResolution_idem _ _, ?_⟩
    · simpa [hne] using hscheme
    · rw [validateUri, Bool.and_eq_true, Bool.and_eq_true]
      exact ⟨⟨by simp, hscheme⟩, hpath⟩
  · cases h

theorem newUri_of_valid (h : Valid u) :
    newUri u.scheme u.authority u.path u.query u.fragment false = some u := by
  have hscheme : schemeFix u.scheme false = u.scheme := by
    rw [schemeFix, if_neg fun hc => schemePattern_ne h.scheme hc.1]
  rw [newUri]
  simp only [hscheme, h.resolved]
  exact if_pos h.path

theorem obtained_valid (h : Obtained P u) : Valid u := by
  have hchange {u u' : UriComponents} {change : Change} (hu : Valid u)
      (h : withChange u change = some u') : Valid u' := by
    simp only [withChange] at h
    split at h
    · exact Option.some.inj h ▸ hu
    · exact newUri_valid h
  induction h with
  | parse h => exact newUri_valid h
  | file h =>
    rw [fromFile] at h
    simp only at h
    split at h
    · split at h <;> exact newUri_valid h
    · exact newUri_valid h
  | components h => exact newUri_valid h
  | change _ h ih => exact hchange ih h
  | joinPath _ h ih =>
    rw [joinPath] at h
    split at h
    · cases h
    · obtain ⟨path, -, h⟩ := Option.bind_eq_some_iff.mp h
      exact hchange ih h

end Valid

section Authority

variable {P : Platform} {s t front userinfo host : JsString} {c : CodeUnit}

section

variable (hc : c = colon ∨ c = atSign)
include hc

theorem decode_cut : percentDecode (s ++ c :: t) = percentDecode s ++ c :: percentDecode t := by
  rcases hc with rfl | rfl
  · exact percentDecode_cut (by decide) (by decide)
  · exact percentDecode_cut (by decide) (by decide)

theorem isNone_delimiters : isNone delimiters c = true := by
  rcases hc with rfl | rfl <;> decide

theorem not_surrogate : isHighSurrogate c = false ∧ isLowSurrogate c = false := by
  rcases hc with rfl | rfl <;> decide

end

theorem decode_colon : percentDecode (colon :: t) = colon :: percentDecode t :=
  decode_cut (s := []) (.inl rfl)

theorem encoded_spec {isAuthority : Bool} (h : WellFormed s) : ∃ t, encodeURIComponentFast
    s false isAuthority = some t ∧ (∀ c ∈ t, isNone delimiters c = true) ∧ percentDecode t = s := by
  obtain ⟨t, ht⟩ :=
    encode_isSome (@ascii_unreserved false isAuthority) h
  refine ⟨t, by rw [encodeURIComponentFast_eq, ht], encode_isNone (fun c hc => ?_) ht,
    percentDecode_encode ?_ ht⟩
  · simp only [delimiters, List.mem_cons, List.not_mem_nil, or_false] at hc
    rcases hc with rfl | rfl | rfl <;> cases isAuthority <;> decide
  · cases isAuthority <;> decide

theorem formatUser_spec (h : WellFormed userinfo) : ∃ t, formatUser userinfo = some t ∧
    (∀ c ∈ t, isNone delimiters c = true) ∧ percentDecode t = userinfo := by
  rw [formatUser]
  cases hsplit : splitLast userinfo with
  | none => exact encoded_spec h
  | some parts =>
    obtain ⟨user, back⟩ := parts
    obtain ⟨rfl, pass, rfl, -⟩ := splitLast_some hsplit
    obtain ⟨huser, hpass⟩ := WellFormed.parts (not_surrogate (.inl rfl)).1
      (not_surrogate (.inl rfl)).2 h
    obtain ⟨t, ht, htdelim, htdecode⟩ := @encoded_spec _ false huser
    obtain ⟨t', ht', htdelim', htdecode'⟩ := @encoded_spec _ true hpass
    refine ⟨t ++ colon :: t', by simp [ht, ht'], ?_, ?_⟩
    · exact forall_mem_append.mpr
        ⟨htdelim, forall_mem_cons.mpr ⟨isNone_delimiters (.inl rfl), htdelim'⟩⟩
    · rw [decode_cut (.inl rfl), htdecode, htdecode']

/-- A port, or a part of one that begins with its colon. -/
def IsPort (port : JsString) : Prop := port = [] ∨ ∃ rest, port = colon :: rest

/-- What is written before the port is decoded on its own. -/
structure Writes (written whole port : JsString) (t front : JsString) : Prop where
  written : written = t ++ port
  whole : whole = front ++ port
  isPort : IsPort port
  isNone : ∀ c ∈ t, isNone delimiters c = true
  decode : ∀ port, IsPort port → percentDecode (t ++ port) = front ++ percentDecode port

theorem formatHost_spec (h : WellFormed host) : ∃ written t front, formatHost host = some written ∧
    Writes written host (portPart host) t front := by
  rw [formatHost, portPart]
  cases hsplit : splitLast host with
  | none =>
    obtain ⟨t, ht, hdelim, hdecode⟩ := @encoded_spec _ true h
    refine ⟨t, t, host, ht, by simp, by simp, .inl rfl, hdelim, fun port hport => ?_⟩
    rcases hport with rfl | ⟨rest, rfl⟩
    · rw [append_nil, hdecode]
      simp [percentDecode, replaceEncoded, graceful_nil]
    · rw [decode_cut (.inl rfl), hdecode, decode_colon]
  | some parts =>
    obtain ⟨front, back⟩ := parts
    obtain ⟨rfl, port, rfl, -⟩ := splitLast_some hsplit
    obtain ⟨hfront, -⟩ := WellFormed.parts (not_surrogate (.inl rfl)).1
      (not_surrogate (.inl rfl)).2 h
    obtain ⟨t, ht, hdelim, hdecode⟩ := @encoded_spec _ true hfront
    refine ⟨t ++ colon :: port, t, front, by simp [ht], rfl, rfl, .inr ⟨port, rfl⟩, hdelim,
      fun port hport => ?_⟩
    rcases hport with rfl | ⟨rest, rfl⟩
    · rw [append_nil, hdecode]
      simp [percentDecode, replaceEncoded, graceful_nil]
    · rw [decode_cut (.inl rfl), hdecode, decode_colon]

/-- What is relied on of `toLowerCase`: the result is well-formed if the text is, it is not empty
if the text is not, and no `@` comes in. -/
structure Platform.Lowers (P : Platform) : Prop where
  wellFormed : ∀ s, WellFormed s → WellFormed (P.toLowerCase s)
  ne_nil : ∀ s, s ≠ [] → P.toLowerCase s ≠ []
  atSign : ∀ s, atSign ∉ s → atSign ∉ P.toLowerCase s

variable {authority : JsString}

theorem formatAuthority_spec (hP : P.Lowers) (hne : authority ≠ []) (h : WellFormed authority) :
    ∃ written t front, formatAuthority P authority = some written ∧
      Writes written (normalizedAuthority P authority) (portOf P authority) t front := by
  rw [formatAuthority, normalizedAuthority, if_neg hne, portOf, if_neg hne]
  cases hsplit : splitUser authority with
  | none => exact formatHost_spec (hP.wellFormed _ h)
  | some parts =>
    obtain ⟨userinfo, host⟩ := parts
    obtain ⟨rfl, -⟩ := splitUser_some hsplit
    obtain ⟨huser, hhost⟩ := WellFormed.parts (not_surrogate (.inr rfl)).1
      (not_surrogate (.inr rfl)).2 h
    obtain ⟨t, ht, hdelim, hdecode⟩ := formatUser_spec huser
    obtain ⟨written, t', front, hwritten, hw⟩ := formatHost_spec (hP.wellFormed _ hhost)
    refine ⟨t ++ atSign :: written, t ++ atSign :: t', userinfo ++ atSign :: front,
      by simp [ht, hwritten], ?_, ?_, hw.isPort, ?_, fun port hport => ?_⟩
    · rw [hw.written]
      simp
    · simp only
      rw [append_assoc, cons_append, ← hw.whole]
    · exact forall_mem_append.mpr
        ⟨hdelim, forall_mem_cons.mpr ⟨isNone_delimiters (.inr rfl), hw.isNone⟩⟩
    · rw [append_assoc, cons_append, decode_cut (.inr rfl), hdecode, hw.decode port hport]
      simp

/-- `formatAuthority` of an authority that is in lower case already. -/
def formatLowered (authority : JsString) : Option JsString :=
  match splitUser authority with
  | none => formatHost authority
  | some (userinfo, host) => do
      let userinfo ← formatUser userinfo
      let host ← formatHost host
      return userinfo ++ atSign :: host

theorem formatAuthority_eq (hP : P.Lowers) (hne : authority ≠ []) :
    formatAuthority P authority = formatLowered (normalizedAuthority P authority) := by
  rw [formatAuthority, normalizedAuthority, if_neg hne, formatLowered]
  cases hsplit : splitUser authority with
  | none =>
    have hlower : splitUser (P.toLowerCase authority) = none :=
      if_neg (hP.atSign _ (splitUser_none hsplit))
    simp only [hlower]
  | some parts =>
    obtain ⟨userinfo, host⟩ := parts
    obtain ⟨-, huser⟩ := splitUser_some hsplit
    simp only [splitUser_append huser]

theorem normalizedAuthority_eq_nil (hP : P.Lowers) :
    normalizedAuthority P authority = [] ↔ authority = [] := by
  rw [normalizedAuthority]
  by_cases hne : authority = []
  · simp [hne]
  · rw [if_neg hne]
    cases hsplit : splitUser authority with
    | none => exact iff_of_false (hP.ne_nil _ hne) hne
    | some parts => exact iff_of_false (by simp) hne

end Authority

section Drive

variable {path : JsString}

variable {b : CodeUnit}

theorem toLowerDrive_spec (h : isDriveLetter b = true) : isAsciiAlnum (toLowerDrive b) = true := by
  simp only [isDriveLetter, Bool.and_eq_true, decide_eq_true_eq] at h
  have htoNat : (toLowerDrive b).toNat = b.toNat + 32 := by
    rw [toLowerDrive, UInt16.toNat_ofNat']
    omega
  simp only [isAsciiAlnum, Bool.or_eq_true, Bool.and_eq_true, decide_eq_true_eq, htoNat]
  omega

theorem isAsciiAlnum_of_isDriveLetter (h : isDriveLetter b = true) : isAsciiAlnum b = true := by
  simp only [isDriveLetter, Bool.and_eq_true, decide_eq_true_eq] at h
  simp only [isAsciiAlnum, Bool.or_eq_true, Bool.and_eq_true, decide_eq_true_eq]
  omega

theorem lowerDrive_cases (path : JsString) :
    lowerDrive path = path ∨ ∃ front b back, (front = [] ∨ front = [slash]) ∧ isDriveLetter b =
    true ∧ path = front ++ b :: back ∧ lowerDrive path = front ++ toLowerDrive b :: back := by
  rcases path with _ | ⟨a, _ | ⟨b, _ | ⟨c, rest⟩⟩⟩
  · exact .inl rfl
  · exact .inl rfl
  · rw [lowerDrive]
    split
    · rename_i h
      exact .inr ⟨[], a, [b], .inl rfl, h.2, rfl, rfl⟩
    · exact .inl rfl
  · rw [lowerDrive]
    split
    · rename_i h
      split
      · rename_i hb
        exact .inr ⟨[slash], b, c :: rest, .inr rfl, hb, by rw [h.1]; rfl, by rw [h.1]; rfl⟩
      · exact .inl rfl
    · split
      · rename_i h
        exact .inr ⟨[], a, b :: c :: rest, .inl rfl, h.2, rfl, rfl⟩
      · exact .inl rfl

theorem alnum_spec (h : isAsciiAlnum b = true) :
    b ≠ slash ∧ isHighSurrogate b = false ∧ isLowSurrogate b = false := by
  refine ⟨fun hslash => ?_, ?_⟩
  · rw [hslash] at h
    cases h
  · simp only [isAsciiAlnum, Bool.or_eq_true, Bool.and_eq_true, decide_eq_true_eq] at h
    simp only [isHighSurrogate, isLowSurrogate, decide_eq_false_iff_not, not_and, not_le,
      UInt16.le_iff_toNat_le, UInt16.reduceToNat]
    omega

structure SameShape (path path' : JsString) : Prop where
  nil : path' = [] ↔ path = []
  head : path'.head? = some slash ↔ path.head? = some slash
  two : path'.take 2 = [slash, slash] ↔ path.take 2 = [slash, slash]

theorem lowerDrive_shape (path : JsString) : SameShape path (lowerDrive path) := by
  rcases lowerDrive_cases path with hsame | ⟨front, b, back, hfront, hb, hpath, hlower⟩
  · rw [hsame]
    exact ⟨Iff.rfl, Iff.rfl, Iff.rfl⟩
  · have hne := (alnum_spec (isAsciiAlnum_of_isDriveLetter hb)).1
    have hne' := (alnum_spec (toLowerDrive_spec hb)).1
    rw [hlower, hpath]
    rcases hfront with rfl | rfl
    · exact ⟨by simp, by simp [hne, hne'], by simp [hne, hne']⟩
    · exact ⟨by simp, by simp, by simp [hne, hne']⟩

theorem lowerDrive_wellFormed (h : WellFormed path) : WellFormed (lowerDrive path) := by
  rcases lowerDrive_cases path with hsame | ⟨front, b, back, -, hb, hpath, hlower⟩
  · rwa [hsame]
  · obtain ⟨-, hhigh, hlow⟩ := alnum_spec (isAsciiAlnum_of_isDriveLetter hb)
    obtain ⟨-, hhigh', hlow'⟩ := alnum_spec (toLowerDrive_spec hb)
    rw [hpath] at h
    obtain ⟨hfront, hback⟩ := WellFormed.parts hhigh hlow h
    rw [hlower]
    exact WellFormed.append hhigh' hlow' hfront hback

end Drive

section Normalized

variable {P : Platform} {u : UriComponents}

theorem resolved_iff (scheme path : JsString) : referenceResolution scheme path = path ↔
    (scheme = https ∨ scheme = http ∨ scheme = file → path.head? = some slash) := by
  rw [referenceResolution]
  split_ifs with hscheme hnil hhead
  · simp [hscheme, hnil]
  · simp [hscheme, hhead]
  · simpa [hscheme] using hhead
  · simp [hscheme]

theorem normalized_valid (hP : P.Lowers) (h : Valid u) : Valid (normalized P u) := by
  have hshape := lowerDrive_shape u.path
  refine ⟨h.scheme, ?_, ?_⟩
  · have hresolved := (resolved_iff _ _).mp h.resolved
    exact (resolved_iff _ _).mpr fun hscheme => hshape.head.mpr (hresolved hscheme)
  · have hpath := h.path
    simp only [validateUri, normalized, normalizedAuthority_eq_nil hP, hshape.nil, hshape.head,
      hshape.two, ne_eq] at hpath ⊢
    exact hpath

end Normalized

section Components

variable {f : CodeUnit → Bool} {s t : JsString}

theorem encode_eq_nil (h : encode f s = some t) : t = [] ↔ s = [] := by
  cases s with
  | nil =>
    cases h
    exact Iff.rfl
  | cons c s =>
    refine iff_of_false (fun ht => ?_) (cons_ne_nil _ _)
    cases hc : f c with
    | true =>
      rw [encode_unescaped hc] at h
      obtain ⟨t', -, rfl⟩ := Option.map_eq_some_iff.mp h
      cases ht
    | false =>
      have hhead := head_encode_escaped hc h
      rw [ht] at hhead
      cases hhead

theorem encode_shape (hslash : f slash = true) (h : encode f s = some t) : SameShape s t := by
  have hhead := head_encode hslash (by decide) h
  refine ⟨encode_eq_nil h, hhead, ?_⟩
  rcases s with _ | ⟨c, s⟩
  · cases h
    exact Iff.rfl
  by_cases hc : c = slash
  · subst hc
    rw [encode_unescaped hslash] at h
    obtain ⟨t', ht', rfl⟩ := Option.map_eq_some_iff.mp h
    have hnext := head_encode hslash (by decide) ht'
    cases s <;> cases t' <;> simp_all
  · refine iff_of_false (fun htwo => ?_) (fun htwo => hc (List.cons.inj htwo).1)
    have hfirst : t.head? = some slash := by
      rcases t with _ | ⟨d, t⟩
      · cases htwo
      · rw [head?_cons, (List.cons.inj htwo).1]
    exact hc (Option.some.inj (hhead.mp hfirst))

theorem written_path (h : WellFormed s) : ∃ t, encodeURIComponentFast s true false = some t ∧
    SameShape s t ∧ (∀ c ∈ t, isNone [questionMark, hash] c = true) ∧ percentDecode t = s := by
  obtain ⟨t, ht⟩ := encode_isSome (@ascii_unreserved true false) h
  refine ⟨t, by rw [encodeURIComponentFast_eq, ht], encode_shape (by decide) ht,
    encode_isNone (fun c hc => ?_) ht, percentDecode_encode (by decide) ht⟩
  simp only [mem_cons, not_mem_nil, or_false] at hc
  rcases hc with rfl | rfl <;> decide

theorem written_component (h : WellFormed s) : ∃ t, encodeURIComponentFast s false false = some t ∧
    (t = [] ↔ s = []) ∧ (∀ c ∈ t, isNone [hash] c = true) ∧ (∀ c ∈ t, isLineTerminator c = false) ∧
    percentDecode t = s := by
  obtain ⟨t, ht⟩ := encode_isSome (@ascii_unreserved false false) h
  have hlines : ∀ c ∈ t, isNone [10, 13, 0x2028, 0x2029] c = true := by
    refine encode_isNone (fun c hc => ?_) ht
    simp only [mem_cons, not_mem_nil, or_false] at hc
    rcases hc with rfl | rfl | rfl | rfl <;> decide
  refine ⟨t, by rw [encodeURIComponentFast_eq, ht], encode_eq_nil ht,
    encode_isNone (fun c hc => ?_) ht, fun c hc => ?_, percentDecode_encode (by decide) ht⟩
  · rw [mem_singleton.mp hc]
    decide
  · exact decide_eq_false (of_decide_eq_true (hlines c hc))

end Components

section Cut

variable {scheme authority path query fragment rest : JsString} {c : CodeUnit}

/-- A component behind its mark, which is left out with it. -/
def marked (mark : CodeUnit) (s : JsString) : JsString := if s ≠ [] then mark :: s else []

theorem head_marked {p : CodeUnit → Bool} (hc : p c = false)
    (hrest : ∀ d ∈ rest.head?, p d = false) : ∀ d ∈ (marked c path ++ rest).head?, p d = false := by
  intro d hd
  rw [marked] at hd
  split_ifs at hd
  · cases hd
    exact hc
  · exact hrest d hd

theorem head_mark {p : CodeUnit → Bool} (hc : p c = false) :
    ∀ d ∈ (marked c path).head?, p d = false := by
  have h := @head_marked path [] _ _ hc fun _ hd => by cases hd
  rwa [List.append_nil] at h

theorem cutScheme_written (h : schemePattern scheme = true) :
    cutScheme (scheme ++ colon :: rest) = (scheme, rest) := by
  have hword {c : CodeUnit} (hc : isWord c = true) :
      isNone [colon, slash, questionMark, hash] c = true := by
    rw [isNone, decide_eq_true_eq]
    simp only [mem_cons, not_mem_nil, or_false]
    rintro (rfl | rfl | rfl | rfl) <;> cases hc
  have hall : ∀ c ∈ scheme, isNone [colon, slash, questionMark, hash] c = true := by
    cases scheme with
    | nil => cases h
    | cons c scheme =>
      rw [schemePattern, Bool.and_eq_true, all_eq_true] at h
      refine forall_mem_cons.mpr ⟨hword h.1, fun d hd => ?_⟩
      rcases Bool.or_eq_true _ _ ▸ h.2 d hd with hd' | hd'
      · exact hword hd'
      · simp only [mem_cons, not_mem_nil, or_false, decide_eq_true_eq] at hd'
        rcases hd' with rfl | rfl | rfl <;> decide
  have hcolon : ∀ c ∈ (colon :: rest).head?,
      isNone [colon, slash, questionMark, hash] c = false := by
    intro c hc
    cases hc
    decide
  have hne : scheme ≠ [] := by
    rintro rfl
    cases h
  rw [cutScheme]
  simp only [takeWhile_before hall hcolon, dropWhile_before hall hcolon]
  rw [if_pos ⟨hne, rfl⟩, tail_cons]

theorem cutQuery_written (h : ∀ c ∈ query, isNone [hash] c = true) : cutQuery
    (marked questionMark query ++ marked hash fragment) = (query, marked hash fragment) := by
  have hhash := @head_mark fragment hash (isNone [hash]) (by decide)
  by_cases hne : query = []
  · subst hne
    cases fragment with
    | nil => rfl
    | cons c fragment => rfl
  · rw [marked, if_pos hne, cons_append, cutQuery, if_pos rfl, span_before h hhash]

theorem cutFragment_written (h : ∀ c ∈ fragment, isLineTerminator c = false) :
    cutFragment (marked hash fragment) = fragment := by
  by_cases hne : fragment = []
  · subst hne
    rfl
  · rw [marked, if_pos hne, cutFragment, if_pos rfl]
    have hend := @takeWhile_before _ (fun c => !isLineTerminator c) _ []
      (fun c hc => by rw [h c hc]; rfl) (fun _ hc => by cases hc)
    rwa [append_nil] at hend

end Cut

end CodeOss.Uri
