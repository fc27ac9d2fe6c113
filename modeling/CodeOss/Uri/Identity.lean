import CodeOss.Uri.UriLaws

/-! The string of a URI is parsed back to the URI, up to upper-case letters in the host and in a
drive letter, exactly when the port is one that may be copied. -/

namespace CodeOss.Uri

open UriCoding List

variable {P : Platform} {u v : UriComponents} {str authority path query fragment t front : JsString}

def slashes (u : UriComponents) : JsString :=
  if u.authority ≠ [] ∨ u.scheme = file then [slash, slash] else []

def behind (path query fragment : JsString) : JsString :=
  path ++ (marked questionMark query ++ marked hash fragment)

/-- The string of a URI, and how each of its parts is decoded. -/
structure Written (P : Platform) (u : UriComponents)
    (str authority path query fragment t front : JsString) : Prop where
  str : str = u.scheme ++ colon :: (slashes u ++ (authority ++ behind path query fragment))
  writes : Writes authority (normalizedAuthority P u.authority) (portOf P u.authority) t front
  writes_nil : u.authority = [] → authority = []
  shape : SameShape (lowerDrive u.path) path
  path_marks : ∀ c ∈ path, isNone [questionMark, hash] c = true
  path_decode : percentDecode path = lowerDrive u.path
  query_marks : ∀ c ∈ query, isNone [hash] c = true
  query_decode : percentDecode query = u.query
  fragment_lines : ∀ c ∈ fragment, isLineTerminator c = false
  fragment_decode : percentDecode fragment = u.fragment

theorem marked_congr {s s' : JsString} {c : CodeUnit} (h : s = [] ↔ s' = []) :
    (if s' ≠ [] then c :: s else []) = marked c s := by
  rw [marked]
  by_cases hs : s = []
  · rw [if_neg (not_not.mpr (h.mp hs)), if_neg (not_not.mpr hs)]
  · rw [if_pos fun hs' => hs (h.mpr hs'), if_pos hs]

theorem writes_nil : Writes [] [] [] [] [] :=
  ⟨rfl, rfl, .inl rfl, fun _ h => (not_mem_nil h).elim, fun _ _ => rfl⟩

theorem toString_written (hP : P.Lowers) (hvalid : Valid u) (hu : u.IsText) :
    ∃ str authority path query fragment t front, toString P u = some str ∧
      Written P u str authority path query fragment t front := by
  obtain ⟨path, hpath, hshape, hpathMarks, hpathDecode⟩ :=
    written_path (lowerDrive_wellFormed hu.path)
  obtain ⟨query, hquery, hqueryNil, hqueryMarks, -, hqueryDecode⟩ := written_component hu.query
  obtain ⟨fragment, hfragment, hfragmentNil, -, hlines, hfragmentDecode⟩ :=
    written_component hu.fragment
  have hauthority : ∃ written t front,
      (if u.authority ≠ [] then formatAuthority P u.authority else some []) = some written ∧
        (u.authority = [] → written = []) ∧
        Writes written (normalizedAuthority P u.authority) (portOf P u.authority) t front := by
    by_cases hne : u.authority = []
    · refine ⟨[], [], [], if_neg (not_not.mpr hne), fun _ => rfl, ?_⟩
      rw [hne]
      exact writes_nil
    · obtain ⟨written, t, front, hwritten, hw⟩ := formatAuthority_spec hP hne hu.authority
      exact ⟨written, t, front, by rw [if_pos hne, hwritten], fun h => (hne h).elim, hw⟩
  obtain ⟨authority, t, front, hformat, hnil, hw⟩ := hauthority
  refine ⟨_, authority, path, query, fragment, t, front, ?_, rfl, hw, hnil, hshape, hpathMarks,
    hpathDecode, hqueryMarks, hqueryDecode, hlines, hfragmentDecode⟩
  rw [toString]
  simp only [hpath, hquery, hfragment, marked_congr hqueryNil, marked_congr hfragmentNil,
    if_pos (schemePattern_ne hvalid.scheme), behind, slashes, Option.bind_eq_bind,
    Option.bind_some]
  by_cases hne : u.authority = []
  · rw [hnil hne]
    simp [hne]
  · rw [if_pos hne] at hformat
    simp [hne, hformat]

section Read

variable (hw : Written P u str authority path query fragment t front)
include hw

theorem Written.cut_behind : (behind path query fragment).span (isNone [questionMark, hash]) =
    (path, marked questionMark query ++ marked hash fragment) ∧
    cutQuery (marked questionMark query ++ marked hash fragment) = (query, marked hash fragment) ∧
    cutFragment (marked hash fragment) = fragment := by
  refine ⟨?_, cutQuery_written hw.query_marks, cutFragment_written hw.fragment_lines⟩
  exact span_before hw.path_marks (head_marked (by decide) (head_mark (by decide)))

variable (hvalid : Valid u)
include hvalid

theorem Written.head_behind (hslashes : u.authority ≠ [] ∨ u.scheme = file) :
    ∀ c ∈ (behind path query fragment).head?, isNone delimiters c = false := by
  have hmarks : ∀ c ∈ (marked questionMark query ++ marked hash fragment).head?,
      isNone delimiters c = false :=
    head_marked (by decide) (head_mark (by decide))
  have hlower := lowerDrive_shape u.path
  have hpath : path = [] ∨ path.head? = some slash := by
    rcases hslashes with hne | hfile
    · have hvalidated := hvalid.path
      simp only [validateUri, if_pos hne, Bool.and_eq_true, Bool.or_eq_true,
        decide_eq_true_eq] at hvalidated
      rcases hvalidated.2 with hnil | hhead
      · exact .inl (hw.shape.nil.mpr (hlower.nil.mpr hnil))
      · exact .inr (hw.shape.head.mpr (hlower.head.mpr hhead))
    · have hhead := (resolved_iff _ _).mp hvalid.resolved (.inr (.inr hfile))
      exact .inr (hw.shape.head.mpr (hlower.head.mpr hhead))
  rw [behind]
  rcases hpath with hnil | hhead
  · rw [hnil]
    exact hmarks
  · intro c hc
    rw [head?_append, hhead] at hc
    cases hc
    decide

theorem Written.cutAuthority_behind (hnil : u.authority = []) :
    cutAuthority (behind path query fragment) = ([], behind path query fragment) := by
  have hvalidated := hvalid.path
  simp only [validateUri, hnil, ne_eq, not_true, if_false, Bool.and_eq_true, Bool.or_eq_true,
    decide_eq_true_eq] at hvalidated
  have hpath : path.take 2 ≠ [slash, slash] := by
    intro htwo
    have htwo' := (lowerDrive_shape u.path).two.mp (hw.shape.two.mp htwo)
    rcases hvalidated.2 with hempty | hne
    · rw [hempty] at htwo'
      cases htwo'
    · exact hne htwo'
  have hmarks : ∀ c ∈ (marked questionMark query ++ marked hash fragment).head?, c ≠ slash := by
    intro c hc hslash
    have hnone := head_marked (p := isNone [questionMark, hash]) (by decide)
      (head_mark (by decide)) c hc
    rw [hslash] at hnone
    cases hnone
  have hbehind : (behind path query fragment).take 2 ≠ [slash, slash] := by
    intro htwo
    rw [behind] at htwo
    rcases path with _ | ⟨a, _ | ⟨b, path⟩⟩
    · refine hmarks slash ?_ rfl
      rw [nil_append] at htwo
      generalize marked questionMark query ++ marked hash fragment = rest at htwo
      cases rest with
      | nil => cases htwo
      | cons c rest => rw [head?_cons, (List.cons.inj htwo).1]; rfl
    · refine hmarks slash ?_ rfl
      rw [singleton_append] at htwo
      generalize marked questionMark query ++ marked hash fragment = rest at htwo
      cases rest with
      | nil => cases (List.cons.inj htwo).2
      | cons c rest =>
        rw [head?_cons, (List.cons.inj (List.cons.inj htwo).2).1]
        rfl
    · exact hpath htwo
  generalize behind path query fragment = value at hbehind
  rcases value with _ | ⟨a, _ | ⟨b, value⟩⟩
  · rfl
  · rfl
  · rw [cutAuthority]
    exact if_neg fun h => hbehind (by rw [h.1, h.2]; rfl)

theorem Written.cut_authority (hne : u.authority ≠ []) :
    (cut str).authority = t ++ (portOf P u.authority).takeWhile (isNone delimiters) := by
  have hhead := hw.head_behind hvalid (.inl hne)
  have hslashes : slashes u = [slash, slash] := if_pos (.inl hne)
  rw [cut, hw.str, cutScheme_written hvalid.scheme, hslashes]
  simp only [cons_append, nil_append, cutAuthority, and_self, if_true,
    span_eq_takeWhile_dropWhile]
  rw [hw.writes.written, append_assoc, takeWhile_append_of_pos hw.writes.isNone]
  congr 1
  rw [takeWhile_append]
  split
  · rename_i hlength
    have hall := ( takeWhile_prefix _).eq_of_length hlength
    have hnone := @takeWhile_before _ _ [] _ (fun _ hc => (not_mem_nil hc).elim) hhead
    rw [nil_append] at hnone
    rw [hnone, append_nil, hall]
  · rfl

theorem Written.cut_eq
    (hport : ∀ c ∈ portOf P u.authority, isNone delimiters c = true) :
    cut str = ⟨u.scheme, authority, path, query, fragment⟩ := by
  have hmarks : ∀ c ∈ authority, isNone delimiters c = true := by
    rw [hw.writes.written]
    exact forall_mem_append.mpr ⟨hw.writes.isNone, hport⟩
  obtain ⟨hpath, hquery, hfragment⟩ := hw.cut_behind
  have hauthority : cutAuthority (slashes u ++ (authority ++ behind path query fragment)) =
      (authority, behind path query fragment) := by
    by_cases hslashes : u.authority ≠ [] ∨ u.scheme = file
    · rw [slashes, if_pos hslashes]
      have hspan := span_before hmarks (hw.head_behind hvalid hslashes)
      simp only [cons_append, nil_append, cutAuthority, and_self, if_true, hspan]
    · have hnil : u.authority = [] := not_not.mp (not_or.mp hslashes).1
      rw [slashes, if_neg hslashes, hw.writes_nil hnil]
      exact hw.cutAuthority_behind hvalid hnil
  rw [cut, hw.str, cutScheme_written hvalid.scheme]
  simp only [hauthority, hpath, hquery, hfragment]

end Read

theorem newUri_authority {scheme authority path query fragment : JsString} {strict : Bool}
    (h : newUri scheme authority path query fragment strict = some u) :
    u.authority = authority := by
  simp only [newUri] at h
  split at h
  · exact (Option.some.inj h) ▸ rfl
  · cases h

theorem isPort_takeWhile {port : JsString} (h : IsPort port) :
    IsPort (port.takeWhile (isNone delimiters)) := by
  rcases h with rfl | ⟨rest, rfl⟩
  · exact .inl rfl
  · refine .inr ⟨rest.takeWhile (isNone delimiters), ?_⟩
    rw [takeWhile_cons, isNone_delimiters (.inl rfl), if_pos rfl]

theorem Written.parse_iff (hP : P.Lowers) (hvalid : Valid u)
    (hw : Written P u str authority path query fragment t front) :
    parse str false = some (normalized P u) ↔ PortKept P u := by
  constructor
  · intro hparse
    by_cases hne : u.authority = []
    · rw [PortKept, hne]
      exact ⟨fun _ hc => (not_mem_nil hc).elim, rfl⟩
    · -- The part of the port that is read decodes to all of it, so it is all of it.
      have hread := newUri_authority hparse
      rw [hw.cut_authority hvalid hne,
        hw.writes.decode _ (isPort_takeWhile hw.writes.isPort)] at hread
      have hport := append_cancel_left (hw.writes.whole.symm.trans hread)
      have hlength := congrArg List.length hport
      have hdecoded := length_percentDecode
        (s := (portOf P u.authority).takeWhile (isNone delimiters))
      have hall : (portOf P u.authority).takeWhile (isNone delimiters) = portOf P u.authority :=
        ( takeWhile_prefix _).eq_of_length_le (by omega)
      refine ⟨takeWhile_eq_self_iff.mp hall, ?_⟩
      conv_rhs => rw [hport, hall]
  · rintro ⟨hdelim, hdecode⟩
    have hauthority : percentDecode authority = normalizedAuthority P u.authority := by
      rw [hw.writes.written, hw.writes.decode _ hw.writes.isPort, hdecode, ← hw.writes.whole]
    have hscheme := newUri_of_valid (normalized_valid hP hvalid)
    rw [parse, hw.cut_eq hvalid hdelim]
    simp only [hauthority, hw.path_decode, hw.query_decode, hw.fragment_decode]
    exact hscheme

theorem toString_congr (hP : P.Lowers) (h : normalized P u = normalized P v) :
    toString P u = toString P v := by
  obtain ⟨hscheme, hauthority, hpath, hquery, hfragment⟩ := UriComponents.mk.inj h
  have hnil : u.authority = [] ↔ v.authority = [] := by
    rw [← normalizedAuthority_eq_nil hP, hauthority, normalizedAuthority_eq_nil hP]
  rw [toString, toString, hpath, hscheme, hquery, hfragment]
  by_cases hne : u.authority = []
  · simp only [hne, hnil.mp hne]
  · have hne' : v.authority ≠ [] := fun hv => hne (hnil.mpr hv)
    rw [if_pos hne, if_pos hne', formatAuthority_eq hP hne, hauthority, formatAuthority_eq hP hne']
    simp only [ne_eq, hnil]

/-- `toString` does not throw. Its result is parsed back to the URI exactly when the port may be
copied, and then URIs have the same string exactly when they are the same up to normalisation. -/
theorem toString_identifies (P : Platform) (hP : P.Lowers) :
    (∀ u, Obtained P u → u.IsText →
      ∃ str, toString P u = some str ∧
        (parse str false = some (normalized P u) ↔ PortKept P u)) ∧
    ∀ u v, Obtained P u → u.IsText → Obtained P v → v.IsText → PortKept P u → PortKept P v →
      (toString P u = toString P v ↔ normalized P u = normalized P v) := by
  have hround {u : UriComponents} (hu : Obtained P u) (htext : u.IsText) :
      ∃ str, toString P u = some str ∧
        (parse str false = some (normalized P u) ↔ PortKept P u) := by
    have hvalid := obtained_valid hu
    obtain ⟨str, _, _, _, _, _, _, hstr, hw⟩ := toString_written hP hvalid htext
    exact ⟨str, hstr, hw.parse_iff hP hvalid⟩
  refine ⟨fun u hu htext => hround hu htext, ?_⟩
  intro u v hu hutext hv hvtext huport hvport
  refine ⟨fun h => ?_, toString_congr hP⟩
  obtain ⟨str, hstr, hparse⟩ := hround hu hutext
  obtain ⟨str', hstr', hparse'⟩ := hround hv hvtext
  have hsame : str = str' := by
    rw [hstr, hstr'] at h
    exact Option.some.inj h
  have hu' := hparse.mpr huport
  rw [hsame, hparse'.mpr hvport] at hu'
  exact (Option.some.inj hu').symm

def asciiLower (c : CodeUnit) : CodeUnit := if isDriveLetter c then toLowerDrive c else c

/-- `toLowerCase` of ASCII text. -/
def posix : Platform :=
  ⟨false, fun s => s.map asciiLower, fun path _ => path, fun path _ => path⟩

theorem posix_lowers : posix.Lowers := by
  have hsurrogate (c : CodeUnit) : isHighSurrogate (asciiLower c) = isHighSurrogate c ∧
      isLowSurrogate (asciiLower c) = isLowSurrogate c := by
    rw [asciiLower]
    split
    · rename_i h
      obtain ⟨-, hhigh, hlow⟩ := alnum_spec (isAsciiAlnum_of_isDriveLetter h)
      obtain ⟨-, hhigh', hlow'⟩ := alnum_spec (toLowerDrive_spec h)
      rw [hhigh, hlow, hhigh', hlow']
      exact ⟨rfl, rfl⟩
    · exact ⟨rfl, rfl⟩
  have hat {c : CodeUnit} (h : asciiLower c = atSign) : c = atSign := by
    rw [asciiLower] at h
    split at h
    · rename_i hletter
      have halnum := toLowerDrive_spec hletter
      rw [h] at halnum
      cases halnum
    · exact h
  refine ⟨fun s hs => ?_, fun s hs h => hs (map_eq_nil_iff.mp h), fun s hs hmem => ?_⟩
  · induction hs with
    | nil => exact .nil
    | @unit c _ hhigh hlow _ ih =>
      exact .unit ((hsurrogate c).1.trans hhigh) ((hsurrogate c).2.trans hlow) ih
    | @pair c d _ hhigh hlow _ ih =>
      exact .pair ((hsurrogate c).1.trans hhigh) ((hsurrogate d).2.trans hlow) ih
  · obtain ⟨c, hc, heq⟩ := mem_map.mp hmem
    exact hs (hat heq ▸ hc)

theorem isText_ascii (h : [u.scheme, u.authority, u.path, u.query, u.fragment].all
    (·.all fun c => c.toNat < 128) = true) : u.IsText := by
  have hascii {s : JsString} (hs : ∀ c ∈ s, c.toNat < 128) : WellFormed s := by
    induction s with
    | nil => exact .nil
    | cons c s ih =>
      obtain ⟨hc, hs⟩ := forall_mem_cons.mp hs
      refine .unit ?_ ?_ (ih hs)
      all_goals
        simp only [isHighSurrogate, isLowSurrogate, decide_eq_false_iff_not, not_and, not_le,
          UInt16.le_iff_toNat_le, UInt16.reduceToNat]
        omega
  simp only [all_cons, all_nil, Bool.and_true, Bool.and_eq_true, all_eq_true,
    decide_eq_true_eq] at h
  obtain ⟨hscheme, hauthority, hpath, hquery, hfragment⟩ := h
  exact ⟨hascii hscheme, hascii hauthority, hascii hpath, hascii hquery, hascii hfragment⟩

/-- `http://U@H:80/P?q#f`. -/
def withPort : JsString :=
  [104, 116, 116, 112, 58, 47, 47, 85, 64, 72, 58, 56, 48, 47, 80, 63, 113, 35, 102]

/-- `http://h:1%2F2`. -/
def slashInPort : JsString := [104, 116, 116, 112, 58, 47, 47, 104, 58, 49, 37, 50, 70, 50]

/-- `http://h:1/2/`. -/
def slashBehindPort : JsString := [104, 116, 116, 112, 58, 47, 47, 104, 58, 49, 47, 50, 47]

def parsedWithPort : UriComponents :=
  ⟨http, [85, 64, 72, 58, 56, 48], [47, 80], [113], [102]⟩

theorem toString_identifies_withPort :
    PortKept posix parsedWithPort ∧
      ∃ str, toString posix parsedWithPort = some str ∧
        parse str false = some (normalized posix parsedWithPort) := by
  have hobtained : Obtained posix parsedWithPort :=
    @Obtained.parse _ withPort false _ rfl
  have hport : portOf posix parsedWithPort.authority = [58, 56, 48] := rfl
  have hkept : PortKept posix parsedWithPort := by
    have hnone : List.all [58, 56, 48] (isNone delimiters) = true := rfl
    rw [PortKept, hport]
    exact ⟨List.all_eq_true.mp hnone, rfl⟩
  obtain ⟨str, hstr, hparse⟩ :=
    (toString_identifies posix posix_lowers).1 parsedWithPort hobtained (isText_ascii rfl)
  exact ⟨hkept, str, hstr, hparse.mpr hkept⟩

/-- `http://h:1%2F2` and `http://h:1/2/` have the same string. -/
theorem toString_collides :
    posix.Lowers ∧ ∃ u v, parse slashInPort false = some u ∧
      parse slashBehindPort false = some v ∧ u.IsText ∧ v.IsText ∧
      normalized posix u ≠ normalized posix v ∧
      ∃ str, toString posix u = some str ∧ toString posix v = some str ∧
        parse str false ≠ some (normalized posix u) := by
  refine ⟨posix_lowers, ⟨http, [104, 58, 49, 47, 50], [47], [], []⟩,
    ⟨http, [104, 58, 49], [47, 50, 47], [], []⟩, rfl, rfl, isText_ascii rfl, isText_ascii rfl,
    by decide, slashBehindPort, rfl, rfl, by decide⟩

end CodeOss.Uri
