import CodeOss.Base.UriCoding

/-! `encodeURIComponentFast`: a loop that copies what needs no encoding, looks up the reserved
characters in a table, and leaves the rest to `encodeURIComponent`, several units at a time. -/

namespace CodeOss.Uri

open UriCoding List Option

def slash : CodeUnit := 47
def colon : CodeUnit := 58
def questionMark : CodeUnit := 63
def hash : CodeUnit := 35
def atSign : CodeUnit := 64

def encodeTable : List (CodeUnit × JsString) :=
  [(58, [37, 51, 65]), (47, [37, 50, 70]), (63, [37, 51, 70]), (35, [37, 50, 51]),
    (91, [37, 53, 66]), (93, [37, 53, 68]), (64, [37, 52, 48]), (33, [37, 50, 49]),
    (36, [37, 50, 52]), (38, [37, 50, 54]), (39, [37, 50, 55]), (40, [37, 50, 56]),
    (41, [37, 50, 57]), (42, [37, 50, 65]), (43, [37, 50, 66]), (44, [37, 50, 67]),
    (59, [37, 51, 66]), (61, [37, 51, 68]), (32, [37, 50, 48])]

/-- Letters, digits and `- . _ ~`, in a path `/`, in an authority `[ ] :`. -/
def unreserved (isPath isAuthority : Bool) (code : CodeUnit) : Bool :=
  isAsciiAlnum code || code ∈ ([45, 46, 95, 126] : List CodeUnit) ||
    (isPath && code = slash) || (isAuthority && code ∈ ([91, 93, 58] : List CodeUnit))

section Loop

variable (uriComponent : JsString) (isPath isAuthority : Bool)

/-- `res += encodeURIComponent(...)` of what waits for it. -/
def flush (pos : ℕ) (res : Option JsString) : Option ℕ → Option (Option JsString)
  | none => some res
  | some nativeEncodePos =>
    (encodeURIComponent (uriComponent.substring nativeEncodePos pos)).map fun encoded =>
      res.map (· ++ encoded)

def encodeLoop : JsString → ℕ → Option JsString → Option ℕ → Option JsString
  | [], pos, res, nativeEncodePos =>
    (flush uriComponent pos res nativeEncodePos).map (·.getD uriComponent)
  | code :: rest, pos, res, nativeEncodePos =>
    if unreserved isPath isAuthority code then
      (flush uriComponent pos res nativeEncodePos).bind fun res =>
        encodeLoop rest (pos + 1) (res.map (· ++ [code])) none
    else
      let res := res.getD (uriComponent.substr 0 pos)
      match encodeTable.lookup code with
      | some escaped =>
        (flush uriComponent pos (some res) nativeEncodePos).bind fun res =>
          encodeLoop rest (pos + 1) (res.map (· ++ escaped)) none
      | none => encodeLoop rest (pos + 1) (some res) (some (nativeEncodePos.getD pos))

def encodeURIComponentFast : Option JsString :=
  encodeLoop uriComponent isPath isAuthority uriComponent 0 none none

end Loop

section Laws

variable {isPath isAuthority : Bool} {c : CodeUnit}

theorem ascii_unreserved : Ascii (unreserved isPath isAuthority) := by
  intro c hc
  simp only [unreserved, isAsciiAlnum, Bool.or_eq_true, Bool.and_eq_true, decide_eq_true_eq,
    List.mem_cons, List.not_mem_nil, or_false, slash, ← UInt16.toNat_inj, UInt16.reduceToNat] at hc
  omega

theorem mem_of_lookup {escaped : JsString} {table : List (CodeUnit × JsString)}
    (h : table.lookup c = some escaped) : (c, escaped) ∈ table := by
  induction table with
  | nil => cases h
  | cons e table ih =>
    rw [lookup_cons] at h
    split at h
    · rename_i hc
      cases h
      rw [show c = e.1 by simpa using hc]
      exact mem_cons_self
    · exact mem_cons_of_mem _ (ih h)

theorem encodeTable_eq {escaped : JsString} (h : encodeTable.lookup c = some escaped) :
    escaped = escape c.toNat ∧ isHighSurrogate c = false ∧ isLowSurrogate c = false := by
  have hall : ∀ e ∈ encodeTable, e.2 = escape e.1.toNat ∧ isHighSurrogate e.1 = false ∧
      isLowSurrogate e.1 = false := by decide
  exact hall _ (mem_of_lookup h)

theorem not_uriUnescaped (h : unreserved isPath isAuthority c = false)
    (htable : encodeTable.lookup c = none) : uriUnescaped c = false := by
  simp only [unreserved, Bool.or_eq_false_iff] at h
  obtain ⟨⟨⟨halnum, hmarks⟩, -⟩, -⟩ := h
  have hall : ∀ c ∈ ([45, 95, 46, 33, 126, 42, 39, 40, 41] : List CodeUnit),
      c ∈ ([45, 46, 95, 126] : List CodeUnit) ∨ (encodeTable.lookup c).isSome := by
    intro c hc
    simp only [mem_cons, not_mem_nil, or_false] at hc
    rcases hc with rfl | rfl | rfl | rfl | rfl | rfl | rfl | rfl | rfl
    all_goals first | exact .inl (by decide) | exact .inr rfl
  rw [uriUnescaped, halnum, Bool.false_or, decide_eq_false_iff_not]
  intro hmem
  rcases hall c hmem with hmark | hsome
  · exact of_decide_eq_false hmarks hmark
  · rw [htable] at hsome
    cases hsome

/-- Where the loop is: `front` has been written as `w`, and `seg` waits for
`encodeURIComponent`. As long as all was copied nothing is written yet. -/
structure At (isPath isAuthority : Bool) (uriComponent front seg rest w : JsString) (pos : ℕ)
    (res : Option JsString) (nativeEncodePos : Option ℕ) : Prop where
  parts : uriComponent = front ++ (seg ++ rest)
  here : pos = front.length + seg.length
  waiting : ∀ c ∈ seg, unreserved isPath isAuthority c = false ∧ uriUnescaped c = false
  native : nativeEncodePos = if seg = [] then none else some front.length
  written : res = some w ∨ (res = none ∧ seg = [] ∧ w = front)

variable {uriComponent front seg rest w : JsString} {pos : ℕ} {res : Option JsString}
  {nativeEncodePos : Option ℕ}

theorem At.flush (h : At isPath isAuthority uriComponent front seg rest w pos res nativeEncodePos) :
    flush uriComponent pos res nativeEncodePos =
      (encode (unreserved isPath isAuthority) seg).map fun e => res.map fun _ => w ++ e := by
  have hnative := h.native
  by_cases hseg : seg = []
  · rw [if_pos hseg] at hnative
    subst hseg
    rw [hnative, Uri.flush, encode, map_some]
    rcases h.written with hw | ⟨hnone, -, -⟩
    · rw [hw, map_some, append_nil]
    · rw [hnone]
      rfl
  · rw [if_neg hseg] at hnative
    have hres : res = some w := h.written.resolve_right fun hw => hseg hw.2.1
    have hsub : uriComponent.substring front.length pos = seg := by
      have hparts := congrArg List.length h.parts
      have hhere := h.here
      simp only [length_append] at hparts
      rw [JsString.substring_eq _ (by omega) (by omega) (by omega), h.parts]
      simp [hhere]
    have hencode : encodeURIComponent seg = encode (unreserved isPath isAuthority) seg :=
      encode_congr fun c hc => (h.waiting c hc).2.trans (h.waiting c hc).1.symm
    rw [hnative, Uri.flush, hsub, hencode, hres]
    rfl

theorem At.next {c : CodeUnit} {e x : JsString}
    (h : At isPath isAuthority uriComponent front seg (c :: rest) w pos res nativeEncodePos)
    (hwritten : res.isSome = true ∨ (e = [] ∧ x = [c])) :
    At isPath isAuthority uriComponent (front ++ seg ++ [c])
    [] rest (w ++ e ++ x) (pos + 1) ((res.map fun _ => w ++ e).map (· ++ x)) none := by
  refine ⟨by rw [h.parts]; simp, ?_, fun _ h => (not_mem_nil h).elim, rfl, ?_⟩
  · rw [h.here]
    simp
    omega
  · rcases h.written with hw | ⟨hnone, hseg, hfront⟩
    · exact .inl (by rw [hw]; rfl)
    · rcases hwritten with hsome | ⟨he, hx⟩
      · rw [hnone] at hsome
        cases hsome
      · refine .inr ⟨by rw [hnone]; rfl, rfl, ?_⟩
        rw [he, hx, hseg, hfront]

theorem encodeLoop_spec
    (h : At isPath isAuthority uriComponent front seg rest w pos res nativeEncodePos) :
    encodeLoop uriComponent isPath isAuthority rest pos res nativeEncodePos =
    (encode (unreserved isPath isAuthority) (seg ++ rest)).map (w ++ ·) := by
  induction rest generalizing front seg w pos res nativeEncodePos with
  | nil =>
    rw [encodeLoop, h.flush, append_nil, Option.map_map]
    rcases h.written with hw | ⟨hnone, hseg, hfront⟩
    · rw [hw]
      rfl
    · rw [hnone, hseg, hfront, h.parts, hseg, encode]
      simp
  | cons c rest ih =>
    rw [encodeLoop]
    cases hc : unreserved isPath isAuthority c with
    | true =>
      have hlow := (ascii_unreserved.not_surrogate hc).2
      rw [if_pos rfl, h.flush, encode_append (by simpa using hlow), encode_unescaped hc]
      cases hencode : encode (unreserved isPath isAuthority) seg with
      | none => rfl
      | some e =>
        have hnext := h.next (e := e) (x := [c]) (by
          rcases h.written with hw | ⟨-, hseg, -⟩
          · exact .inl (by rw [hw]; rfl)
          · rw [hseg] at hencode
            exact .inr ⟨(Option.some.inj hencode).symm, rfl⟩)
        simp only [map_some, bind_some]
        rw [ih hnext, nil_append]
        cases encode (unreserved isPath isAuthority) rest <;> simp
    | false =>
      -- From here on something is written.
      have hres : At isPath isAuthority uriComponent front seg (c :: rest) w pos
          (some (res.getD (uriComponent.substr 0 pos))) nativeEncodePos := by
        refine ⟨h.parts, h.here, h.waiting, h.native, .inl ?_⟩
        rcases h.written with hw | ⟨hnone, hseg, hfront⟩
        · rw [hw]
          rfl
        · rw [hnone, hfront, getD_none, h.parts, h.here, hseg, JsString.substr]
          simp
      simp only [Bool.false_eq_true, if_false]
      cases htable : encodeTable.lookup c with
      | some escaped =>
        obtain ⟨hescaped, hhigh, hlow⟩ := encodeTable_eq htable
        rw [hres.flush, encode_append (by simpa using hlow), encode_unit hc hhigh hlow]
        cases hencode : encode (unreserved isPath isAuthority) seg with
        | none => rfl
        | some e =>
          have hnext := hres.next (e := e) (x := escaped) (.inl rfl)
          simp only [map_some, bind_some]
          rw [map_some, map_some] at hnext
          rw [ih hnext, nil_append, hescaped]
          cases encode (unreserved isPath isAuthority) rest <;> simp
      | none =>
        have hnext : At isPath isAuthority uriComponent front (seg ++ [c]) rest w (pos + 1)
            (some (res.getD (uriComponent.substr 0 pos)))
            (some (nativeEncodePos.getD pos)) := by
          refine ⟨by rw [h.parts]; simp, by rw [h.here]; simp; omega, ?_, ?_, ?_⟩
          · intro d hd
            rcases List.mem_append.mp hd with hold | hnew
            · exact h.waiting d hold
            · rw [mem_singleton.mp hnew]
              exact ⟨hc, not_uriUnescaped hc htable⟩
          · rw [if_neg (by simp), h.native]
            split
            · rename_i hseg
              rw [h.here, hseg]
              simp
            · rfl
          · exact .inl (hres.written.resolve_right fun hw => by cases hw.1)
        simp only
        rw [ih hnext, append_assoc, singleton_append]

theorem encodeURIComponentFast_eq (uriComponent : JsString) : encodeURIComponentFast uriComponent
    isPath isAuthority = encode (unreserved isPath isAuthority) uriComponent := by
  have h : At isPath isAuthority uriComponent [] [] uriComponent [] 0 none none :=
    ⟨rfl, rfl, fun _ h => (not_mem_nil h).elim, rfl, .inr ⟨rfl, rfl, rfl⟩⟩
  rw [encodeURIComponentFast, encodeLoop_spec h]
  simp

end Laws

end CodeOss.Uri
