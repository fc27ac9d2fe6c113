import CodeOss.Uri.Encoding

/-! `percentDecode`: each run of escapes is decoded on its own, and as much of it as can be. -/

namespace CodeOss.Uri

open UriCoding List

def decodeURIComponentGraceful : JsString → JsString
  | a :: b :: c :: d :: rest =>
    (decodeURIComponent (a :: b :: c :: d :: rest)).getD
      (a :: b :: c :: decodeURIComponentGraceful (d :: rest))
  | str => (decodeURIComponent str).getD str

/-- `str.replace(/(%[0-9A-Za-z][0-9A-Za-z])+/g, ...)`, where `run` is the match so far. -/
def replaceEncoded (run : JsString) : JsString → JsString
  | [] => decodeURIComponentGraceful run
  | [a] => decodeURIComponentGraceful run ++ [a]
  | [a, b] => decodeURIComponentGraceful run ++ [a, b]
  | a :: b :: c :: rest =>
    if a = percent ∧ isAsciiAlnum b ∧ isAsciiAlnum c then
      replaceEncoded (run ++ [a, b, c]) rest
    else decodeURIComponentGraceful run ++ a :: replaceEncoded [] (b :: c :: rest)

def percentDecode (str : JsString) : JsString := replaceEncoded [] str

section Laws

variable {f : CodeUnit → Bool} {s t run : JsString} {c : CodeUnit} {cps : List ℕ}

theorem length_graceful : (decodeURIComponentGraceful s).length ≤ s.length := by
  induction s using decodeURIComponentGraceful.induct with
  | case1 a b c d rest ih =>
    rw [decodeURIComponentGraceful]
    cases hdecode : decodeURIComponent (a :: b :: c :: d :: rest) with
    | none => simpa using ih
    | some r => exact length_decodeURIComponent hdecode
  | case2 s h =>
    unfold decodeURIComponentGraceful
    split
    · rename_i a b c d rest
      exact (h a b c d rest rfl).elim
    · cases hdecode : decodeURIComponent s with
      | none => exact le_refl _
      | some r => exact length_decodeURIComponent hdecode

theorem length_replaceEncoded : (replaceEncoded run s).length ≤ run.length + s.length := by
  fun_induction replaceEncoded run s with
  | case1 run => exact length_graceful
  | case2 run a =>
    rw [List.length_append]
    exact Nat.add_le_add_right length_graceful _
  | case3 run a b =>
    rw [List.length_append]
    exact Nat.add_le_add_right length_graceful _
  | case4 run a b c rest h ih =>
    simp only [List.length_append, List.length_cons, List.length_nil] at ih ⊢
    omega
  | case5 run a b c rest h ih =>
    have hrun := length_graceful (s := run)
    simp only [List.length_append, List.length_cons, List.length_nil] at ih ⊢
    omega

theorem length_percentDecode : (percentDecode s).length ≤ s.length := by
  have h := @length_replaceEncoded s []
  rwa [length_nil, Nat.zero_add] at h

theorem graceful_nil : decodeURIComponentGraceful [] = [] := rfl

section

variable (hc : c ≠ percent)
include hc

theorem replaceEncoded_unit :
    replaceEncoded run (c :: t) = decodeURIComponentGraceful run ++ c :: percentDecode t := by
  rw [percentDecode]
  rcases t with _ | ⟨a, _ | ⟨b, t⟩⟩
  · rw [replaceEncoded, replaceEncoded, graceful_nil]
  · rw [replaceEncoded, replaceEncoded, graceful_nil, nil_append]
  · rw [replaceEncoded, if_neg fun h => hc h.1]

variable (halnum : isAsciiAlnum c = false)
include halnum

theorem replaceEncoded_before {a : CodeUnit} : replaceEncoded run
    (a :: c :: t) = decodeURIComponentGraceful run ++ a :: c :: percentDecode t := by
  have hrest : replaceEncoded [] (c :: t) = c :: percentDecode t := replaceEncoded_unit hc
  rcases t with _ | ⟨b, t⟩
  · rfl
  · rw [replaceEncoded, if_neg fun h => by simp [halnum] at h, hrest]

theorem replaceEncoded_cut :
    replaceEncoded run (s ++ c :: t) = replaceEncoded run s ++ c :: percentDecode t := by
  fun_induction replaceEncoded run s with
  | case1 run => exact replaceEncoded_unit hc
  | case2 run a =>
    rw [singleton_append, replaceEncoded_before hc halnum]
    simp
  | case3 run a b =>
    have hrest : replaceEncoded [] (b :: c :: t) = b :: c :: percentDecode t :=
      replaceEncoded_before hc halnum
    rw [cons_append, singleton_append, replaceEncoded, if_neg fun h => by simp [halnum] at h, hrest]
    simp
  | case4 run a b d rest h ih =>
    rw [cons_append, cons_append, cons_append, replaceEncoded, if_pos h, ih]
  | case5 run a b d rest h ih =>
    rw [cons_append, cons_append, cons_append, replaceEncoded, if_neg h]
    rw [cons_append, cons_append] at ih
    rw [ih]
    simp

theorem percentDecode_cut : percentDecode (s ++ c :: t) = percentDecode s ++ c :: percentDecode t :=
  replaceEncoded_cut hc halnum

end

theorem graceful_escapes (h : ∀ v ∈ cps, isScalar v = true) :
    decodeURIComponentGraceful (cps.flatMap escape) = cps.flatMap utf16 := by
  unfold decodeURIComponentGraceful
  split
  · rename_i hs
    rw [← hs, decodeURIComponent_escapes h, Option.getD_some]
  · rw [decodeURIComponent_escapes h, Option.getD_some]

theorem replaceEncoded_escapeBytes {bs : List ℕ} (h : ∀ b ∈ bs, b < 256) : replaceEncoded run
    (bs.flatMap escapeByte ++ s) = replaceEncoded (run ++ bs.flatMap escapeByte) s := by
  induction bs generalizing run with
  | nil => simp
  | cons b bs ih =>
    obtain ⟨hb, hbs⟩ := forall_mem_cons.mp h
    have hdigits : isAsciiAlnum (hexDigit (b / 16)) = true ∧
        isAsciiAlnum (hexDigit (b % 16)) = true :=
      ⟨isAsciiAlnum_hexDigit (by omega), isAsciiAlnum_hexDigit (by omega)⟩
    rw [flatMap_cons, append_assoc, escapeByte, cons_append, cons_append,
      cons_append, nil_append, replaceEncoded, if_pos ⟨rfl, hdigits⟩, ih hbs]
    simp

theorem replaceEncoded_escape {v : ℕ} (hv : isScalar v = true)
    (hcps : ∀ v ∈ cps, isScalar v = true) (ih : ∀ cps : List ℕ, (∀ v ∈ cps, isScalar v = true) →
    replaceEncoded (cps.flatMap escape) t = cps.flatMap utf16 ++ s) :
    replaceEncoded (cps.flatMap escape) (escape v ++ t) = cps.flatMap utf16 ++ (utf16 v ++ s) := by
  have hmore := ih (cps ++ [v]) fun u hu => by
    rcases List.mem_append.mp hu with hold | hnew
    · exact hcps u hold
    · rw [mem_singleton.mp hnew]
      exact hv
  rw [escape, replaceEncoded_escapeBytes (utf8_lt hv), ← escape]
  simpa using hmore

theorem replaceEncoded_encode (hpercent : f percent = false) (h : encode f s = some t)
    (hcps : ∀ v ∈ cps, isScalar v = true) :
    replaceEncoded (cps.flatMap escape) t = cps.flatMap utf16 ++ s := by
  fun_induction encode f s generalizing t cps with
  | case1 =>
    cases h
    rw [replaceEncoded, graceful_escapes hcps, List.append_nil]
  | case2 c rest hc ih =>
    obtain ⟨t', ht', rfl⟩ := Option.map_eq_some_iff.mp h
    have hne : c ≠ percent := fun heq => by
      rw [heq, hpercent] at hc
      cases hc
    have hrest : replaceEncoded [] t' = rest :=
      @ih _ [] ht' fun _ hv => (List.not_mem_nil hv).elim
    rw [replaceEncoded_unit hne, graceful_escapes hcps, percentDecode, hrest]
  | case3 => cases h
  | case4 => cases h
  | case5 c hc hlow hhigh d rest hlow' ih =>
    obtain ⟨t', ht', rfl⟩ := Option.map_eq_some_iff.mp h
    obtain ⟨hpair, hscalar⟩ := utf16_pair hhigh hlow'
    rw [replaceEncoded_escape hscalar hcps fun cps hcps => ih ht' hcps, hpair]
    rfl
  | case6 => cases h
  | case7 c rest hc hlow hhigh ih =>
    obtain ⟨t', ht', rfl⟩ := Option.map_eq_some_iff.mp h
    obtain ⟨hunit, hscalar⟩ := utf16_unit (c := c) (by simpa using hhigh) (by simpa using hlow)
    rw [replaceEncoded_escape hscalar hcps fun cps hcps => ih ht' hcps, hunit]
    rfl

theorem percentDecode_encode (hpercent : f percent = false) (h : encode f s = some t) :
    percentDecode t = s :=
  @replaceEncoded_encode _ _ _ [] hpercent h fun _ hv => (not_mem_nil hv).elim

end Laws

end CodeOss.Uri
