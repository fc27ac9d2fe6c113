import CodeOss.Library.Patch

/-! Two lists of patches of one text, woven into one list.
Where the lists do not clash there is one order for both, so that either of them can be rebased
over the other, and the results meet. -/

universe u

namespace Patch

open List

variable {α : Type u}

def growth (p : Patch α) : Int := p.text.length - (p.stop - p.start)

def both (ms : List (Patch α ⊕ Patch α)) : List (Patch α) := ms.map (Sum.elim id id)

def lefts (ms : List (Patch α ⊕ Patch α)) : List (Patch α) := ms.filterMap Sum.getLeft?

def rights (ms : List (Patch α ⊕ Patch α)) : List (Patch α) := ms.filterMap Sum.getRight?

/-- The left patches in the text that the right ones have made. -/
def rebase (offset : Int) : List (Patch α ⊕ Patch α) → List (Patch α)
  | [] => []
  | .inl p :: ms => p.shift offset :: rebase offset ms
  | .inr q :: ms => rebase (offset + q.growth) ms

@[simp] theorem both_nil : both ([] : List (Patch α ⊕ Patch α)) = [] := rfl
@[simp] theorem both_inl (p : Patch α) (ms : List (Patch α ⊕ Patch α)) :
    both (.inl p :: ms) = p :: both ms := rfl
@[simp] theorem both_inr (q : Patch α) (ms : List (Patch α ⊕ Patch α)) :
    both (.inr q :: ms) = q :: both ms := rfl
@[simp] theorem lefts_nil : lefts ([] : List (Patch α ⊕ Patch α)) = [] := rfl
@[simp] theorem lefts_inl (p : Patch α) (ms : List (Patch α ⊕ Patch α)) :
    lefts (.inl p :: ms) = p :: lefts ms := rfl
@[simp] theorem lefts_inr (q : Patch α) (ms : List (Patch α ⊕ Patch α)) :
    lefts (.inr q :: ms) = lefts ms := rfl
@[simp] theorem rights_nil : rights ([] : List (Patch α ⊕ Patch α)) = [] := rfl
@[simp] theorem rights_inl (p : Patch α) (ms : List (Patch α ⊕ Patch α)) :
    rights (.inl p :: ms) = rights ms := rfl
@[simp] theorem rights_inr (q : Patch α) (ms : List (Patch α ⊕ Patch α)) :
    rights (.inr q :: ms) = q :: rights ms := rfl

@[simp] theorem both_append (ms ms' : List (Patch α ⊕ Patch α)) :
    both (ms ++ ms') = both ms ++ both ms' := map_append

@[simp] theorem both_map_inl (ps : List (Patch α)) : both (ps.map .inl) = ps := by
  simp [both, Function.comp_def]

@[simp] theorem both_map_inr (qs : List (Patch α)) : both (qs.map .inr) = qs := by
  simp [both, Function.comp_def]

@[simp] theorem lefts_map_inl (ps : List (Patch α)) : lefts (ps.map .inl) = ps := by
  induction ps with
  | nil => rfl
  | cons p ps ih => rw [map_cons, lefts_inl, ih]

@[simp] theorem lefts_map_inr (qs : List (Patch α)) : lefts (qs.map .inr) = [] := by
  induction qs with
  | nil => rfl
  | cons q qs ih => rw [map_cons, lefts_inr, ih]

@[simp] theorem rights_map_inl (ps : List (Patch α)) : rights (ps.map .inl) = [] := by
  induction ps with
  | nil => rfl
  | cons p ps ih => rw [map_cons, rights_inl, ih]

@[simp] theorem rights_map_inr (qs : List (Patch α)) : rights (qs.map .inr) = qs := by
  induction qs with
  | nil => rfl
  | cons q qs ih => rw [map_cons, rights_inr, ih]

@[simp] theorem both_swap (ms : List (Patch α ⊕ Patch α)) : both (ms.map Sum.swap) = both ms := by
  induction ms with
  | nil => rfl
  | cons m ms ih => cases m <;> simp [ih]

@[simp] theorem lefts_swap (ms : List (Patch α ⊕ Patch α)) : lefts (ms.map Sum.swap) = rights
    ms := by
  induction ms with
  | nil => rfl
  | cons m ms ih => cases m <;> simp [ih]

@[simp] theorem rights_swap (ms : List (Patch α ⊕ Patch α)) : rights (ms.map Sum.swap) = lefts
    ms := by
  induction ms with
  | nil => rfl
  | cons m ms ih => cases m <;> simp [ih]

theorem rebase_map_inl (offset : Int) (ps : List (Patch α)) :
    rebase offset (ps.map .inl) = ps.map (shift offset) := by
  induction ps with
  | nil => rfl
  | cons p ps ih => rw [map_cons, rebase, ih, map_cons]

theorem rebase_map_inr (offset : Int) (qs : List (Patch α)) : rebase offset (qs.map .inr) = [] := by
  induction qs generalizing offset with
  | nil => rfl
  | cons q qs ih => rw [map_cons, rebase, ih]

variable {ms : List (Patch α ⊕ Patch α)} {b e : Int} {ps qs : List (Patch α)} {p q : Patch α}

theorem eq_map_inl_of_rights (h : rights ms = []) : ms = (lefts ms).map .inl := by
  induction ms with
  | nil => rfl
  | cons m ms ih =>
    cases m with
    | inl p => rw [lefts_inl, map_cons, ← ih h]
    | inr q => exact absurd h nofun

theorem eq_map_inr_of_lefts (h : lefts ms = []) : ms = (rights ms).map .inr := by
  induction ms with
  | nil => rfl
  | cons m ms ih =>
    cases m with
    | inl p => exact absurd h nofun
    | inr q => rw [rights_inr, map_cons, ← ih h]

theorem Fits.sublist (h : Fits b e ps) (hsub : qs.Sublist ps) : Fits b e qs := by
  induction hsub generalizing b with
  | slnil => exact h
  | cons p _ ih => exact ih (h.2.2.mono (h.1.trans h.2.1))
  | cons_cons p _ ih => exact ⟨h.1, h.2.1, ih h.2.2⟩

theorem rights_sublist (ms : List (Patch α ⊕ Patch α)) : (rights ms).Sublist (both ms) := by
  induction ms with
  | nil => exact .slnil
  | cons m ms ih =>
    cases m with
    | inl p => exact .cons p ih
    | inr q => exact .cons_cons q ih

theorem lefts_sublist (ms : List (Patch α ⊕ Patch α)) : (lefts ms).Sublist (both ms) := by
  induction ms with
  | nil => exact .slnil
  | cons m ms ih =>
    cases m with
    | inl p => exact .cons_cons p ih
    | inr q => exact .cons q ih

theorem fits_rebase (h : Fits b e (both ms)) (offset : Int) :
    Fits (b + offset) (e + offset + lengthDelta (rights ms)) (rebase offset ms) := by
  induction ms generalizing b offset with
  | nil =>
    simp only [both_nil, fits_nil] at h
    simp only [rebase, rights_nil, lengthDelta_nil, fits_nil]
    omega
  | cons m ms ih =>
    cases m with
    | inl p =>
      rw [both_inl, fits_cons] at h
      obtain ⟨h₁, h₂, h₃⟩ := h
      refine ⟨?_, ?_, ih h₃ offset⟩ <;> simp only [shift] <;> omega
    | inr q =>
      rw [both_inr, fits_cons] at h
      obtain ⟨h₁, h₂, h₃⟩ := h
      have hrest := ih h₃ (offset + q.growth)
      rw [rebase, rights_inr, lengthDelta_cons]
      rw [show e + offset + ((q.text.length : Int) - (q.stop - q.start) + lengthDelta (rights ms)) =
        e + (offset + q.growth) + lengthDelta (rights ms) by simp only [growth]; omega]
      exact hrest.mono (by simp only [growth]; omega)

theorem applyFrom_rebase {t : List α} (h : Fits b e (both ms)) (ht : (t.length : Int) = e - b)
    (offset : Int) : applyFrom (b + offset) (rebase offset ms) (applyFrom b (rights ms) t) =
    applyFrom b (both ms) t := by
  induction ms generalizing b offset t with
  | nil => rfl
  | cons m ms ih =>
    cases m with
    | inl p =>
      rw [both_inl, fits_cons] at h
      obtain ⟨h₁, h₂, h₃⟩ := h
      have hle := h₃.le
      have hrights := h₃.sublist (rights_sublist ms)
      have hlen : ((t.drop (p.stop - b).toNat).length : Int) = e - p.stop := by
        rw [List.length_drop]
        omega
      have hrest := ih h₃ hlen offset
      have htake : (t.take (p.stop - b).toNat).length = (p.stop - b).toNat := by
        rw [List.length_take]
        omega
      have hstart : (p.shift offset).start - (b + offset) = p.start - b := by
        simp only [shift]
        omega
      have hstop : (p.shift offset).stop - (b + offset) = p.stop - b := by
        simp only [shift]
        omega
      rw [rights_inl, applyFrom_advance (by omega) (by omega) hrights, rebase, applyFrom_cons,
        both_inl, applyFrom_cons, hstart, hstop, drop_left' htake,
        take_append_of_le_length (by omega), List.take_take,
        Nat.min_eq_left (Int.toNat_le_toNat (by omega))]
      exact congrArg (_ ++ ·) hrest
    | inr q =>
      rw [both_inr, fits_cons] at h
      obtain ⟨h₁, h₂, h₃⟩ := h
      have hle := h₃.le
      have hlen : ((t.drop (q.stop - b).toNat).length : Int) = e - q.stop := by
        rw [List.length_drop]
        omega
      have hrest := ih h₃ hlen (offset + q.growth)
      have hlen : ((t.take (q.start - b).toNat ++ q.text).length : Int) =
          q.stop + (offset + q.growth) - (b + offset) := by
        rw [length_append, List.length_take]
        simp only [growth]
        omega
      rw [rights_inr, applyFrom_cons, rebase, applyFrom_append _ hlen (fits_rebase h₃ (offset +
        q.growth)), hrest, both_inr, applyFrom_cons]

/-- The patches overlap, insert at one place, or one inserts inside of the other. -/
def Clash (p q : Patch α) : Prop :=
  max p.start q.start < min p.stop q.stop ∨
    (p.start = p.stop ∧ q.start = q.stop ∧ p.start = q.start) ∨
    (p.start = p.stop ∧ q.start < p.start ∧ p.start < q.stop) ∨
    (q.start = q.stop ∧ p.start < q.start ∧ q.start < p.stop)

/-- Of two patches that do not clash the one that comes first; an insertion comes before a
replacement that starts at its place. -/
def Precedes (p q : Patch α) : Prop := p.start < q.start ∨ (p.start = p.stop ∧ p.start = q.start)

instance (p q : Patch α) : Decidable (p.Clash q) := inferInstanceAs (Decidable (_ ∨ _))
instance (p q : Patch α) : Decidable (p.Precedes q) := inferInstanceAs (Decidable (_ ∨ _))

theorem clash_comm : p.Clash q ↔ q.Clash p := by
  unfold Clash
  omega

theorem Precedes.stop_le (hq : q.start ≤ q.stop) (hclash : ¬p.Clash q) (h : p.Precedes q) :
    p.stop ≤ q.start := by
  unfold Clash at hclash
  unfold Precedes at h
  omega

theorem precedes_of_not (hp : p.start ≤ p.stop) (hq : q.start ≤ q.stop) (hclash : ¬p.Clash q) :
    ¬p.Precedes q ↔ q.Precedes p := by
  unfold Clash at hclash
  unfold Precedes
  omega

theorem precedes_of_stop_le (hp : p.start ≤ p.stop) (h : p.stop ≤ q.start) : p.Precedes q := by
  unfold Precedes
  omega

/-- `skip` leaves out the patches of the first list that clash. -/
def weave (skip : Bool) : List (Patch α) → List (Patch α) → Option (List (Patch α ⊕ Patch α))
  | [], qs => some (qs.map .inr)
  | p :: ps, [] => some ((p :: ps).map .inl)
  | p :: ps, q :: qs =>
    if p.Clash q then
      if skip then weave skip ps (q :: qs) else none
    else if p.Precedes q then (weave skip ps (q :: qs)).map (.inl p :: ·)
    else (weave skip (p :: ps) qs).map (.inr q :: ·)
termination_by ps qs => ps.length + qs.length

theorem weave_skip (ps qs : List (Patch α)) : (weave true ps qs).isSome := by
  induction ps, qs using weave.induct true with
  | case1 qs => simp [weave]
  | case2 p ps => simp [weave]
  | case3 p ps q qs hclash _ ih => simpa [weave, hclash] using ih
  | case4 p ps q qs hclash hskip => exact absurd rfl hskip
  | case5 p ps q qs hclash hfirst ih => simpa [weave, hclash, hfirst] using ih
  | case6 p ps q qs hclash hfirst ih => simpa [weave, hclash, hfirst] using ih

theorem fits_weave {skip : Bool} (hps : Fits b e ps)
    (hqs : Fits b e qs) (h : weave skip ps qs = some ms) : Fits b e (both ms) := by
  induction ps, qs using weave.induct skip generalizing b ms with
  | case1 qs =>
    rw [weave, Option.some.injEq] at h
    subst h
    simpa [both] using hqs
  | case2 p ps =>
    rw [weave, Option.some.injEq] at h
    subst h
    simpa [both] using hps
  | case3 p ps q qs hclash hskip ih =>
    rw [weave, if_pos hclash, if_pos hskip] at h
    exact ih (hps.2.2.mono (hps.1.trans hps.2.1)) hqs h
  | case4 p ps q qs hclash hskip =>
    rw [weave, if_pos hclash, if_neg hskip] at h
    exact absurd h nofun
  | case5 p ps q qs hclash hfirst ih =>
    rw [weave, if_neg hclash, if_pos hfirst, Option.map_eq_some_iff] at h
    obtain ⟨ms, hms, rfl⟩ := h
    have hstop := hfirst.stop_le hqs.2.1 hclash
    exact ⟨hps.1, hps.2.1, ih hps.2.2 ⟨hstop, hqs.2⟩ hms⟩
  | case6 p ps q qs hclash hfirst ih =>
    rw [weave, if_neg hclash, if_neg hfirst, Option.map_eq_some_iff] at h
    obtain ⟨ms, hms, rfl⟩ := h
    have hstop := Precedes.stop_le hps.2.1 (mt clash_comm.1 hclash)
      ((precedes_of_not hps.2.1 hqs.2.1 hclash).1 hfirst)
    exact ⟨hqs.1, hqs.2.1, ih ⟨hstop, hps.2⟩ hqs.2.2 hms⟩

theorem lefts_weave (h : weave false ps qs = some ms) : lefts ms = ps ∧ rights ms = qs := by
  induction ps, qs using weave.induct false generalizing ms with
  | case1 qs =>
    rw [weave, Option.some.injEq] at h
    subst h
    simp
  | case2 p ps =>
    rw [weave, Option.some.injEq] at h
    subst h
    simp
  | case3 p ps q qs hclash hskip ih => exact absurd hskip nofun
  | case4 p ps q qs hclash hskip =>
    rw [weave, if_pos hclash, if_neg hskip] at h
    exact absurd h nofun
  | case5 p ps q qs hclash hfirst ih =>
    rw [weave, if_neg hclash, if_pos hfirst, Option.map_eq_some_iff] at h
    obtain ⟨ms, hms, rfl⟩ := h
    obtain ⟨hleft, hright⟩ := ih hms
    exact ⟨congrArg (p :: ·) hleft, hright⟩
  | case6 p ps q qs hclash hfirst ih =>
    rw [weave, if_neg hclash, if_neg hfirst, Option.map_eq_some_iff] at h
    obtain ⟨ms, hms, rfl⟩ := h
    obtain ⟨hleft, hright⟩ := ih hms
    exact ⟨hleft, congrArg (q :: ·) hright⟩

theorem weave_swap (hps : Fits b e ps) (hqs : Fits b e qs) :
    weave false qs ps = (weave false ps qs).map (List.map Sum.swap) := by
  induction ps, qs using weave.induct false generalizing b with
  | case1 qs => cases qs <;> simp [weave]
  | case2 p ps => simp [weave]
  | case3 p ps q qs hclash hskip ih => exact absurd hskip nofun
  | case4 p ps q qs hclash hskip => simp [weave, hclash, clash_comm.1 hclash]
  | case5 p ps q qs hclash hfirst ih =>
    have hsecond : ¬q.Precedes p := fun h =>
      (precedes_of_not hps.2.1 hqs.2.1 hclash).2 h hfirst
    have hstop := hfirst.stop_le hqs.2.1 hclash
    rw [weave, weave, if_neg (mt clash_comm.1 hclash), if_neg hsecond, if_neg hclash, if_pos hfirst,
      ih hps.2.2 ⟨hstop, hqs.2⟩, Option.map_map, Option.map_map]
    rfl
  | case6 p ps q qs hclash hfirst ih =>
    have hsecond := (precedes_of_not hps.2.1 hqs.2.1 hclash).1 hfirst
    have hstop := Precedes.stop_le hps.2.1 (mt clash_comm.1 hclash) hsecond
    rw [weave, weave, if_neg (mt clash_comm.1 hclash), if_pos hsecond, if_neg hclash,
      if_neg hfirst, ih ⟨hstop, hps.2⟩ hqs.2.2, Option.map_map, Option.map_map]
    rfl

theorem weave_unique {ms' : List (Patch α ⊕ Patch α)} (hms : Fits b e (both ms))
    (h : weave false (lefts ms) (rights ms) = some ms') : ms' = ms := by
  induction ms generalizing b ms' with
  | nil => simpa [weave] using h.symm
  | cons m ms ih =>
    cases m with
    | inl p =>
      rw [both_inl, fits_cons] at hms
      obtain ⟨-, h₂, h₃⟩ := hms
      rw [lefts_inl, rights_inl] at h
      cases hright : rights ms with
      | nil =>
        rw [hright, weave, Option.some.injEq] at h
        rw [← h, map_cons, ← eq_map_inl_of_rights hright]
      | cons q qs =>
        have hfits := h₃.sublist (rights_sublist ms)
        rw [hright] at h hfits
        have hfirst := precedes_of_stop_le h₂ hfits.1
        by_cases hclash : p.Clash q
        · simp [weave, hclash] at h
        · rw [weave, if_neg hclash, if_pos hfirst, Option.map_eq_some_iff] at h
          obtain ⟨rest, hrest, rfl⟩ := h
          rw [← hright] at hrest
          rw [ih h₃ hrest]
    | inr q =>
      rw [both_inr, fits_cons] at hms
      obtain ⟨-, h₂, h₃⟩ := hms
      rw [lefts_inr, rights_inr] at h
      cases hleft : lefts ms with
      | nil =>
        rw [hleft, weave, Option.some.injEq] at h
        rw [← h, map_cons, ← eq_map_inr_of_lefts hleft]
      | cons p ps =>
        have hfits := h₃.sublist (lefts_sublist ms)
        rw [hleft] at h hfits
        by_cases hclash : p.Clash q
        · simp [weave, hclash] at h
        · have hfirst := (precedes_of_not hfits.2.1 h₂ hclash).2
            (precedes_of_stop_le h₂ hfits.1)
          rw [weave, if_neg hclash, if_neg hfirst, Option.map_eq_some_iff] at h
          obtain ⟨rest, hrest, rfl⟩ := h
          rw [← hleft] at hrest
          rw [ih h₃ hrest]

/-- The patches that put `fill` back where the patches stood. -/
def inverse (fill : Int → Int → List α) (offset : Int) : List (Patch α) → List (Patch α)
  | [] => []
  | p :: ps =>
    ⟨p.start + offset, p.start + offset + p.text.length, fill p.start p.stop⟩ ::
      inverse fill (offset + p.growth) ps

theorem fits_inverse (fill : Int → Int → List α) (h : Fits b e ps) (offset : Int) :
    Fits (b + offset) (e + offset + lengthDelta ps) (inverse fill offset ps) := by
  induction ps generalizing b offset with
  | nil => simpa [inverse] using h
  | cons p ps ih =>
    obtain ⟨h₁, h₂, h₃⟩ := h
    have hrest := ih h₃ (offset + p.growth)
    rw [lengthDelta_cons, inverse]
    refine ⟨by simp only; omega, by simp only; omega, ?_⟩
    simp only [growth] at hrest ⊢
    rw [show p.start + offset + (p.text.length : Int) =
        p.stop + (offset + (p.text.length - (p.stop - p.start))) by omega,
      show e + offset + ((p.text.length : Int) - (p.stop - p.start) + lengthDelta ps) =
        e + (offset + (p.text.length - (p.stop - p.start))) + lengthDelta ps by omega]
    exact hrest

theorem exists_before {fill : Int → Int → List α} {offset : Int}
    (hfill : ∀ p ∈ ps, p.start ≤ p.stop ∧ ((fill p.start p.stop).length : Int) = p.stop - p.start)
    (hright : rights ms = inverse fill offset ps) (hms : Fits b e (both ms)) :
    ∃ ms', rights ms' = ps ∧ lefts ms' = rebase (-offset) ms ∧ rebase offset ms' = lefts ms ∧
      Fits (b - offset) (e - offset - lengthDelta ps) (both ms') := by
  induction ms generalizing b offset ps with
  | nil =>
    cases ps with
    | nil => exact ⟨[], rfl, rfl, rfl, by simpa using hms⟩
    | cons p ps => simp [inverse] at hright
  | cons m ms ih =>
    cases m with
    | inl p =>
      rw [both_inl, fits_cons] at hms
      obtain ⟨h₁, h₂, h₃⟩ := hms
      obtain ⟨ms', hright', hleft', hback, hfits⟩ := ih hfill hright h₃
      refine ⟨.inl (p.shift (-offset)) :: ms', hright', ?_, ?_, ?_⟩
      · rw [lefts_inl, hleft', rebase]
      · rw [rebase, hback, lefts_inl]
        simp [shift]
      · rw [both_inl, fits_cons]
        refine ⟨by simp only [shift]; omega, by simp only [shift]; omega, ?_⟩
        rw [shift, ← sub_eq_add_neg]
        exact hfits
    | inr q =>
      rw [both_inr, fits_cons] at hms
      obtain ⟨h₁, h₂, h₃⟩ := hms
      cases ps with
      | nil => simp [inverse] at hright
      | cons p ps =>
        rw [rights_inr, inverse, List.cons.injEq] at hright
        obtain ⟨rfl, hright⟩ := hright
        obtain ⟨hp, hlen⟩ := hfill p mem_cons_self
        obtain ⟨ms', hright', hleft', hback, hfits⟩ :=
          ih (fun r hr => hfill r (mem_cons_of_mem p hr)) hright h₃
        refine ⟨.inr p :: ms', congrArg (p :: ·) hright', ?_, ?_, ?_⟩
        · rw [lefts_inr, hleft', rebase]
          congr 1
          simp only [growth]
          omega
        · rw [rebase, hback, lefts_inr]
        · simp only [growth] at hfits
          simp only at h₁
          rw [both_inr, fits_cons, lengthDelta_cons]
          refine ⟨by omega, hp, ?_⟩
          convert hfits using 1 <;> omega

variable {c : Int} {t : List α} {fill : Int → Int → List α}

/-- What `fill` gives are the parts of the text `t`, which reaches from `b` to `e`. -/
def Slices (fill : Int → Int → List α) (b e : Int) (t : List α) : Prop :=
  ∀ a c, b ≤ a → a ≤ c → c ≤ e → fill a c = (t.drop (a - b).toNat).take (c - a).toNat

theorem Slices.drop (h : Slices fill b e t) (hbc : b ≤ c) :
    Slices fill c e (t.drop (c - b).toNat) := by
  intro x y hx hxy hy
  rw [h x y (by omega) hxy hy, drop_drop]
  congr 2
  omega

theorem drop_applyFrom_cons {p : Patch α} (h : Fits b e (p :: ps))
    (ht : (t.length : Int) = e - b) :
    (applyFrom b (p :: ps) t).drop (p.start + p.text.length - b).toNat =
      applyFrom p.stop ps (t.drop (p.stop - b).toNat) := by
  obtain ⟨h₁, h₂, h₃⟩ := h
  have hle := h₃.le
  rw [applyFrom_cons]
  refine drop_left' ?_
  rw [length_append, length_take]
  omega

theorem applyFrom_inverse (h : Fits b e ps) (ht : (t.length : Int) = e - b)
    (hfill : Slices fill b e t) (offset : Int) :
    applyFrom (b + offset) (inverse fill offset ps) (applyFrom b ps t) = t := by
  induction ps generalizing b t offset with
  | nil => rfl
  | cons p ps ih =>
    have hdrop := drop_applyFrom_cons h ht
    obtain ⟨h₁, h₂, h₃⟩ := h
    have hle := h₃.le
    have hrest := ih h₃ (t := t.drop (p.stop - b).toNat) (by rw [length_drop]; omega)
      (hfill.drop (h₁.trans h₂)) (offset + p.growth)
    rw [inverse, applyFrom_cons]
    simp only
    rw [show p.start + offset + p.text.length - (b + offset) = p.start + p.text.length - b by omega,
      hdrop, show p.start + offset + (p.text.length : Int) = p.stop + (offset + p.growth) by
        rw [growth]; omega, hrest, show p.start + offset - (b + offset) = p.start - b by omega,
      applyFrom_cons, append_assoc (t.take _),
      take_left' (by rw [length_take]; omega), hfill _ _ h₁ h₂ hle,
      show (p.stop - b).toNat = (p.start - b).toNat + (p.stop - p.start).toNat by omega,
      ← drop_drop, append_assoc, take_append_drop, take_append_drop]

/-- Taking back what takes the patches back. -/
theorem inverse_inverse (fill' : Int → Int → List α) (offset : Int) {e' : Int} (h : Fits b e ps)
    (ht : (t.length : Int) = e - b) (hfill : Slices fill b e t)
    (hend : e' = b + offset + (applyFrom b ps t).length)
    (hfill' : Slices fill' (b + offset) e' (applyFrom b ps t)) :
    inverse fill' (-offset) (inverse fill offset ps) = ps := by
  induction ps generalizing b t offset with
  | nil => rfl
  | cons p ps ih =>
    have hdrop := drop_applyFrom_cons h ht
    obtain ⟨h₁, h₂, h₃⟩ := h
    have hle := h₃.le
    have hlength : ((fill p.start p.stop).length : Int) = p.stop - p.start := by
      rw [hfill _ _ h₁ h₂ hle, length_take, length_drop]
      omega
    have htext : fill' (p.start + offset) (p.start + offset + p.text.length) = p.text := by
      rw [hfill' _ _ (by omega) (by omega) (by
        rw [hend, applyFrom_cons, length_append, length_append, length_take]
        omega), show p.start + offset - (b + offset) = p.start - b by omega, applyFrom_cons,
        append_assoc, drop_left' (by rw [length_take]; omega)]
      exact take_left' (by omega)
    have hrest := ih (offset + p.growth) h₃ (t := t.drop (p.stop - b).toNat)
      (by rw [length_drop]; omega) (hfill.drop (h₁.trans h₂)) (by
        rw [hend, ← hdrop, length_drop, applyFrom_cons, length_append, length_append, length_take,
          growth]
        omega) (by
        rw [← hdrop]
        have := hfill'.drop (show b + offset ≤ p.stop + (offset + p.growth) by rw [growth]; omega)
        convert this using 3
        rw [growth]
        omega)
    rw [inverse, inverse, htext]
    simp only
    rw [show -offset + growth ⟨p.start + offset, p.start + offset + p.text.length,
      fill p.start p.stop⟩ = -(offset + p.growth) by simp only [growth]; omega, hrest]
    obtain ⟨start, stop, text⟩ := p
    simp only [cons.injEq, mk.injEq, and_true] at hlength ⊢
    omega

end Patch
