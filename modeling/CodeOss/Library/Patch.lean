import Mathlib

/-! Simultaneous replacement of ranges of a list.
A patch replaces `[start, stop)` by `text`; coordinates are integers, so that a
list of patches can be read against a suffix whose first element has any
coordinate `b`. `applyFrom b` runs the patches over that suffix, `Fits b e`
says that they are sorted, disjoint (touching allowed) and inside `[b, e]`. -/

universe u

structure Patch (α : Type u) where
  start : Int
  stop : Int
  text : List α

namespace Patch

variable {α : Type u}

def shift (d : Int) (p : Patch α) : Patch α := ⟨p.start + d, p.stop + d, p.text⟩

def applyFrom (b : Int) : List (Patch α) → List α → List α
  | [], t => t
  | p :: ps, t =>
    t.take (p.start - b).toNat ++ p.text ++ applyFrom p.stop ps (t.drop (p.stop - b).toNat)

def Fits (b e : Int) : List (Patch α) → Prop
  | [] => b ≤ e
  | p :: ps => b ≤ p.start ∧ p.start ≤ p.stop ∧ Fits p.stop e ps

@[simp] theorem applyFrom_nil (b : Int) (t : List α) : applyFrom b [] t = t := rfl

theorem applyFrom_cons (b : Int) (p : Patch α) (ps : List (Patch α)) (t : List α) :
    applyFrom b (p :: ps) t = t.take (p.start - b).toNat ++ p.text ++
      applyFrom p.stop ps (t.drop (p.stop - b).toNat) := rfl

@[simp] theorem fits_nil (b e : Int) : Fits b e ([] : List (Patch α)) ↔ b ≤ e := Iff.rfl

@[simp] theorem fits_cons (b e : Int) (p : Patch α) (ps : List (Patch α)) :
    Fits b e (p :: ps) ↔ b ≤ p.start ∧ p.start ≤ p.stop ∧ Fits p.stop e ps := Iff.rfl

variable {b e : Int} {ps : List (Patch α)} {c : Int} {qs : List (Patch α)} {t : List α}

theorem Fits.le (h : Fits b e ps) : b ≤ e := by
  induction ps generalizing b with
  | nil => exact h
  | cons p ps ih =>
    have := ih h.2.2
    have := h.1
    have := h.2.1
    omega

theorem Fits.mono (h : Fits c e ps) (hbc : b ≤ c) : Fits b e ps := by
  cases ps with
  | nil => exact le_trans hbc h
  | cons p ps => exact ⟨le_trans hbc h.1, h.2⟩

theorem Fits.advance (h : Fits b e ps) (hce : c ≤ e) (hc : ∀ p ∈ ps.head?, c ≤ p.start) :
    Fits c e ps := by
  cases ps with
  | nil => exact hce
  | cons p ps => exact ⟨hc p rfl, h.2⟩

theorem Fits.append (hp : Fits b c ps) (hq : Fits c e qs) : Fits b e (ps ++ qs) := by
  induction ps generalizing b with
  | nil => exact hq.mono hp
  | cons p ps ih => exact ⟨hp.1, hp.2.1, ih hp.2.2⟩

theorem Fits.weaken (h : Fits b c ps) (hce : c ≤ e) : Fits b e ps := by
  have hnil : Fits c e ([] : List (Patch α)) := hce
  simpa using h.append hnil

theorem applyFrom_append {x : List α} (t : List α) (hx : (x.length : Int) = c - b)
    (h : Fits c e ps) :
    applyFrom b ps (x ++ t) = x ++ applyFrom c ps t := by
  cases ps with
  | nil => rfl
  | cons p ps =>
    obtain ⟨h₁, h₂, -⟩ := h
    have hs : (p.start - b).toNat = x.length + (p.start - c).toNat := by omega
    have he : (p.stop - b).toNat = x.length + (p.stop - c).toNat := by omega
    simp only [applyFrom_cons, hs, he, List.take_length_add_append, List.drop_length_add_append,
      List.append_assoc]

theorem applyFrom_advance (hbc : b ≤ c) (hct : c - b ≤ t.length) (h : Fits c e ps) :
    applyFrom b ps t = t.take (c - b).toNat ++ applyFrom c ps (t.drop (c - b).toNat) := by
  conv_lhs => rw [← List.take_append_drop (c - b).toNat t]
  refine applyFrom_append _ ?_ h
  rw [List.length_take]
  omega

theorem applyFrom_append_patches {x : List α} (hx : (x.length : Int) = c - b) (hp : Fits b c ps)
    (hq : Fits c e qs) :
    applyFrom b (ps ++ qs) (x ++ t) = applyFrom b ps x ++ applyFrom c qs t := by
  induction ps generalizing b x with
  | nil => exact applyFrom_append t hx hq
  | cons p ps ih =>
    obtain ⟨h₁, h₂, h₃⟩ := hp
    have hle := h₃.le
    have hlen : (((x.drop (p.stop - b).toNat).length : Nat) : Int) = c - p.stop := by
      rw [List.length_drop]
      omega
    simp only [List.cons_append, applyFrom_cons, List.append_assoc]
    rw [List.take_append_of_le_length (by omega), List.drop_append_of_le_length (by omega),
      ih hlen h₃]

theorem length_applyFrom (h : Fits b e ps) (ht : (t.length : Int) = e - b) :
    ((applyFrom b ps t).length : Int) =
      t.length + (ps.map fun p => (p.text.length : Int) - (p.stop - p.start)).sum := by
  induction ps generalizing b t with
  | nil => simp
  | cons p ps ih =>
    obtain ⟨h₁, h₂, h₃⟩ := h
    have hle := h₃.le
    have hd : ((t.drop (p.stop - b).toNat).length : Int) = e - p.stop := by
      rw [List.length_drop]
      omega
    have hi := ih h₃ hd
    simp only [applyFrom_cons, List.length_append, List.length_take, List.map_cons, List.sum_cons,
      Nat.cast_add, hi, hd]
    omega

/-- The right end of a list of patches that starts at `b`. -/
def endFrom (b : Int) : List (Patch α) → Int
  | [] => b
  | p :: ps => endFrom p.stop ps

def lengthDelta (ps : List (Patch α)) : Int :=
  (ps.map fun p => (p.text.length : Int) - (p.stop - p.start)).sum

@[simp] theorem endFrom_nil (b : Int) : endFrom b ([] : List (Patch α)) = b := rfl

@[simp] theorem endFrom_cons (b : Int) (p : Patch α) (ps : List (Patch α)) :
    endFrom b (p :: ps) = endFrom p.stop ps := rfl

@[simp] theorem lengthDelta_nil : lengthDelta ([] : List (Patch α)) = 0 := rfl

@[simp] theorem lengthDelta_cons (p : Patch α) (ps : List (Patch α)) :
    lengthDelta (p :: ps) = (p.text.length : Int) - (p.stop - p.start) + lengthDelta ps := by
  simp [lengthDelta]

theorem fits_append :
    Fits b e (ps ++ qs) ↔ Fits b (endFrom b ps) ps ∧ Fits (endFrom b ps) e qs := by
  induction ps generalizing b with
  | nil => simp
  | cons p ps ih => simp [ih, and_assoc]

/-- A fitting list can be run up to any of its patches first; the part of the text
that the first patches have consumed changes length by their `lengthDelta`. -/
theorem applyFrom_split (h : Fits b e (ps ++ qs)) (ht : (t.length : Int) = e - b) : applyFrom b
    (ps ++ qs) t = applyFrom b ps (t.take (endFrom b ps - b).toNat) ++ applyFrom (endFrom b ps) qs
    (t.drop (endFrom b ps - b).toNat) ∧ ((applyFrom b ps (t.take (endFrom b ps - b).toNat)).length :
    Int) = endFrom b ps - b + lengthDelta ps := by
  obtain ⟨hp, hq⟩ := fits_append.1 h
  have hple := hp.le
  have hqle := hq.le
  have htake : ((t.take (endFrom b ps - b).toNat).length : Int) = endFrom b ps - b := by
    rw [List.length_take]
    omega
  constructor
  · rw [← applyFrom_append_patches htake hp hq, List.take_append_drop]
  · rw [length_applyFrom hp htake, htake]
    rfl

theorem applyFrom_cons_empty {p : Patch α} (hp : p.stop = p.start) (htext : p.text = [])
    (hb : b ≤ p.start) (ht : p.start - b ≤ t.length) (h : Fits p.stop e ps) :
    applyFrom b (p :: ps) t = applyFrom b ps t := by
  rw [applyFrom_advance (c := p.stop) (by omega) (by omega) h]
  simp [applyFrom_cons, hp, htext]

theorem applyFrom_cons_touching {p q : Patch α}
    (hb : b ≤ p.start) (hp : p.start ≤ p.stop) (hq : q.start ≤ q.stop) (hpq : q.start = p.stop) :
    applyFrom b (p :: q :: ps) t = applyFrom b (⟨p.start, q.stop, p.text ++ q.text⟩ :: ps) t := by
  have hdrop : (p.stop - b).toNat + (q.stop - p.stop).toNat = (q.stop - b).toNat := by omega
  simp [applyFrom_cons, hpq, hdrop]

end Patch
