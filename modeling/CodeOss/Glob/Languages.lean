import CodeOss.Glob.Pattern

/-! The languages of the expressions that stars are written as. -/

namespace CodeOss.Glob

open Regex List

section Classes

variable {canonicalize : CodeUnit → CodeUnit} {c d : CodeUnit} {w : JsString}

/-- No other unit is the same as `c`. -/
def Fixes (canonicalize : CodeUnit → CodeUnit) (c : CodeUnit) : Prop :=
  ∀ d, canonicalize d = canonicalize c ↔ d = c

theorem fixes_id (c : CodeUnit) : Fixes id c := fun _ => Iff.rfl

structure FixesSeparators (canonicalize : CodeUnit → CodeUnit) : Prop where
  slash : Fixes canonicalize slash
  backslash : Fixes canonicalize backslash

theorem fixesSeparators_id : FixesSeparators id := ⟨fixes_id _, fixes_id _⟩

def lang (canonicalize : CodeUnit → CodeUnit) (r : Pattern) : Language CodeUnit :=
  Regex.language (CharacterClass.sat canonicalize) r

theorem inRange_iff {range : CodeUnit × CodeUnit} : inRange canonicalize range c = true ↔ ∃ d,
    range.1 ≤ d ∧ d ≤ range.2 ∧ canonicalize d = canonicalize c := by
  obtain ⟨first, last⟩ := range
  rw [inRange, any_eq_true]
  constructor
  · rintro ⟨n, hn, heq⟩
    have hlast := last.toNat_lt
    have hn : n < last.toNat + 1 - first.toNat := mem_range.mp hn
    have htoNat : (UInt16.ofNat (first.toNat + n)).toNat = first.toNat + n := by
      rw [UInt16.toNat_ofNat']
      omega
    refine ⟨UInt16.ofNat (first.toNat + n), ?_, ?_, of_decide_eq_true heq⟩
    · rw [UInt16.le_iff_toNat_le, htoNat]
      exact Nat.le_add_right _ _
    · rw [UInt16.le_iff_toNat_le, htoNat]
      change first.toNat + n ≤ last.toNat
      omega
  · rintro ⟨d, hfirst, hlast, heq⟩
    rw [UInt16.le_iff_toNat_le] at hfirst hlast
    refine ⟨d.toNat - first.toNat, mem_range.mpr ?_, ?_⟩
    · change d.toNat - first.toNat < last.toNat + 1 - first.toNat
      change first.toNat ≤ d.toNat at hfirst
      change d.toNat ≤ last.toNat at hlast
      omega
    rw [Nat.add_sub_cancel' hfirst, UInt16.ofNat_toNat]
    exact decide_eq_true heq

theorem inRange_self : inRange canonicalize (d, d) c = true ↔ canonicalize d = canonicalize c := by
  rw [inRange_iff]
  constructor
  · rintro ⟨e, hfirst, hlast, heq⟩
    obtain rfl : e = d := UInt16.le_antisymm hlast hfirst
    exact heq
  · exact fun h => ⟨d, UInt16.le_refl d, UInt16.le_refl d, h⟩

theorem mem_unit :
    w ∈ lang canonicalize (unit d) ↔ ∃ c, w = [c] ∧ canonicalize c = canonicalize d := by
  refine mem_atom.trans (exists_congr fun c => and_congr_right fun _ => ?_)
  have hself := @inRange_self canonicalize c d
  simp only [CharacterClass.sat, any_cons, any_nil, Bool.or_false, Bool.false_xor, hself]
  exact eq_comm

def IsSeparator (c : CodeUnit) : Prop := c = slash ∨ c = backslash

variable (h : FixesSeparators canonicalize)
include h

theorem separators_any : [(slash, slash), (backslash, backslash)].any
    (fun range => inRange canonicalize range c) = true ↔ IsSeparator c := by
  simp only [any_cons, any_nil, Bool.or_false, Bool.or_eq_true, inRange_self]
  refine or_congr (eq_comm.trans (h.slash c)) (eq_comm.trans (h.backslash c))

theorem mem_pathRegex : w ∈ lang canonicalize pathRegex ↔ ∃ c, w = [c] ∧ IsSeparator c := by
  refine mem_atom.trans (exists_congr fun c => and_congr_right fun _ => ?_)
  rw [← separators_any h, CharacterClass.sat, Bool.false_xor]

theorem mem_noPathRegex : w ∈ lang canonicalize noPathRegex ↔ ∃ c, w = [c] ∧ ¬ IsSeparator c := by
  refine mem_atom.trans (exists_congr fun c => and_congr_right fun _ => ?_)
  rw [← separators_any h, CharacterClass.sat, Bool.true_xor, Bool.not_eq_true', Bool.not_eq_true]

end Classes

section Stars

variable {canonicalize : CodeUnit → CodeUnit} {u v w : JsString} {c : CodeUnit}

theorem mem_star_noPathRegex (h : FixesSeparators canonicalize) :
    w ∈ lang canonicalize (.star noPathRegex) ↔ ∀ c ∈ w, ¬ IsSeparator c := by
  constructor
  · intro hw
    refine star_induction (p := fun w => ∀ c ∈ w, ¬ IsSeparator c)
      (fun _ hc => (not_mem_nil hc).elim) (fun u v hu _ ih => ?_) hw
    obtain ⟨c, rfl, hc⟩ := (mem_noPathRegex h).mp hu
    exact forall_mem_cons.mpr ⟨hc, ih⟩
  · intro hw
    induction w with
    | nil => exact nil_mem_star
    | cons c w ih =>
      obtain ⟨hc, hw⟩ := forall_mem_cons.mp hw
      exact append_mem_star (u := [c]) ((mem_noPathRegex h).mpr ⟨c, rfl, hc⟩) (ih hw)

theorem mem_plus_noPathRegex (h : FixesSeparators canonicalize) :
    w ∈ lang canonicalize (plus noPathRegex) ↔ w ≠ [] ∧ ∀ c ∈ w, ¬ IsSeparator c := by
  refine mem_seq.trans ?_
  constructor
  · rintro ⟨u, hu, v, hv, rfl⟩
    obtain ⟨c, rfl, hc⟩ := (mem_noPathRegex h).mp hu
    exact ⟨cons_ne_nil _ _, forall_mem_cons.mpr ⟨hc, (mem_star_noPathRegex h).mp hv⟩⟩
  · rintro ⟨hne, hw⟩
    cases w with
    | nil => exact (hne rfl).elim
    | cons c w =>
      obtain ⟨hc, hw⟩ := forall_mem_cons.mp hw
      exact ⟨[c], (mem_noPathRegex h).mpr ⟨c, rfl, hc⟩, w, (mem_star_noPathRegex h).mpr hw, rfl⟩

def Closed (w : JsString) : Prop := w = [] ∨ ∃ u c, w = u ++ [c] ∧ IsSeparator c

theorem Closed.append (hv : Closed v) (h : Closed u) : Closed (u ++ v) := by
  rcases hv with rfl | ⟨v, c, rfl, hc⟩
  · rwa [append_nil]
  · exact .inr ⟨u ++ v, c, (append_assoc _ _ _).symm, hc⟩

theorem exists_separator (h : Closed w) (hne : w ≠ []) : ∃ front c back, w = front ++ c :: back ∧
    (∀ d ∈ front, ¬ IsSeparator d) ∧ IsSeparator c ∧ Closed back := by
  induction w with
  | nil => exact (hne rfl).elim
  | cons c w ih =>
    have hrest : Closed w ∨ (w = [] ∧ IsSeparator c) := by
      rcases h with hnil | ⟨u, d, hu, hd⟩
      · cases hnil
      · cases u with
        | nil =>
          obtain ⟨rfl, rfl⟩ := List.cons.inj hu
          exact .inr ⟨rfl, hd⟩
        | cons e u =>
          obtain ⟨rfl, rfl⟩ := List.cons.inj hu
          exact .inl (.inr ⟨u, d, rfl, hd⟩)
    by_cases hc : IsSeparator c
    · refine ⟨[], c, w, rfl, fun _ hd => (not_mem_nil hd).elim, hc, ?_⟩
      rcases hrest with hclosed | ⟨rfl, -⟩
      · exact hclosed
      · exact .inl rfl
    · rcases hrest with hclosed | ⟨-, hsep⟩
      · have hw : w ≠ [] := by
          rintro rfl
          rcases h with hnil | ⟨u, d, hu, hd⟩
          · cases hnil
          · cases u with
            | nil =>
              obtain ⟨rfl, -⟩ := List.cons.inj hu
              exact hc hd
            | cons e u =>
              obtain ⟨-, hnil⟩ := List.cons.inj hu
              simp at hnil
        obtain ⟨front, d, back, rfl, hfront, hd, hback⟩ := ih hclosed hw
        exact ⟨c :: front, d, back, rfl, forall_mem_cons.mpr ⟨hc, hfront⟩, hd, hback⟩
      · exact (hc hsep).elim

theorem mem_globstar (h : FixesSeparators canonicalize) :
    w ∈ lang canonicalize (starsToRegExp 2 false) ↔ Closed w := by
  constructor
  · intro hw
    refine star_induction (p := Closed) (.inl rfl) (fun u v hu _ ih => ih.append ?_) hw
    rcases hu with hu | hu | hu
    · obtain ⟨c, rfl, hc⟩ := (mem_pathRegex h).mp hu
      exact .inr ⟨[], c, rfl, hc⟩
    · obtain ⟨u, -, v, hv, rfl⟩ := mem_seq.mp hu
      obtain ⟨c, rfl, hc⟩ := (mem_pathRegex h).mp hv
      exact .inr ⟨u, c, rfl, hc⟩
    · exact hu.elim
  · intro hw
    -- The separators are taken off one after the other.
    induction hlength : w.length using Nat.strong_induction_on generalizing w with
    | _ n ih =>
      by_cases hne : w = []
      · rw [hne]
        exact nil_mem_star
      · obtain ⟨front, c, back, rfl, hfront, hc, hback⟩ := exists_separator hw hne
        have hrest := ih back.length (by rw [← hlength]; simp; omega) hback rfl
        have hsep : [c] ∈ lang canonicalize pathRegex := (mem_pathRegex h).mpr ⟨c, rfl, hc⟩
        rw [show front ++ c :: back = (front ++ [c]) ++ back by simp]
        refine append_mem_star ?_ hrest
        by_cases hnil : front = []
        · rw [hnil]
          exact .inl hsep
        · exact .inr (.inl (mem_seq.mpr
            ⟨front, (mem_plus_noPathRegex h).mpr ⟨hnil, hfront⟩, [c], hsep, rfl⟩))

end Stars

end CodeOss.Glob
