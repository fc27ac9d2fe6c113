import Mathlib

/-! Runs of equal values along a line, each given by the position where it ends.
`expand` writes the values out one by one; cutting the runs is cutting the values. -/

universe u

variable {μ : Type u}

namespace Runs

open List

def ends (runs : List (ℕ × μ)) : List ℕ := runs.map Prod.fst

def stop (start : ℕ) : List (ℕ × μ) → ℕ
  | [] => start
  | run :: runs => stop run.1 runs

/-- The values of the runs, where the first run begins at `start`. -/
def expand (start : ℕ) : List (ℕ × μ) → List μ
  | [] => []
  | run :: runs => List.replicate (run.1 - start) run.2 ++ expand run.1 runs

def Ordered (start : ℕ) : List (ℕ × μ) → Prop
  | [] => True
  | run :: runs => start ≤ run.1 ∧ Ordered run.1 runs

/-- No run is empty, but for the first, which may be. -/
def Increasing (runs : List (ℕ × μ)) : Prop := (ends runs).Pairwise (· < ·)

instance (runs : List (ℕ × μ)) : Decidable (Increasing runs) :=
  inferInstanceAs (Decidable ((ends runs).Pairwise (· < ·)))

def moveLeft (delta : ℕ) (run : ℕ × μ) : ℕ × μ := (run.1 - delta, run.2)

def moveRight (delta : ℕ) (run : ℕ × μ) : ℕ × μ := (run.1 + delta, run.2)

@[simp] theorem stop_nil (start : ℕ) : stop start ([] : List (ℕ × μ)) = start := rfl

@[simp] theorem stop_cons (start : ℕ) (run : ℕ × μ) (runs : List (ℕ × μ)) :
    stop start (run :: runs) = stop run.1 runs := rfl

@[simp] theorem expand_nil (start : ℕ) : expand start ([] : List (ℕ × μ)) = [] := rfl

@[simp] theorem expand_cons (start : ℕ) (run : ℕ × μ) (runs : List (ℕ × μ)) :
    expand start (run :: runs) = List.replicate (run.1 - start) run.2 ++ expand run.1 runs := rfl

@[simp] theorem ordered_nil (start : ℕ) : Ordered start ([] : List (ℕ × μ)) := trivial

@[simp] theorem ordered_cons {start : ℕ} {run : ℕ × μ} {runs : List (ℕ × μ)} :
    Ordered start (run :: runs) ↔ start ≤ run.1 ∧ Ordered run.1 runs := Iff.rfl

theorem stop_append (start : ℕ) (runs rest : List (ℕ × μ)) :
    stop start (runs ++ rest) = stop (stop start runs) rest := by
  induction runs generalizing start with
  | nil => rfl
  | cons run runs ih => exact ih run.1

theorem expand_append (start : ℕ) (runs rest : List (ℕ × μ)) :
    expand start (runs ++ rest) = expand start runs ++ expand (stop start runs) rest := by
  induction runs generalizing start with
  | nil => rfl
  | cons run runs ih =>
    rw [cons_append, expand_cons, ih, expand_cons, stop_cons, append_assoc]

variable {start : ℕ} {runs : List (ℕ × μ)}

theorem ordered_append {rest : List (ℕ × μ)} :
    Ordered start (runs ++ rest) ↔ Ordered start runs ∧ Ordered (stop start runs) rest := by
  induction runs generalizing start with
  | nil => simp
  | cons run runs ih => rw [cons_append, ordered_cons, ih, ordered_cons, stop_cons, and_assoc]

theorem Ordered.le_stop (h : Ordered start runs) : start ≤ stop start runs := by
  induction runs generalizing start with
  | nil => exact le_rfl
  | cons run runs ih => exact h.1.trans (ih h.2)

theorem Ordered.length_expand (h : Ordered start runs) :
    (expand start runs).length = stop start runs - start := by
  induction runs generalizing start with
  | nil => simp
  | cons run runs ih =>
    have hle := h.2.le_stop
    have hstart := h.1
    rw [expand_cons, length_append, length_replicate, ih h.2, stop_cons]
    omega

theorem Increasing.ordered (h : Increasing runs) (hstart : ∀ e ∈ ends runs, start ≤ e) :
    Ordered start runs := by
  induction runs generalizing start with
  | nil => trivial
  | cons run runs ih =>
    obtain ⟨hhead, htail⟩ := pairwise_cons.1 h
    exact ⟨hstart _ mem_cons_self, ih htail fun e he => (hhead e he).le⟩

theorem Increasing.ordered_zero (h : Increasing runs) : Ordered 0 runs :=
  h.ordered fun _ _ => Nat.zero_le _

theorem le_stop_of_mem (h : Ordered start runs) {e : ℕ} (he : e ∈ ends runs) :
    e ≤ stop start runs := by
  induction runs generalizing start with
  | nil => exact absurd he not_mem_nil
  | cons run runs ih =>
    rcases mem_cons.1 he with rfl | he
    · exact h.2.le_stop
    · exact ih h.2 he

theorem expand_moveLeft {delta start : ℕ} {runs : List (ℕ × μ)} (hle : delta ≤ start) :
    Ordered start runs → expand (start - delta) (runs.map (moveLeft delta)) = expand start
    runs := by
  induction runs generalizing start with
  | nil => exact fun _ => rfl
  | cons run runs ih =>
    intro h
    have hrun := h.1
    rw [List.map_cons, expand_cons, expand_cons, ← ih (hle.trans hrun) h.2]
    simp only [moveLeft]
    congr 2
    omega

theorem stop_moveLeft (delta start : ℕ) (runs : List (ℕ × μ)) :
    stop (start - delta) (runs.map (moveLeft delta)) = stop start runs - delta := by
  induction runs generalizing start with
  | nil => rfl
  | cons run runs ih => exact ih run.1

theorem ends_moveLeft (delta : ℕ) (runs : List (ℕ × μ)) :
    ends (runs.map (moveLeft delta)) = (ends runs).map (· - delta) := by
  simp only [ends, List.map_map]
  rfl

theorem expand_moveRight (delta start : ℕ) (runs : List (ℕ × μ)) :
    expand (start + delta) (runs.map (moveRight delta)) = expand start runs := by
  induction runs generalizing start with
  | nil => rfl
  | cons run runs ih =>
    rw [map_cons, expand_cons, expand_cons, ← ih run.1]
    simp only [moveRight, Nat.add_sub_add_right]

theorem stop_moveRight (delta start : ℕ) (runs : List (ℕ × μ)) :
    stop (start + delta) (runs.map (moveRight delta)) = stop start runs + delta := by
  induction runs generalizing start with
  | nil => rfl
  | cons run runs ih => exact ih run.1

theorem ends_moveRight (delta : ℕ) (runs : List (ℕ × μ)) :
    ends (runs.map (moveRight delta)) = (ends runs).map (· + delta) := by
  simp only [ends, List.map_map]
  rfl

theorem Increasing.moveRight (h : Increasing runs) (delta : ℕ) :
    Increasing (runs.map (moveRight delta)) := by
  rw [Increasing, ends_moveRight, pairwise_map]
  exact List.Pairwise.imp (fun h => Nat.add_lt_add_right h delta) h

theorem expand_grow {delta : ℕ} {run : ℕ × μ} (runs : List (ℕ × μ)) (hle : start ≤ run.1) :
    expand start ((run :: runs).map (moveRight delta)) =
      List.replicate delta run.2 ++ expand start (run :: runs) := by
  rw [map_cons, expand_cons, expand_cons, ← append_assoc, ← replicate_add]
  congr 1
  · simp only [moveRight]
    congr 1
    omega
  · exact expand_moveRight delta run.1 runs

/-- What is left of the runs when everything before `last + delta` goes and the rest moves
to `last`. -/
def trim (delta last : ℕ) : List (ℕ × μ) → List (ℕ × μ)
  | [] => []
  | run :: runs =>
    if last < run.1 - delta then (run.1 - delta, run.2) :: trim delta (run.1 - delta) runs
    else trim delta last runs

theorem trim_eq_moveLeft {delta start : ℕ} {runs : List (ℕ × μ)} (h : Increasing runs)
    (hstart : ∀ e ∈ ends runs, start < e) (hle : delta ≤ start) :
    trim delta (start - delta) runs = runs.map (moveLeft delta) := by
  induction runs generalizing start with
  | nil => rfl
  | cons run runs ih =>
    obtain ⟨hhead, htail⟩ := List.pairwise_cons.1 h
    have hrun := hstart run.1 List.mem_cons_self
    rw [trim, if_pos (by omega), List.map_cons, ih htail hhead (hle.trans hrun.le)]
    rfl

theorem trim_spec {delta last start : ℕ} {runs : List (ℕ × μ)} (h : Increasing runs)
    (hstart : ∀ e ∈ ends runs, start < e) (hle : start ≤ last + delta) :
    expand last (trim delta last runs) = (expand start runs).drop (last + delta - start) ∧
      stop last (trim delta last runs) = max last (stop start runs - delta) ∧
      Increasing (trim delta last runs) ∧ ∀ e ∈ ends (trim delta last runs), last < e := by
  induction runs generalizing start with
  | nil =>
    refine ⟨?_, ?_, List.Pairwise.nil, fun e he => absurd he List.not_mem_nil⟩
    · rw [trim, expand_nil, expand_nil, List.drop_nil]
    · rw [trim, stop_nil, stop_nil]
      omega
  | cons run runs ih =>
    obtain ⟨hhead, htail⟩ := List.pairwise_cons.1 h
    have hrun := hstart run.1 List.mem_cons_self
    have hordered : Ordered run.1 runs :=
      Increasing.ordered htail fun e he => (hhead e he).le
    have hstop := hordered.le_stop
    rw [trim]
    split_ifs with hlast
    · have hmoved := @trim_eq_moveLeft _ delta run.1 runs htail hhead (by omega)
      refine ⟨?_, ?_, ?_, ?_⟩
      · rw [expand_cons, hmoved, expand_moveLeft (by omega) hordered, expand_cons,
          List.drop_append_of_le_length (by rw [List.length_replicate]; omega),
          List.drop_replicate]
        congr 2
        omega
      · rw [stop_cons, hmoved, stop_moveLeft, stop_cons]
        omega
      · rw [hmoved, Increasing, ends, List.map_cons, List.pairwise_cons, ← ends, ends_moveLeft]
        refine ⟨fun e he => ?_, ?_⟩
        · obtain ⟨e', he', rfl⟩ := List.mem_map.1 he
          have := hhead e' he'
          omega
        · rw [List.pairwise_map]
          refine List.Pairwise.imp_of_mem (fun ha hb hab => ?_) htail
          have := hhead _ ha
          omega
      · intro e he
        rcases List.mem_cons.1 he with rfl | he
        · exact hlast
        · rw [hmoved, ← ends, ends_moveLeft] at he
          obtain ⟨e', he', rfl⟩ := List.mem_map.1 he
          have := hhead e' he'
          omega
    · obtain ⟨hexpand, hstop', hincreasing, hends⟩ := ih htail hhead (by omega)
      refine ⟨?_, hstop', hincreasing, hends⟩
      rw [hexpand, expand_cons, List.drop_append, List.length_replicate, List.drop_replicate,
        show run.1 - start - (last + delta - start) = 0 by omega, List.replicate_zero,
        List.nil_append]
      congr 1
      omega

end Runs
