import CodeOss.Folding.IndentRanges
import CodeOss.Library.Cut

/-! The ranges of a scan are disjoint or nested, whatever the markers are, and without markers they
are the indented blocks. -/

namespace CodeOss.Folding

open RangesCollector Scan List Option

namespace Scan

variable {n line : ℕ} {regions : List PreviousRegion} {ranges : List (ℕ × ℕ)}

/-- What holds of the open regions and the ranges when the lines from `line` on have been read. -/
structure Nested (n line : ℕ) (regions : List PreviousRegion) (ranges : List (ℕ × ℕ)) :
    Prop where
  valid : ∀ range ∈ ranges, line ≤ range.1 ∧ range.1 < range.2 ∧ range.2 ≤ n
  pairwise : ranges.Pairwise fun a b => a.1 < b.1 ∧ (a.2 < b.1 ∨ b.2 ≤ a.2)
  above : ∀ region ∈ regions, line ≤ region.endAbove ∧ region.endAbove ≤ n + 1
  apart : ∀ region ∈ regions, ∀ range ∈ ranges,
    region.endAbove ≤ range.1 ∨ range.2 < region.endAbove
  inward : regions.Pairwise fun upper lower => upper.endAbove ≤ lower.endAbove ∧
    (upper.indent = -2 → upper.line < lower.endAbove)
  markers : ∀ region ∈ regions, region.indent = -2 →
    region.endAbove ≤ region.line ∧ region.line ≤ n ∧
      ∀ range ∈ ranges, region.line < range.1 ∨ range.2 ≤ region.line

theorem nested_start (hline : line ≤ n + 1) : Nested n line [⟨-1, n + 1, n + 1⟩] [] :=
  ⟨by simp, List.Pairwise.nil, by simpa using hline, by simp, pairwise_singleton _ _,
    by simp⟩

theorem Nested.mono (h : Nested n (line + 1) regions ranges) : Nested n line regions ranges := by
  refine ⟨fun range hrange => ?_, h.pairwise, fun region hregion => ?_, h.apart, h.inward,
    h.markers⟩
  · obtain ⟨hle, hrest⟩ := h.valid range hrange
    exact ⟨(Nat.le_succ line).trans hle, hrest⟩
  · obtain ⟨hle, hrest⟩ := h.above region hregion
    exact ⟨(Nat.le_succ line).trans hle, hrest⟩

section

variable (h : Nested n line regions ranges)
include h

theorem Nested.drop {rest : List PreviousRegion}
    (hrest : rest.Sublist regions) : Nested n line rest ranges :=
  ⟨h.valid, h.pairwise, fun region hregion => h.above region (hrest.subset hregion),
    fun region hregion => h.apart region (hrest.subset hregion), h.inward.sublist hrest,
    fun region hregion => h.markers region (hrest.subset hregion)⟩

theorem Nested.push {region : PreviousRegion} (hline : line ≤ n)
    (habove : region.endAbove = line) (hmarker : region.indent = -2 → region.line =
    line ∧ (∀ other ∈ regions, line < other.endAbove) ∧ ∀ range ∈ ranges, line < range.1) :
    Nested n line (region :: regions) ranges := by
  refine ⟨h.valid, h.pairwise, ?_, ?_, pairwise_cons.2 ⟨fun other hother => ⟨?_, ?_⟩, h.inward⟩, ?_⟩
  · intro other hother
    rcases mem_cons.1 hother with rfl | hother
    · omega
    · exact h.above other hother
  · intro other hother range hrange
    rcases mem_cons.1 hother with rfl | hother
    · exact Or.inl (habove.trans_le (h.valid range hrange).1)
    · exact h.apart other hother range hrange
  · exact habove.trans_le (h.above other hother).1
  · intro hindent
    obtain ⟨hmark, hothers, -⟩ := hmarker hindent
    exact hmark.trans_lt (hothers other hother)
  · intro other hother hindent
    rcases mem_cons.1 hother with rfl | hother
    · obtain ⟨hmark, -, hranges⟩ := hmarker hindent
      exact ⟨(habove.trans hmark.symm).le, hmark.trans_le hline, fun range hrange =>
        Or.inl (hmark.trans_lt (hranges range hrange))⟩
    · exact h.markers other hother hindent

theorem Nested.endTop (hline : line ≤ n) : Nested n line (endTop line regions) ranges := by
  cases regions with
  | nil => exact h
  | cons top below =>
    obtain ⟨hlower, hinward⟩ := pairwise_cons.1 h.inward
    have htop := h.above top mem_cons_self
    refine ⟨h.valid, h.pairwise, ?_, ?_, pairwise_cons.2
      ⟨fun other hother => ⟨?_, (hlower other hother).2⟩, hinward⟩, ?_⟩
    · intro other hother
      rcases mem_cons.1 hother with rfl | hother
      · exact ⟨le_rfl, hline.trans (Nat.le_succ n)⟩
      · exact h.above other (mem_cons_of_mem top hother)
    · intro other hother range hrange
      rcases mem_cons.1 hother with rfl | hother
      · exact Or.inl (h.valid range hrange).1
      · exact h.apart other (mem_cons_of_mem top hother) range hrange
    · exact (h.above other (mem_cons_of_mem top hother)).1
    · intro other hother hindent
      rcases mem_cons.1 hother with rfl | hother
      · obtain ⟨hends, hrest⟩ := h.markers top mem_cons_self hindent
        exact ⟨htop.1.trans hends, hrest⟩
      · exact h.markers other (mem_cons_of_mem top hother) hindent

end

theorem Nested.insert (h : Nested n (line + 1) regions ranges)
    {endLineNumber : ℕ} (hlt : line < endLineNumber) (hle : endLineNumber ≤ n)
    (hranges : ∀ range ∈ ranges, endLineNumber < range.1 ∨ range.2 ≤ endLineNumber)
    (hregions : ∀ region ∈ regions, endLineNumber < region.endAbove ∧ (region.indent = -2 →
    endLineNumber ≤ region.line)) : Nested n line regions ((line, endLineNumber) :: ranges) := by
  refine ⟨?_, List.pairwise_cons.2 ⟨fun range hrange => ⟨?_, hranges range hrange⟩, h.pairwise⟩,
    h.mono.above, ?_, h.inward, fun region hregion hindent => ?_⟩
  · intro range hrange
    rcases List.mem_cons.1 hrange with rfl | hrange
    · exact ⟨le_rfl, hlt, hle⟩
    · exact h.mono.valid range hrange
  · exact (h.valid range hrange).1
  · intro region hregion range hrange
    rcases List.mem_cons.1 hrange with rfl | hrange
    · exact Or.inr (hregions region hregion).1
    · exact h.apart region hregion range hrange
  · obtain ⟨hends, hrest, hmarkers⟩ := h.markers region hregion hindent
    refine ⟨hends, hrest, fun range hrange => ?_⟩
    rcases List.mem_cons.1 hrange with rfl | hrange
    · exact Or.inr ((hregions region hregion).2 hindent)
    · exact hmarkers range hrange

variable {scan : Scan}

theorem insertFirst_ranges (collector : RangesCollector) {first last : ℕ} (indent : ℤ)
    (hfirst : first ≤ MAX_LINE_NUMBER.toNat) (hlast : last ≤ MAX_LINE_NUMBER.toNat) :
    (collector.insertFirst first last indent).ranges = (first, last) :: collector.ranges := by
  rw [insertFirst, if_neg (by omega)]

variable {indent : ℤ}

theorem Nested.enter (h : Nested n line regions ranges) (hline : line ≤ n) (hindent : indent ≠ -2) :
    Nested n line (enter line indent regions) ranges := by
  rw [Scan.enter]
  split_ifs
  · exact h.endTop hline
  · exact h.push hline rfl fun heq => absurd heq hindent

section

variable (h : Nested n (line + 1) scan.previousRegions scan.result.ranges)
include h

theorem Nested.regular
    (hn : n ≤ MAX_LINE_NUMBER.toNat) (hline : line ≤ n) (hindent : indent ≠ -2) : Nested n line
    (scan.regular line indent).previousRegions (scan.regular line indent).result.ranges := by
  rw [Scan.regular]
  have hsub := dropWhile_sublist (l := scan.previousRegions)
    fun previous => decide (previous.indent > indent)
  have hdrop := h.drop hsub
  dsimp only
  refine Nested.enter ?_ hline hindent
  split_ifs with hrange
  · obtain ⟨-, hlength⟩ := hrange
    cases hregions : scan.previousRegions.dropWhile fun previous =>
        decide (previous.indent > indent) with
    | nil =>
      rw [hregions] at hlength
      simp only [head?_nil, elim_none] at hlength
      omega
    | cons previous below =>
      rw [hregions] at hlength hdrop
      simp only [head?_cons, elim_some] at hlength ⊢
      have habove := hdrop.above previous mem_cons_self
      have hlast : ((previous.endAbove : ℤ) - 1).toNat = previous.endAbove - 1 := by omega
      rw [hlast, insertFirst_ranges _ _ (by omega) (by omega)]
      refine hdrop.insert (by omega) (by omega) (fun range hrange => ?_) fun region hregion => ?_
      · have hapart := hdrop.apart previous mem_cons_self range hrange
        omega
      · have hends : previous.endAbove ≤ region.endAbove := by
          rcases mem_cons.1 hregion with rfl | hbelow
          · exact le_rfl
          · exact ((pairwise_cons.1 hdrop.inward).1 region hbelow).1
        refine ⟨by omega, fun hmark => ?_⟩
        have hmarker := (hdrop.markers region hregion hmark).1
        omega
  · exact hdrop.mono

theorem Nested.round (hn : n ≤ MAX_LINE_NUMBER.toNat) (hline : line ≤ n) (offSide : Bool)
    (marker : Option MarkerMatch) (hindent : -1 ≤ indent) : Nested n line (scan.round offSide
    marker line indent).previousRegions (scan.round offSide marker line indent).result.ranges := by
  have hregular := h.regular hn hline (show indent ≠ -2 by omega)
  rw [Scan.round.eq_def]
  split_ifs with hblank hside
  · exact h.mono.endTop hline
  · exact h.mono
  · cases marker with
    | none => exact hregular
    | some found =>
      cases found with
      | fin =>
        exact h.mono.push hline rfl fun _ => ⟨rfl, fun other hother => (h.above other hother).1,
          fun range hrange => (h.valid range hrange).1⟩
      | start =>
        dsimp only
        split
        · next previous below hregions =>
          split_ifs with hbelow
          · have hsub := dropWhile_sublist (l := scan.previousRegions)
              fun previous => decide (previous.indent ≠ -2)
            have hmark : previous.indent = -2 := by
              have hhead := head?_dropWhile_not
                (fun previous : PreviousRegion => decide (previous.indent ≠ -2))
                scan.previousRegions
              rw [hregions] at hhead
              simpa using hhead
            rw [hregions] at hsub
            have hdrop := h.drop hsub
            obtain ⟨hends, hlast, hranges⟩ := hdrop.markers previous mem_cons_self hmark
            have habove := hdrop.above previous mem_cons_self
            obtain ⟨hlower, -⟩ := pairwise_cons.1 hdrop.inward
            have hrest := hdrop.drop (sublist_cons_self previous below)
            rw [insertFirst_ranges _ _ (by omega) (by omega)]
            refine Nested.push (hrest.insert (by omega) hlast hranges fun region hregion =>
              ⟨(hlower region hregion).2 hmark, fun hmark' => ?_⟩) hline rfl
              fun heq : indent = -2 => absurd heq (by omega)
            have hbehind := (hlower region hregion).2 hmark
            have hmarker := (hrest.markers region hregion hmark').1
            omega
          · exact hregular
        · exact hregular

end

theorem le_computeIndentLevel (content : JsString) (tabSize : ℕ) :
    -1 ≤ computeIndentLevel content tabSize := by
  have hgo : ∀ indent, -1 ≤ computeIndentLevel.go tabSize indent content := by
    induction content with
    | nil => exact fun indent => le_rfl
    | cons chCode rest ih =>
      intro indent
      rw [computeIndentLevel.go]
      split_ifs
      · exact ih _
      · exact ih _
      · omega
  exact hgo 0

theorem lines_nested (tabSize : ℕ) (offSide : Bool) (markers : JsString → Option MarkerMatch)
    (rest : List JsString) {line n : ℕ} (hn : n ≤ MAX_LINE_NUMBER.toNat)
    (hline : line + rest.length = n + 1) : Nested n line (Scan.lines tabSize offSide markers n
    line rest).previousRegions (Scan.lines tabSize offSide markers n line rest).result.ranges := by
  induction rest generalizing line with
  | nil => exact nested_start hline.le
  | cons content rest ih =>
    rw [length_cons] at hline
    exact (ih (by omega)).round hn (by omega) offSide _ (le_computeIndentLevel content tabSize)

theorem collect_nestedRanges (model : List JsString) (tabSize : ℕ) (offSide : Bool)
    (markers : JsString → Option MarkerMatch) (hn : model.length ≤ MAX_LINE_NUMBER.toNat) :
    NestedRanges model.length (collect model tabSize offSide markers).ranges := by
  have hnested : Nested model.length 1 _ (collect model tabSize offSide markers).ranges :=
    lines_nested tabSize offSide markers model hn (Nat.add_comm 1 _)
  exact ⟨hnested.valid, hnested.pairwise⟩

end Scan

section Reach

variable {offSide : Bool} {indent other : ℤ} {behind : List ℤ}

/-- The lines of a block before blank ones are taken off its end. -/
def block (indent : ℤ) (behind : List ℤ) : List ℤ :=
  behind.takeWhile fun other => other = -1 || indent < other

theorem reach_eq : reach offSide indent behind =
    (if offSide then (block indent behind).rdropWhile (· = -1) else block indent behind).length :=
  rfl

theorem reach_stop (hother : other ≠ -1) (hle : other ≤ indent) :
    reach offSide indent (other :: behind) = 0 := by
  have hblock : block indent (other :: behind) = [] :=
    takeWhile_cons_of_neg (by simpa [hother] using hle)
  rw [reach_eq, hblock]
  cases offSide <;> rfl

theorem reach_deeper (hother : other ≠ -1) (hlt : indent < other) :
    reach offSide indent (other :: behind) = reach offSide indent behind + 1 := by
  have hblock : block indent (other :: behind) = other :: block indent behind :=
    takeWhile_cons_of_pos (by simp [hlt])
  rw [reach_eq, reach_eq, hblock]
  cases offSide with
  | false => rfl
  | true =>
    by_cases hnil : (block indent behind).rdropWhile (· = -1) = []
    · have hall := rdropWhile_eq_nil_iff.1 hnil
      have hdrop := List.rdropWhile_append_of_forall (s := [other]) hall
      rw [singleton_append, rdropWhile_singleton, if_neg (by simpa using hother)] at hdrop
      simp [hdrop, hnil]
    · have hdrop := List.rdropWhile_append_of_ne_nil (s := [other]) hnil
      rw [singleton_append] at hdrop
      simp [hdrop]

theorem block_blank : block indent (-1 :: behind) = -1 :: block indent behind :=
  takeWhile_cons_of_pos (by simp)

theorem next_mem_block (h : ∃ next ∈ (behind.dropWhile (· = -1)).head?, indent < next) :
    ∃ next ∈ block indent behind, next ≠ -1 := by
  induction behind with
  | nil => exact absurd h (by simp)
  | cons other behind ih =>
    by_cases hother : other = -1
    · subst hother
      rw [dropWhile_cons_of_pos (by simp)] at h
      obtain ⟨next, hnext, hne⟩ := ih h
      rw [block_blank]
      exact ⟨next, mem_cons_of_mem _ hnext, hne⟩
    · rw [dropWhile_cons_of_neg (by simpa using hother)] at h
      obtain ⟨next, hnext, hlt⟩ := h
      obtain rfl : other = next := some_inj.1 hnext
      refine ⟨other, ?_, hother⟩
      rw [block, takeWhile_cons_of_pos (by simp [hlt])]
      exact mem_cons_self

theorem block_blank_of_le (h : ∀ next ∈ (behind.dropWhile (· = -1)).head?, next ≤ indent) :
    ∀ other ∈ block indent behind, other = -1 := by
  induction behind with
  | nil => exact fun other hother => absurd hother (by simp [block])
  | cons first behind ih =>
    by_cases hfirst : first = -1
    · subst hfirst
      rw [dropWhile_cons_of_pos (by simp)] at h
      intro other hother
      rw [block_blank] at hother
      rcases mem_cons.1 hother with rfl | hother
      · rfl
      · exact ih h other hother
    · rw [dropWhile_cons_of_neg (by simpa using hfirst)] at h
      have hle := h first rfl
      rw [block, takeWhile_cons_of_neg (by simpa [hfirst] using hle)]
      exact fun other hother => absurd hother (by simp)

section

variable (h : ∃ next ∈ (behind.dropWhile (· = -1)).head?, indent < next)
include h

theorem trimmed_ne_nil : (block indent behind).rdropWhile (· = -1) ≠ [] := by
  obtain ⟨next, hnext, hne⟩ := next_mem_block h
  exact fun hnil => hne (by simpa using rdropWhile_eq_nil_iff.1 hnil next hnext)

theorem reach_pos : 0 < reach offSide indent behind := by
  rw [reach_eq]
  cases offSide with
  | false =>
    obtain ⟨next, hnext, -⟩ := next_mem_block h
    exact length_pos_of_mem hnext
  | true => exact length_pos_of_ne_nil (trimmed_ne_nil h)

end

theorem reach_blank
    (h : offSide = true → ∃ next ∈ (behind.dropWhile (· = -1)).head?, indent < next) :
    reach offSide indent (-1 :: behind) = reach offSide indent behind + 1 := by
  rw [reach_eq, reach_eq, block_blank]
  cases offSide with
  | false => rfl
  | true =>
    have hdrop := List.rdropWhile_append_of_ne_nil (s := [-1]) (trimmed_ne_nil (h rfl))
    rw [singleton_append] at hdrop
    simp [hdrop]

theorem reach_blank_end (h : ∀ next ∈ (behind.dropWhile (· = -1)).head?, next ≤ indent) :
    reach true indent (-1 :: behind) = 0 := by
  have hall : ∀ other ∈ block indent (-1 :: behind), other = -1 := by
    rw [block_blank]
    intro other hother
    rcases mem_cons.1 hother with rfl | hother
    · rfl
    · exact block_blank_of_le h other hother
  rw [reach_eq, if_pos rfl, rdropWhile_eq_nil_iff.2 fun other hother => by
    simpa using hall other hother, length_nil]

theorem reach_le (offSide : Bool) (indent : ℤ) (behind : List ℤ) :
    reach offSide indent behind ≤ behind.length := by
  have hblock : (block indent behind).length ≤ behind.length :=
    (takeWhile_sublist _).length_le
  rw [reach_eq]
  cases offSide with
  | false => exact hblock
  | true => exact ( rdropWhile_prefix _ _).length_le.trans hblock

end Reach

namespace Scan

variable {offSide : Bool} {line n : ℕ} {regions : List PreviousRegion} {behind : List ℤ}

/-- The stack says how far a line would reach that came before those read: the indents go down, the
first one is that of the next line, and the ends are those of the reaches. -/
structure Follows (offSide : Bool) (line : ℕ) (regions : List PreviousRegion)
    (behind : List ℤ) : Prop where
  sorted : regions.Pairwise fun upper lower => lower.indent < upper.indent
  first : ∃ top ∈ regions.head?,
    top.indent = ((behind.dropWhile (· = -1)).head?).getD (-1)
  ends : ∀ indent : ℤ, 0 ≤ indent →
    ∃ region ∈ (regions.dropWhile fun previous => previous.indent > indent).head?,
      region.endAbove = line + reach offSide indent behind

theorem follows_start (offSide : Bool) (line : ℕ) : Follows offSide line [⟨-1, line, line⟩] [] := by
  refine ⟨pairwise_singleton _ _, ⟨_, rfl, rfl⟩,
    fun indent hindent => ⟨⟨-1, line, line⟩, ?_, ?_⟩⟩
  · rw [dropWhile_cons_of_neg (by simp; omega)]
    rfl
  · cases offSide <;> rfl

variable {indent : ℤ}

theorem Follows.popped (h : Follows offSide line regions behind) (hindent : 0 ≤ indent) :
    ∃ region below, (regions.dropWhile fun previous => previous.indent > indent) = region :: below ∧
      region.indent ≤ indent ∧ region.endAbove = line + reach offSide indent behind := by
  obtain ⟨region, hregion, hend⟩ := h.ends indent hindent
  cases hpopped : regions.dropWhile fun previous => decide (previous.indent > indent) with
  | nil => simp [hpopped] at hregion
  | cons top below =>
    rw [hpopped] at hregion
    obtain rfl : top = region := some_inj.1 hregion
    have hhead := head?_dropWhile_not
      (fun previous : PreviousRegion => decide (previous.indent > indent)) regions
    rw [hpopped] at hhead
    exact ⟨top, below, rfl, by simpa using hhead, hend⟩

theorem Follows.text (h : Follows offSide (line + 1) regions behind) (hindent : 0 ≤ indent) :
    Follows offSide line (enter line indent
    (regions.dropWhile fun previous => previous.indent > indent)) (indent :: behind) := by
  have hne : indent ≠ -1 := by omega
  obtain ⟨region, below, hpopped, hle, -⟩ := h.popped hindent
  have hsorted : (region :: below).Pairwise fun upper lower => lower.indent < upper.indent :=
    hpopped ▸ h.sorted.sublist (dropWhile_sublist _)
  -- the new top has the line's indent, and smaller indents are looked up behind it
  have hfollows : ∀ (top : PreviousRegion) (rest : List PreviousRegion), top.indent = indent →
      top.endAbove = line →
      (top :: rest).Pairwise (fun upper lower => lower.indent < upper.indent) →
      (∀ smaller < indent, (rest.dropWhile fun previous => decide (previous.indent > smaller)) =
        regions.dropWhile fun previous => decide (previous.indent > smaller)) →
      Follows offSide line (top :: rest) (indent :: behind) := by
    intro top rest htop hend hpairs hrest
    refine ⟨hpairs, ⟨top, rfl, ?_⟩, fun other hother => ?_⟩
    · rw [dropWhile_cons_of_neg (by simpa using hne)]
      exact htop
    · rcases lt_or_ge other indent with hlt | hge
      · obtain ⟨found, hfound, hends⟩ := h.ends other hother
        rw [dropWhile_cons_of_pos (by simpa [htop] using hlt), hrest other hlt]
        refine ⟨found, hfound, ?_⟩
        rw [hends, reach_deeper hne hlt]
        omega
      · rw [dropWhile_cons_of_neg (by simpa [htop] using hge)]
        exact ⟨top, rfl, by rw [hend, reach_stop hne hge, Nat.add_zero]⟩
  have hsmaller : ∀ smaller < indent,
      ((region :: below).dropWhile fun previous => decide (previous.indent > smaller)) =
        regions.dropWhile fun previous => decide (previous.indent > smaller) := by
    intro smaller hlt
    rw [← hpopped]
    exact List.dropWhile_dropWhile (fun previous hprevious => by
      simp only [decide_eq_true_eq] at hprevious ⊢
      omega) regions
  rw [hpopped, enter]
  split_ifs with hsame
  · obtain ⟨previous, hprevious, hsame⟩ := hsame
    obtain rfl : region = previous := some_inj.1 hprevious
    refine hfollows { region with endAbove := line } below hsame rfl
      (pairwise_cons.2 (pairwise_cons.1 hsorted)) fun smaller hlt => ?_
    rw [← hsmaller smaller hlt, dropWhile_cons_of_pos (by simpa [hsame] using hlt)]
  · have hlt : region.indent < indent :=
      hle.lt_of_ne fun heq => hsame ⟨region, rfl, heq⟩
    refine hfollows ⟨indent, line, line⟩ (region :: below) rfl rfl
      (pairwise_cons.2 ⟨fun other hother => ?_, hsorted⟩) hsmaller
    rcases mem_cons.1 hother with rfl | hother
    · exact hlt
    · exact ((pairwise_cons.1 hsorted).1 other hother).trans hlt

theorem Follows.blank (h : Follows false (line + 1) regions behind) :
    Follows false line regions (-1 :: behind) := by
  refine ⟨h.sorted, ?_, fun indent hindent => ?_⟩
  · rw [dropWhile_cons_of_pos (by simp)]
    exact h.first
  · obtain ⟨region, hregion, hend⟩ := h.ends indent hindent
    refine ⟨region, hregion, ?_⟩
    rw [hend, reach_blank (by simp)]
    omega

theorem Follows.blankOffSide (h : Follows true (line + 1) regions behind) :
    Follows true line (endTop line regions) (-1 :: behind) := by
  obtain ⟨top, htop, hfirst⟩ := h.first
  cases regions with
  | nil => exact absurd htop (by simp)
  | cons head below =>
    obtain rfl : head = top := some_inj.1 htop
    refine ⟨pairwise_cons.2 (pairwise_cons.1 h.sorted), ⟨_, rfl, ?_⟩,
      fun indent hindent => ?_⟩
    · rw [dropWhile_cons_of_pos (by simp)]
      exact hfirst
    · rcases lt_or_ge indent head.indent with hlt | hge
      · obtain ⟨region, hregion, hend⟩ := h.ends indent hindent
        rw [dropWhile_cons_of_pos (by simpa using hlt)] at hregion
        rw [Scan.endTop, dropWhile_cons_of_pos (by simpa using hlt)]
        refine ⟨region, hregion, ?_⟩
        rw [hend, reach_blank fun _ => ?_]
        · omega
        · cases hnext : (behind.dropWhile (· = -1)).head? with
          | none =>
            rw [hnext] at hfirst
            simp only [getD_none] at hfirst
            omega
          | some next =>
            rw [hnext, getD_some] at hfirst
            exact ⟨next, rfl, hfirst ▸ hlt⟩
      · rw [Scan.endTop, dropWhile_cons_of_neg (by simpa using hge)]
        refine ⟨_, rfl, ?_⟩
        rw [reach_blank_end fun next hnext => ?_, Nat.add_zero]
        rw [hnext, getD_some] at hfirst
        exact hfirst ▸ hge

theorem Follows.deeper (h : Follows offSide line regions behind) (hindent : 0 ≤ indent) :
    (∃ previous ∈ regions.head?, previous.indent > indent) ↔
      ∃ next ∈ (behind.dropWhile (· = -1)).head?, indent < next := by
  obtain ⟨top, htop, hfirst⟩ := h.first
  rw [mem_def] at htop
  rw [htop]
  cases hnext : (behind.dropWhile (· = -1)).head? with
  | none =>
    rw [hnext, getD_none] at hfirst
    simp [hfirst]
    omega
  | some next =>
    rw [hnext, getD_some] at hfirst
    simp [hfirst]

theorem Follows.regular {scan : Scan} (h : Follows offSide (line + 1) scan.previousRegions behind)
    (hline : line + behind.length ≤ n) (hn : n ≤ MAX_LINE_NUMBER.toNat) (hindent : 0 ≤ indent) :
    Follows offSide line (scan.regular line indent).previousRegions (indent :: behind) ∧
      (scan.result.ranges = blocks offSide (line + 1) behind →
        (scan.regular line indent).result.ranges = blocks offSide line (indent :: behind)) := by
  refine ⟨h.text hindent, fun hranges => ?_⟩
  obtain ⟨region, below, hpopped, -, hend⟩ := h.popped hindent
  have hne : indent ≠ -1 := by omega
  have hreach := reach_le offSide indent behind
  rw [Scan.regular, blocks]
  simp only [hpopped, head?_cons, elim_some, h.deeper hindent, hend, hne, ne_eq,
    not_false_eq_true, true_and]
  by_cases hdeeper : ∃ next ∈ (behind.dropWhile (· = -1)).head?, indent < next
  · have hpos : 0 < reach offSide indent behind := reach_pos hdeeper
    have hlast : (((line + 1 + reach offSide indent behind : ℕ) : ℤ) - 1).toNat =
        line + reach offSide indent behind := by omega
    rw [if_pos ⟨hdeeper, by omega⟩, if_pos hdeeper, hlast,
      insertFirst_ranges _ _ (by omega) (by omega), hranges]
  · rw [if_neg fun hboth => hdeeper hboth.1, if_neg hdeeper, hranges]

theorem lines_follows {tabSize : ℕ} (offSide : Bool) {markers : JsString → Option MarkerMatch}
    (rest : List JsString) (hmarkers : ∀ content ∈ rest, markers content = none)
    (hn : n ≤ MAX_LINE_NUMBER.toNat) (hline : line + rest.length = n + 1) :
    Follows offSide line (Scan.lines tabSize offSide markers n line rest).previousRegions
    (rest.map (computeIndentLevel · tabSize)) ∧ (Scan.lines tabSize offSide markers
    n line rest).result.ranges = blocks offSide line (rest.map (computeIndentLevel · tabSize)) := by
  induction rest generalizing line with
  | nil =>
    obtain rfl : line = n + 1 := hline
    exact ⟨follows_start offSide (n + 1), rfl⟩
  | cons content rest ih =>
    rw [length_cons] at hline
    obtain ⟨hmarker, hmarkers⟩ := forall_mem_cons.1 hmarkers
    obtain ⟨hfollows, hranges⟩ := ih hmarkers (show line + 1 + rest.length = n + 1 by omega)
    have hlevel := le_computeIndentLevel content tabSize
    rw [Scan.lines, hmarker, map_cons]
    by_cases hblank : computeIndentLevel content tabSize = -1
    · rw [hblank, blocks, if_neg fun hboth => hboth.1 rfl]
      cases offSide with
      | false => exact ⟨hfollows.blank, hranges⟩
      | true => exact ⟨hfollows.blankOffSide, hranges⟩
    · rw [round, if_neg hblank]
      obtain ⟨hstack, hfound⟩ := hfollows.regular
        (show line + (rest.map (computeIndentLevel · tabSize)).length ≤ n by
          rw [length_map]; omega) hn
        (show 0 ≤ computeIndentLevel content tabSize by omega)
      exact ⟨hstack, hfound hranges⟩

end Scan

theorem collect_blocks (model : List JsString) (tabSize : ℕ) (offSide : Bool)
    {markers : JsString → Option MarkerMatch} (hmarkers : ∀ content ∈ model, markers content = none)
    (hn : model.length ≤ MAX_LINE_NUMBER.toNat) : (collect model tabSize offSide markers).ranges =
    blocks offSide 1 (model.map (computeIndentLevel · tabSize)) :=
  (Scan.lines_follows offSide model hmarkers hn (Nat.add_comm 1 _)).2

end CodeOss.Folding
