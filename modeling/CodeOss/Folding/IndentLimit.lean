import CodeOss.Folding.IndentBlocks

/-! Above the limit the ranges are cut off by their indents: as many are left as the table of the
occurrences lets in, which may be fewer than the arrays have room for. -/

namespace CodeOss.Folding

open List

namespace RangesCollector

variable {indentOf : ℕ → ℤ} {ranges : List (ℕ × ℕ)}

theorem countUp_length (array : List ℕ) (index : ℕ) :
    (countUp array index).length = max array.length (index + 1) := by
  rw [countUp]
  split_ifs with hindex
  · rw [List.length_set]
    omega
  · simp only [length_append, length_replicate, length_cons, length_nil]
    omega

theorem countUp_getD (array : List ℕ) (index i : ℕ) :
    (countUp array index).getD i 0 = array.getD i 0 + if i = index then 1 else 0 := by
  rw [countUp]
  simp only [getD_eq_getElem?_getD]
  split_ifs with hindex hi hi
  · subst hi
    rw [getElem?_set_self hindex, Option.getD_some]
  · rw [getElem?_set_ne (Ne.symm hi), Nat.add_zero]
  · subst hi
    rw [append_assoc, getElem?_append_right (by omega),
      getElem?_append_right (by simp), getElem?_eq_none (l := array) (by omega)]
    simp
  · rcases lt_or_ge i array.length with hlt | hge
    · rw [append_assoc, getElem?_append_left hlt, Nat.add_zero]
    · rw [append_assoc, getElem?_append_right hge, getElem?_eq_none (l := array) hge]
      rcases lt_or_ge (i - array.length) (index - array.length) with hlt' | hge'
      · rw [getElem?_append_left (by simpa using hlt'), getElem?_replicate, if_pos hlt']
        rfl
      · rw [getElem?_append_right (by simpa using hge'),
          getElem?_eq_none (by simp; omega)]
        rfl

def countAt (indentOf : ℕ → ℤ) (ranges : List (ℕ × ℕ)) (indent : ℕ) : ℕ :=
  ranges.countP fun range => indentOf range.1 = indent

def countBelow (indentOf : ℕ → ℤ) (ranges : List (ℕ × ℕ)) (indent : ℕ) : ℕ :=
  ranges.countP fun range => indentOf range.1 < indent

theorem countAt_cons (range : ℕ × ℕ) (indent : ℕ) : countAt indentOf (range :: ranges) indent =
    countAt indentOf ranges indent + if indentOf range.1 = indent then 1 else 0 := by
  simp [countAt, countP_cons]

theorem countBelow_succ (indent : ℕ) : countBelow indentOf ranges (indent + 1) =
    countBelow indentOf ranges indent + countAt indentOf ranges indent := by
  induction ranges with
  | nil => rfl
  | cons range ranges ih =>
    rw [countAt_cons]
    simp only [countBelow, countP_cons, decide_eq_true_eq] at ih ⊢
    split_ifs <;> omega

theorem countBelow_zero (hnonneg : ∀ range ∈ ranges, 0 ≤ indentOf range.1) :
    countBelow indentOf ranges 0 = 0 :=
  countP_eq_zero.2 fun range hrange => by simpa using hnonneg range hrange

theorem countBelow_add_of_forall {indent : ℕ} (n : ℕ)
    (hzero : ∀ i, indent ≤ i → i < indent + n → countAt indentOf ranges i = 0) :
    countBelow indentOf ranges (indent + n) = countBelow indentOf ranges indent := by
  induction n with
  | zero => rfl
  | succ n ih =>
    rw [← Nat.add_assoc, countBelow_succ, ih fun i hle hlt => hzero i hle (by omega),
      hzero (indent + n) (Nat.le_add_right indent n) (by omega), Nat.add_zero]

/-- The table has the number of ranges for each indent below 1000. -/
structure Counted (indentOf : ℕ → ℤ) (collector : RangesCollector) : Prop where
  nonneg : ∀ range ∈ collector.ranges, 0 ≤ indentOf range.1
  occurs : ∀ i, collector.indentOccurrences.getD i 0 =
    if i < 1000 then countAt indentOf collector.ranges i else 0
  last : ∀ i, i + 1 = collector.indentOccurrences.length →
    collector.indentOccurrences.getD i 0 ≠ 0

theorem counted_empty (indentOf : ℕ → ℤ) : Counted indentOf .empty := by
  refine ⟨fun range hrange => absurd hrange (by simp [empty]), fun i => ?_, fun i hi => ?_⟩
  · rw [empty, countAt, countP_nil, ite_self]
    rfl
  · exact absurd hi (Nat.succ_ne_zero i)

variable {collector : RangesCollector}

theorem Counted.insertFirst (h : Counted indentOf collector)
    {first : ℕ} (last : ℕ) (hnonneg : 0 ≤ indentOf first) :
    Counted indentOf (collector.insertFirst first last (indentOf first)) := by
  rw [RangesCollector.insertFirst]
  split_ifs with hbound hindent
  · exact h
  · refine ⟨forall_mem_cons.2 ⟨hnonneg, h.nonneg⟩, fun i => ?_, fun i hi => ?_⟩
    · rw [countUp_getD, h.occurs, countAt_cons]
      dsimp only
      split_ifs <;> omega
    · rw [countUp_length] at hi
      rw [countUp_getD]
      rcases Nat.lt_or_ge (indentOf first).toNat collector.indentOccurrences.length with hlt | hge
      · have hlast := h.last i (by omega)
        omega
      · rw [if_pos (by omega)]
        omega
  · refine ⟨forall_mem_cons.2 ⟨hnonneg, h.nonneg⟩, fun i => ?_, h.last⟩
    rw [h.occurs, countAt_cons]
    dsimp only
    split_ifs <;> omega

theorem Counted.length_le (h : Counted indentOf collector) :
    collector.indentOccurrences.length ≤ 1000 := by
  by_contra hlt
  have hlast := h.last (collector.indentOccurrences.length - 1) (by omega)
  rw [h.occurs, if_neg (by omega)] at hlast
  exact hlast rfl

theorem findMaxIndent_spec {limit : ℕ} (occurrences : List ℕ) (i : ℕ)
    (hoccurs : ∀ j, j < occurrences.length → occurrences.getD j 0 = countAt indentOf ranges (i + j))
    (hlimit : countBelow indentOf ranges i ≤ limit) :
    ∃ maxIndent, findMaxIndent limit occurrences i (countBelow indentOf ranges i) =
    (maxIndent, countBelow indentOf ranges maxIndent) ∧ countBelow indentOf ranges maxIndent ≤
    limit ∧ (maxIndent = i + occurrences.length ∨ maxIndent < i + occurrences.length ∧
    limit < countBelow indentOf ranges maxIndent + countAt indentOf ranges maxIndent) := by
  induction occurrences generalizing i with
  | nil => exact ⟨i, rfl, hlimit, Or.inl rfl⟩
  | cons n rest ih =>
    have hn : n = countAt indentOf ranges i := hoccurs 0 (Nat.succ_pos _)
    rw [findMaxIndent]
    split_ifs with hfull
    · refine ⟨i, rfl, hlimit, Or.inr ⟨?_, by omega⟩⟩
      rw [length_cons]
      omega
    · have hnext : countBelow indentOf ranges i + n = countBelow indentOf ranges (i + 1) := by
        rw [countBelow_succ, hn]
      have hrest : ∀ j, j < rest.length →
          rest.getD j 0 = countAt indentOf ranges (i + 1 + j) := fun j hj => by
        have hat := hoccurs (j + 1) (Nat.succ_lt_succ hj)
        rwa [getD_cons_succ, ← Nat.add_assoc, Nat.add_right_comm] at hat
      obtain ⟨maxIndent, hfind, hle, hcase⟩ := ih (i + 1) hrest (by omega)
      rw [hnext]
      refine ⟨maxIndent, hfind, hle, ?_⟩
      rw [length_cons]
      omega

theorem pick_sublist (indentOf : ℕ → ℤ) (maxIndent limit : ℕ) (ranges : List (ℕ × ℕ))
    (entries : ℕ) : (pick indentOf maxIndent limit ranges entries).Sublist ranges := by
  induction ranges generalizing entries with
  | nil => exact List.Sublist.slnil
  | cons range rest ih =>
    rw [pick]
    split_ifs
    · exact (ih _).cons_cons range
    · exact (ih _).cons_cons range
    · exact (ih _).cons range
    · exact (ih _).cons range

theorem pick_length (maxIndent limit entries : ℕ) :
    (pick indentOf maxIndent limit ranges entries).length = countBelow indentOf ranges maxIndent +
    min (limit - entries) (countAt indentOf ranges maxIndent) := by
  induction ranges generalizing entries with
  | nil => simp [pick, countBelow, countAt]
  | cons range rest ih =>
    rw [pick, countAt_cons]
    have hbelow : countBelow indentOf (range :: rest) maxIndent =
        countBelow indentOf rest maxIndent + if indentOf range.1 < maxIndent then 1 else 0 := by
      simp [countBelow, countP_cons]
    rw [hbelow]
    split_ifs <;> simp only [length_cons, ih] <;> omega

theorem admitted_length : (admitted indentOf ranges).length = countBelow indentOf ranges 1000 +
    if countAt indentOf ranges 999 = 0 then 0 else countAt indentOf ranges 1000 := by
  have hany : (ranges.any fun other => decide (indentOf other.1 = 999)) =
      !decide (countAt indentOf ranges 999 = 0) := by
    rw [Bool.eq_iff_iff, countAt, any_eq_true, Bool.not_eq_true', decide_eq_false_iff_not,
      countP_eq_zero]
    push Not
    rfl
  rw [admitted, hany, ← countP_eq_length_filter]
  by_cases hzero : countAt indentOf ranges 999 = 0
  · simp [hzero, countBelow]
  · rw [if_neg hzero, ← countBelow_succ]
    simp only [hzero, countBelow, decide_false, Bool.not_false, Bool.and_true]
    refine countP_congr fun range _ => ?_
    simp
    omega

theorem Counted.picked_length (h : Counted indentOf collector)
    (limit : ℕ) : ∃ maxIndent entries, findMaxIndent limit collector.indentOccurrences 0 0 =
    (maxIndent, entries) ∧ (pick indentOf maxIndent limit collector.ranges entries).length =
    min limit (admitted indentOf collector.ranges).length := by
  have hzero := countBelow_zero h.nonneg
  have hbound := h.length_le
  have hoccurs : ∀ j, j < collector.indentOccurrences.length →
      collector.indentOccurrences.getD j 0 = countAt indentOf collector.ranges (0 + j) :=
    fun j hj => by rw [h.occurs, if_pos (hj.trans_le hbound), Nat.zero_add]
  obtain ⟨maxIndent, hfind, hle, hcase⟩ := findMaxIndent_spec
    collector.indentOccurrences 0 hoccurs (show _ ≤ limit by omega)
  rw [hzero] at hfind
  refine ⟨maxIndent, _, hfind, ?_⟩
  rw [pick_length, admitted_length]
  -- behind the table no range has an indent below 1000
  have hbehind : ∀ i, collector.indentOccurrences.length ≤ i → i < 1000 →
      countAt indentOf collector.ranges i = 0 := fun i hlength hi => by
    have hat := h.occurs i
    rw [if_pos hi, getD_eq_default _ _ hlength] at hat
    exact hat.symm
  rcases hcase with hend | ⟨hlt, hfull⟩
  · rw [Nat.zero_add] at hend
    subst hend
    have hall : countBelow indentOf collector.ranges
        (collector.indentOccurrences.length + (1000 - collector.indentOccurrences.length)) =
          countBelow indentOf collector.ranges collector.indentOccurrences.length :=
      countBelow_add_of_forall _ fun i hlength hi => hbehind i hlength (by omega)
    rw [Nat.add_sub_cancel' hbound] at hall
    rw [hall]
    rcases hbound.lt_or_eq with hshort | hfull
    · rw [if_pos (hbehind 999 (by omega) (by omega)), hbehind _ le_rfl hshort]
      omega
    · have hlast := h.last 999 hfull.symm
      rw [h.occurs, if_pos (by omega)] at hlast
      rw [if_neg hlast, hfull]
      omega
  · have hmono : countBelow indentOf collector.ranges (maxIndent + 1) ≤
        countBelow indentOf collector.ranges 1000 := by
      refine countP_mono_left fun range _ hrange => ?_
      simp only [decide_eq_true_eq] at hrange ⊢
      omega
    rw [countBelow_succ] at hmono
    omega

end RangesCollector

open RangesCollector

namespace Scan

theorem regular_result (scan : Scan) (line : ℕ) (indent : ℤ) :
    (scan.regular line indent).result = scan.result ∨
      ∃ last, (scan.regular line indent).result = scan.result.insertFirst line last indent := by
  rw [Scan.regular]
  dsimp only
  split_ifs
  · exact Or.inr ⟨_, rfl⟩
  · exact Or.inl rfl

theorem round_result
    (offSide : Bool) (marker : Option MarkerMatch) (scan : Scan) (line : ℕ) (indent : ℤ) :
    (scan.round offSide marker line indent).result = scan.result ∨ indent ≠ -1 ∧ ∃ last,
    (scan.round offSide marker line indent).result = scan.result.insertFirst line last indent := by
  have hregular (hblank : indent ≠ -1) := (scan.regular_result line indent).imp_right
    fun hinsert => And.intro hblank hinsert
  rw [Scan.round.eq_def]
  split_ifs with hblank hside
  · exact Or.inl rfl
  · exact Or.inl rfl
  · cases marker with
    | none => exact hregular hblank
    | some found =>
      cases found with
      | fin => exact Or.inl rfl
      | start =>
        dsimp only
        split
        · split_ifs
          · exact Or.inr ⟨hblank, _, rfl⟩
          · exact hregular hblank
        · exact hregular hblank

theorem lines_counted {indentOf : ℕ → ℤ} (tabSize : ℕ) (offSide : Bool)
    (markers : JsString → Option MarkerMatch) (n : ℕ) (rest : List JsString) {line : ℕ} (hindent : ∀
    i content, rest[i]? = some content → indentOf (line + i) = computeIndentLevel content tabSize) :
    Counted indentOf (Scan.lines tabSize offSide markers n line rest).result := by
  induction rest generalizing line with
  | nil => exact counted_empty indentOf
  | cons content rest ih =>
    have hcounted := @ih (line + 1) fun i other hother => by
      rw [Nat.add_right_comm]
      exact hindent (i + 1) other hother
    have hline : indentOf line = computeIndentLevel content tabSize := hindent 0 content rfl
    have hlevel := le_computeIndentLevel content tabSize
    rw [Scan.lines]
    rcases round_result offSide (markers content)
      (Scan.lines tabSize offSide markers n (line + 1) rest) line
      (computeIndentLevel content tabSize) with hsame | ⟨hblank, last, hinsert⟩
    · rwa [hsame]
    · rw [hinsert, ← hline]
      exact hcounted.insertFirst last (by omega)

end Scan

theorem collect_counted (model : List JsString) (tabSize : ℕ) (offSide : Bool)
    (markers : JsString → Option MarkerMatch) :
    Counted (lineIndent model tabSize) (collect model tabSize offSide markers) := by
  refine Scan.lines_counted tabSize offSide markers model.length model fun i content hcontent => ?_
  rw [lineIndent, Nat.add_sub_cancel_left, getD_eq_getElem?_getD, hcontent, Option.getD_some]

section Arrays

variable {ranges : List (ℕ × ℕ)} {regions : FoldingRegions} {lineCount : ℕ}

theorem NestedRanges.sublist (h : NestedRanges lineCount ranges) {rest : List (ℕ × ℕ)}
    (hrest : rest.Sublist ranges) : NestedRanges lineCount rest :=
  ⟨fun range hrange => h.valid range (hrest.subset hrange), h.pairwise.sublist hrest⟩

theorem toFoldingRegions_isOk (ranges : List (ℕ × ℕ)) :
    (∃ regions, toFoldingRegions ranges = .ok regions) ↔ ranges.length ≤ MAX_FOLDING_REGIONS := by
  rw [toFoldingRegions, FoldingRegions.new]
  simp only [length_map, ne_eq, not_true, false_or]
  split_ifs with hlength
  · simpa using hlength
  · simpa using hlength

theorem toFoldingRegions_ranges (h : toFoldingRegions ranges = .ok regions)
    (hlines : ∀ range ∈ ranges, range.1 ≤ MAX_LINE_NUMBER.toNat ∧ range.2 ≤ MAX_LINE_NUMBER.toNat) :
    regions.ranges = ranges := by
  have hword : ∀ number ≤ MAX_LINE_NUMBER.toNat, (UInt32.ofNat number).toNat = number :=
    fun number hnumber => by
      rw [UInt32.toNat_ofNat']
      exact Nat.mod_eq_of_lt (hnumber.trans_lt (by decide))
  rw [toFoldingRegions, FoldingRegions.new] at h
  split_ifs at h
  obtain rfl := Except.ok.inj h
  rw [FoldingRegions.ranges]
  dsimp only
  rw [zip_map', List.map_map]
  refine (map_congr_left fun range hrange => ?_).trans (map_id ranges)
  obtain ⟨hfirst, hlast⟩ := hlines range hrange
  rw [Function.comp_apply, hword _ hfirst, hword _ hlast, id_eq]

variable {collector : RangesCollector} {indentOf : ℕ → ℤ} {limit : ℕ}

/-- What is written above the limit: ranges, and zeros when they do not fill the arrays. -/
theorem RangesCollector.Counted.limited
    (h : Counted indentOf collector) (hlimit : limit < collector.ranges.length) :
    ∃ picked : List (ℕ × ℕ), picked.Sublist collector.ranges ∧ picked.length = min limit
    (admitted indentOf collector.ranges).length ∧ collector.toIndentRanges indentOf limit =
    toFoldingRegions (picked ++ List.replicate (limit - picked.length) (0, 0)) := by
  obtain ⟨maxIndent, entries, hfind, hlength⟩ := h.picked_length limit
  refine ⟨_, pick_sublist indentOf maxIndent limit collector.ranges entries, hlength, ?_⟩
  rw [toIndentRanges, if_neg hlimit.not_ge, hfind]
  dsimp only
  rw [take_append, take_of_length_le (by omega), take_replicate,
    Nat.min_eq_left (Nat.sub_le _ _)]

end Arrays

section Limit

variable {model : List JsString} {tabSize : ℕ} {offSide : Bool}
  {markers : JsString → Option MarkerMatch} {limit : ℕ}

theorem collect_words (tabSize : ℕ) (offSide : Bool) (markers : JsString → Option MarkerMatch)
    (hlines : model.length ≤ MAX_LINE_NUMBER.toNat) : ∀ range ∈ (collect model tabSize
    offSide markers).ranges, range.1 ≤ MAX_LINE_NUMBER.toNat ∧ range.2 ≤ MAX_LINE_NUMBER.toNat := by
  intro range hrange
  obtain ⟨-, hlt, hle⟩ :=
    (Scan.collect_nestedRanges model tabSize offSide markers hlines).valid range hrange
  omega

theorem FindsBlocks.fits (h : FindsBlocks model tabSize offSide markers limit)
    (hlines : model.length ≤ MAX_LINE_NUMBER.toNat) : Fits model tabSize offSide markers limit := by
  obtain ⟨regions, hok, -, hwell, -⟩ := h
  have hwords := collect_words tabSize offSide markers hlines
  rw [computeRanges] at hok
  rw [Fits]
  rcases Nat.lt_or_ge limit (collect model tabSize offSide markers).ranges.length with hover | hfit
  · obtain ⟨picked, hsub, hpicked, hregions⟩ :=
      (collect_counted model tabSize offSide markers).limited hover
    rw [hregions] at hok
    have hbound := (toFoldingRegions_isOk _).1 ⟨regions, hok⟩
    rw [length_append, length_replicate] at hbound
    refine ⟨by omega, fun _ => ?_⟩
    -- a pair of zeros is no range
    by_contra hshort
    have hranges := toFoldingRegions_ranges hok fun range hrange => by
      rcases List.mem_append.1 hrange with hmem | hmem
      · exact hwords range (hsub.subset hmem)
      · rw [eq_of_mem_replicate hmem]
        exact ⟨Nat.zero_le _, Nat.zero_le _⟩
    have hzero : (0, 0) ∈ regions.ranges := by
      rw [hranges]
      exact mem_append_right picked (mem_replicate.2 ⟨by omega, rfl⟩)
    exact absurd (hwell.valid _ hzero).1 (by decide)
  · rw [toIndentRanges, if_pos hfit] at hok
    have hbound := (toFoldingRegions_isOk _).1 ⟨regions, hok⟩
    exact ⟨(Nat.min_le_left _ _).trans hbound, fun hover => absurd hover hfit.not_gt⟩

theorem Fits.findsBlocks (h : Fits model tabSize offSide markers limit)
    (hlines : model.length ≤ MAX_LINE_NUMBER.toNat) :
    FindsBlocks model tabSize offSide markers limit := by
  obtain ⟨hbound, hroom⟩ := h
  have hnested := Scan.collect_nestedRanges model tabSize offSide markers hlines
  have hwords := collect_words tabSize offSide markers hlines
  rw [FindsBlocks, computeRanges]
  rcases Nat.lt_or_ge limit (collect model tabSize offSide markers).ranges.length with hover | hfit
  · obtain ⟨picked, hsub, hpicked, hregions⟩ :=
      (collect_counted model tabSize offSide markers).limited hover
    have hlength : picked.length = limit := hpicked.trans (Nat.min_eq_left (hroom hover))
    rw [hlength, Nat.sub_self, replicate_zero, append_nil] at hregions
    obtain ⟨regions, hok⟩ := (toFoldingRegions_isOk picked).2 (by omega)
    have hranges := toFoldingRegions_ranges hok fun range hrange =>
      hwords range (hsub.subset hrange)
    refine ⟨regions, hregions.trans hok, fun _ hle => absurd hover hle.not_gt, ?_, fun _ => ?_⟩
    · exact hranges ▸ hnested.sublist hsub
    · exact hranges ▸ ⟨hlength.le, hsub⟩
  · obtain ⟨regions, hok⟩ := (toFoldingRegions_isOk
      (collect model tabSize offSide markers).ranges).2 (by omega)
    have hranges := toFoldingRegions_ranges hok hwords
    refine ⟨regions, ?_, fun hmarkers _ => ?_, hranges ▸ hnested,
      fun hover => absurd hover hfit.not_gt⟩
    · rw [toIndentRanges, if_pos hfit, hok]
    · rw [hranges, collect_blocks model tabSize offSide hmarkers hlines]

end Limit

/-- The ranges of a document of at most `MAX_LINE_NUMBER` lines are its blocks, disjoint or nested
and cut to the limit, if and only if the arrays can hold them and the table of the indents fills
the limit. -/
theorem findsBlocks_iff (model : List JsString) (tabSize : ℕ) (offSide : Bool)
    (markers : JsString → Option MarkerMatch) (limit : ℕ)
    (hlines : model.length ≤ MAX_LINE_NUMBER.toNat) :
    FindsBlocks model tabSize offSide markers limit ↔ Fits model tabSize offSide markers limit :=
  ⟨fun h => h.fits hlines, fun h => h.findsBlocks hlines⟩

/-- Two lines with a deeper one behind each, and a blank line at the end. -/
theorem findsBlocks_iff_spaces : FindsBlocks [[0x61], [0x20, 0x62], [0x63], [0x09, 0x64], []] 4 true
    (fun _ => none) 1 :=
  (findsBlocks_iff _ 4 true _ 1 (by decide)).2 (by rw [Fits]; decide)

/-- Eleven lines that are indented by 1000 columns, a deeper one behind each. -/
def deepBlocks : List JsString := (List.replicate 11 [[0x09, 0x61], [0x09, 0x09, 0x62]]).flatten

/-- The ten places of the limit are left at zero. -/
theorem findsBlocks_deep : ¬FindsBlocks deepBlocks 1000 false (fun _ => none) 10 := by
  intro h
  have hfits := h.fits (by decide)
  rw [Fits] at hfits
  exact absurd hfits (by decide)

end CodeOss.Folding
