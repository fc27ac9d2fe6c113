import CodeOss.Edits.NormalForm
import CodeOss.Library.PatchRebase

/-! `tryRebase`, `rebaseSkipConflicting` and `trySwap`: the loops of the source, and the order of
two edits they stand for. -/

namespace CodeOss

namespace OffsetRange

def intersects (r other : OffsetRange) : Bool :=
  let start := max r.start other.start
  let stop := min r.endExclusive other.endExclusive
  decide (start < stop)

end OffsetRange

def areConcurrentInserts (r1 r2 : OffsetRange) : Bool :=
  r1.isEmpty && r2.isEmpty && r1.start == r2.start

def isInsertStrictlyInsideRange (insert range : OffsetRange) : Bool :=
  insert.isEmpty && decide (range.start < insert.start) && decide (insert.start < range.endExclusive)

namespace StringEdit

open StringReplacement

def isConflicting (ourEdit baseEdit : StringReplacement) : Bool :=
  ourEdit.replaceRange.intersects baseEdit.replaceRange ||
    areConcurrentInserts ourEdit.replaceRange baseEdit.replaceRange ||
    isInsertStrictlyInsideRange ourEdit.replaceRange baseEdit.replaceRange ||
    isInsertStrictlyInsideRange baseEdit.replaceRange ourEdit.replaceRange

/-- The loop of `_tryRebase`; `none` is its `undefined`. -/
def rebaseLoop (noOverlap : Bool) : List StringReplacement → List StringReplacement → Int →
    List StringReplacement → Option (List StringReplacement)
  | [], _, _, newEdits => some newEdits
  | ourEdit :: ours, [], offset, newEdits =>
    let transformedRange := ourEdit.replaceRange.delta offset
    rebaseLoop noOverlap ours [] offset (newEdits ++ [⟨transformedRange, ourEdit.newText⟩])
  | ourEdit :: ours, baseEdit :: bases, offset, newEdits =>
    if isConflicting ourEdit baseEdit then
      if noOverlap then none else rebaseLoop noOverlap ours (baseEdit :: bases) offset newEdits
    else if ourEdit.replaceRange.start < baseEdit.replaceRange.start ∨
        (ourEdit.replaceRange.isEmpty ∧
          ourEdit.replaceRange.start = baseEdit.replaceRange.start) then
      -- Ours starts first, or is an insert at the start of the base range.
      let transformedRange := ourEdit.replaceRange.delta offset
      rebaseLoop noOverlap ours (baseEdit :: bases) offset
        (newEdits ++ [⟨transformedRange, ourEdit.newText⟩])
    else
      rebaseLoop noOverlap (ourEdit :: ours) bases
        (offset + (baseEdit.newText.length - baseEdit.replaceRange.length)) newEdits
termination_by ours bases => ours.length + bases.length

variable (this base : StringEdit)

/-- `_tryRebase`. -/
def rebaseOn (noOverlap : Bool) : Except BugIndicatingError (Option StringEdit) :=
  match rebaseLoop noOverlap this.replacements base.replacements 0 [] with
  | none => .ok none
  | some newEdits => do return some (← BaseEdit.new newEdits)

def tryRebase : Except BugIndicatingError (Option StringEdit) :=
  rebaseOn this base true

def rebaseSkipConflicting : Except BugIndicatingError (Option StringEdit) :=
  rebaseOn this base false

def inverseLoop (getOriginalSlice : Int → Int → JsString) :
    List StringReplacement → Int → List StringReplacement →
      Except BugIndicatingError (List StringReplacement)
  | [], _, edits => .ok edits
  | e :: es, offset, edits => do
      let range ← OffsetRange.ofStartAndLength (e.replaceRange.start + offset) e.newText.length
      inverseLoop getOriginalSlice es (offset + (e.newText.length - e.replaceRange.length))
        (edits ++ [⟨range, getOriginalSlice e.replaceRange.start e.replaceRange.endExclusive⟩])

def inverseOnSlice (this : StringEdit) (getOriginalSlice : Int → Int → JsString) :
    Except BugIndicatingError StringEdit := do
  BaseEdit.new (← inverseLoop getOriginalSlice this.replacements 0 [])

/-- `' '.repeat(endEx - start)`. -/
def blanks (start endEx : Int) : JsString := List.replicate (endEx - start).toNat 32

def trySwap (e1 e2 : StringEdit) : Except BugIndicatingError (Option (StringEdit × StringEdit)) := do
  let e1Inv ← e1.inverseOnSlice blanks
  match ← e2.tryRebase e1Inv with
  | none => return none
  | some e1' =>
    match ← e1.tryRebase e1' with
    | none => return none
    | some e2' => return some (e1', e2')

theorem isConflicting_iff (r q : StringReplacement) :
    isConflicting r q ↔ r.toPatch.Clash q.toPatch := by
  simp only [isConflicting, OffsetRange.intersects, areConcurrentInserts,
    isInsertStrictlyInsideRange, OffsetRange.isEmpty, Patch.Clash, toPatch_start, toPatch_stop,
    Bool.or_eq_true, Bool.and_eq_true, decide_eq_true_eq, beq_iff_eq]
  tauto

theorem precedes_iff (r q : StringReplacement) : (r.replaceRange.start < q.replaceRange.start ∨
    (r.replaceRange.isEmpty ∧ r.replaceRange.start = q.replaceRange.start)) ↔
    r.toPatch.Precedes q.toPatch := by
  simp only [OffsetRange.isEmpty, Patch.Precedes, toPatch_start, toPatch_stop, beq_iff_eq]

theorem rebaseLoop_nil (noOverlap : Bool) (ours newEdits : List StringReplacement) (offset : Int) :
    ∃ out, rebaseLoop noOverlap ours [] offset newEdits = some out ∧
      patches out = patches newEdits ++ (patches ours).map (Patch.shift offset) := by
  induction ours generalizing newEdits with
  | nil => exact ⟨newEdits, by rw [rebaseLoop], by simp⟩
  | cons ourEdit ours ih =>
    obtain ⟨out, hout, hpatches⟩ :=
      ih (newEdits ++ [⟨ourEdit.replaceRange.delta offset, ourEdit.newText⟩])
    refine ⟨out, by rw [rebaseLoop, hout], ?_⟩
    rw [hpatches]
    simp [toPatch, Patch.shift]

theorem rebaseLoop_eq (noOverlap : Bool) (ours bases newEdits : List StringReplacement)
    (offset : Int) : (rebaseLoop noOverlap ours bases offset newEdits).map patches =
    (Patch.weave (!noOverlap) (patches ours) (patches bases)).map fun ms => patches newEdits ++
    Patch.rebase offset ms := by
  induction ours, bases, offset, newEdits using rebaseLoop.induct noOverlap with
  | case1 bases offset newEdits =>
    rw [rebaseLoop, patches_nil, Patch.weave]
    simp [Patch.rebase_map_inr]
  | case2 ourEdit ours offset newEdits range ih =>
    obtain ⟨out, hout, hpatches⟩ := rebaseLoop_nil noOverlap (ourEdit :: ours) newEdits offset
    rw [hout, patches_nil, patches_cons, Patch.weave, Option.map_some, Option.map_some,
      Patch.rebase_map_inl, hpatches, patches_cons]
  | case3 ourEdit ours baseEdit bases offset newEdits hclash hskip =>
    rw [rebaseLoop, if_pos hclash, if_pos hskip, patches_cons, patches_cons, Patch.weave,
      if_pos ((isConflicting_iff _ _).1 hclash), hskip]
    rfl
  | case4 ourEdit ours baseEdit bases offset newEdits hclash hskip ih =>
    rw [rebaseLoop, if_pos hclash, if_neg hskip, ih, patches_cons, patches_cons, Patch.weave,
      if_pos ((isConflicting_iff _ _).1 hclash), if_pos (by simpa using hskip)]
  | case5 ourEdit ours baseEdit bases offset newEdits hclash hfirst range ih =>
    rw [rebaseLoop, if_neg hclash, if_pos hfirst, ih, patches_cons, patches_cons, Patch.weave,
      if_neg (mt (isConflicting_iff _ _).2 hclash), if_pos ((precedes_iff _ _).1 hfirst),
      Option.map_map]
    congr 1
    funext ms
    simp [Patch.rebase, toPatch, Patch.shift, range]
  | case6 ourEdit ours baseEdit bases offset newEdits hclash hfirst ih =>
    rw [rebaseLoop, if_neg hclash, if_neg hfirst, ih, patches_cons, patches_cons, Patch.weave,
      if_neg (mt (isConflicting_iff _ _).2 hclash), if_neg (mt (precedes_iff _ _).2 hfirst),
      Option.map_map]
    rfl

theorem inverseLoop_eq (getOriginalSlice : Int → Int → JsString) (es edits : List StringReplacement)
    (offset : Int) : ∃ out, inverseLoop getOriginalSlice es offset edits = .ok (edits ++ out) ∧
    patches out = Patch.inverse getOriginalSlice offset (patches es) := by
  induction es generalizing offset edits with
  | nil => exact ⟨[], by rw [inverseLoop, List.append_nil], rfl⟩
  | cons e es ih =>
    have hle : e.replaceRange.start + offset ≤ e.replaceRange.start + offset + e.newText.length := by
      omega
    let inv : StringReplacement := ⟨⟨e.replaceRange.start + offset, _, hle⟩,
      getOriginalSlice e.replaceRange.start e.replaceRange.endExclusive⟩
    have hrange : OffsetRange.ofStartAndLength (e.replaceRange.start + offset) e.newText.length =
        .ok inv.replaceRange := OffsetRange.new_eq_ok _
    obtain ⟨out, hout, hpatches⟩ := ih (edits ++ [inv])
      (offset + (e.newText.length - e.replaceRange.length))
    refine ⟨inv :: out, ?_, ?_⟩
    · simp only [inverseLoop, hrange, bind, Except.bind]
      rw [show edits ++ inv :: out = edits ++ [inv] ++ out by simp]
      exact hout
    · rw [patches_cons, hpatches]
      rfl

end StringEdit

end CodeOss

/-! Rebasing and swapping: both orders of two edits lead to one text. -/

namespace CodeOss
namespace StringEdit

open StringReplacement

theorem exists_fits_both (a b : StringEdit) : ∃ e, Patch.Fits (-1) e (patches a.replacements) ∧
    Patch.Fits (-1) e (patches b.replacements) := by
  obtain ⟨e, he⟩ := exists_fits a.sorted
  obtain ⟨e', he'⟩ := exists_fits b.sorted
  exact ⟨max e e', he.weaken (le_max_left e e'), he'.weaken (le_max_right e e')⟩

theorem rebaseOn_spec (this base : StringEdit) (noOverlap : Bool) : ∃ r : Option StringEdit,
    rebaseOn this base noOverlap = .ok r ∧ r.map (fun e => patches e.replacements) = (Patch.weave
    (!noOverlap) (patches this.replacements) (patches base.replacements)).map (Patch.rebase 0) := by
  have hloop := rebaseLoop_eq noOverlap this.replacements base.replacements [] 0
  simp only [patches_nil, List.nil_append] at hloop
  unfold rebaseOn
  cases hout : rebaseLoop noOverlap this.replacements base.replacements 0 [] with
  | none => exact ⟨none, rfl, by rw [hout] at hloop; exact hloop⟩
  | some newEdits =>
    rw [hout, Option.map_some, eq_comm, Option.map_eq_some_iff] at hloop
    obtain ⟨ms, hms, hpatches⟩ := hloop
    obtain ⟨e, hthis, hbase⟩ := exists_fits_both this base
    have hfits := Patch.fits_rebase (Patch.fits_weave hthis hbase hms) 0
    rw [hpatches] at hfits
    have hsort := unsorted_of_fits (show (-1 : Int) ≤ -1 + 0 by omega) hfits
    refine ⟨some ⟨newEdits, hsort⟩, ?_, ?_⟩
    · simp only [BaseEdit.new_eq_ok hsort, bind, Except.bind]
      rfl
    · rw [hms, Option.map_some, Option.map_some, hpatches]

variable {e : StringEdit} {s : JsString}

theorem fits_iff_liesIn : LiesIn e s ↔ Patch.Fits 0 s.length (patches e.replacements) :=
  ⟨LiesIn.fits, fun h _ hr => mem_of_fits h hr⟩

theorem length_apply (h : LiesIn e s) :
    ((apply e s).length : Int) = s.length + Patch.lengthDelta (patches e.replacements) := by
  rw [apply_eq h]
  exact Patch.length_applyFrom h.fits (by omega)

theorem apply_rebased (ms : List (Patch CodeUnit ⊕ Patch CodeUnit)) {a' b : StringEdit}
    (hb : LiesIn b s) (hms : Patch.Fits 0 s.length (Patch.both ms))
    (hright : Patch.rights ms = patches b.replacements)
    (ha' : patches a'.replacements = Patch.rebase 0 ms) :
    LiesIn a' (apply b s) ∧ apply a' (apply b s) = Patch.applyFrom 0 (Patch.both ms) s := by
  have hlies : LiesIn a' (apply b s) := by
    have hfits := Patch.fits_rebase hms 0
    rw [hright, add_zero, add_zero, ← length_apply hb, ← ha'] at hfits
    exact fits_iff_liesIn.2 hfits
  refine ⟨hlies, ?_⟩
  rw [apply_eq hlies, apply_eq hb, ha', ← hright]
  exact Patch.applyFrom_rebase hms (by omega) 0

theorem rebase_meets {a b : StringEdit} (ha : LiesIn a s) (hb : LiesIn b s) :
    ∃ ra rb : Option StringEdit, a.tryRebase b = .ok ra ∧
    b.tryRebase a = .ok rb ∧ (ra.isSome ↔ rb.isSome) ∧ ∀ a' ∈ ra, ∀ b' ∈ rb, LiesIn a' (apply b s) ∧
    LiesIn b' (apply a s) ∧ apply a' (apply b s) = apply b' (apply a s) := by
  obtain ⟨ra, hra, hpa⟩ := rebaseOn_spec a b true
  obtain ⟨rb, hrb, hpb⟩ := rebaseOn_spec b a true
  rw [Bool.not_true] at hpa hpb
  have hswap := Patch.weave_swap ha.fits hb.fits
  refine ⟨ra, rb, hra, hrb, ?_, fun a' ha' b' hb' => ?_⟩
  · have hisSome := congrArg Option.isSome hpa
    have hisSome' := congrArg Option.isSome hpb
    simp only [hswap, Option.isSome_map] at hisSome hisSome'
    rw [hisSome, hisSome']
  · rw [Option.mem_def] at ha' hb'
    rw [ha', Option.map_some, eq_comm, Option.map_eq_some_iff] at hpa
    rw [hb', Option.map_some, eq_comm, Option.map_eq_some_iff] at hpb
    obtain ⟨ms, hms, hpa⟩ := hpa
    obtain ⟨ms', hms', hpb⟩ := hpb
    rw [hswap, hms, Option.map_some, Option.some.injEq] at hms'
    subst hms'
    have hfits := Patch.fits_weave ha.fits hb.fits hms
    obtain ⟨hleft, hright⟩ := Patch.lefts_weave hms
    obtain ⟨hlies, happly⟩ := apply_rebased ms hb hfits hright hpa.symm
    obtain ⟨hlies', happly'⟩ := apply_rebased (ms.map Sum.swap) ha
      (by rwa [Patch.both_swap]) (by rwa [Patch.rights_swap]) hpb.symm
    exact ⟨hlies, hlies', by rw [happly, happly', Patch.both_swap]⟩

theorem inverseOnSlice_spec (h : LiesIn e s) (getOriginalSlice : Int → Int → JsString) :
    ∃ inv : StringEdit, e.inverseOnSlice getOriginalSlice = .ok inv ∧
      patches inv.replacements = Patch.inverse getOriginalSlice 0 (patches e.replacements) := by
  obtain ⟨out, hout, hpatches⟩ := inverseLoop_eq getOriginalSlice e.replacements [] 0
  have hfits := Patch.fits_inverse getOriginalSlice h.fits 0
  rw [← hpatches] at hfits
  have hsort := unsorted_of_fits (show (-1 : Int) ≤ 0 + 0 by omega) hfits
  refine ⟨⟨out, hsort⟩, ?_, hpatches⟩
  simp only [inverseOnSlice, hout, bind, Except.bind, List.nil_append]
  exact BaseEdit.new_eq_ok hsort

theorem trySwap_spec {e1 e2 f g : StringEdit} (hswap : trySwap e1 e2 = .ok (some (f, g)))
    (h1 : LiesIn e1 s) (h2 : LiesIn e2 (apply e1 s)) :
    LiesIn f s ∧ LiesIn g (apply f s) ∧ apply g (apply f s) = apply e2 (apply e1 s) := by
  obtain ⟨inv, hinv, hpinv⟩ := inverseOnSlice_spec h1 blanks
  obtain ⟨rf, hrf, hpf⟩ := rebaseOn_spec e2 inv true
  rw [Bool.not_true, hpinv] at hpf
  cases rf with
  | none => simp [trySwap, hinv, tryRebase, hrf, bind, Except.bind, pure, Except.pure] at hswap
  | some f' =>
    obtain ⟨rg, hrg, hpg⟩ := rebaseOn_spec e1 f' true
    rw [Bool.not_true] at hpg
    cases rg with
    | none =>
      simp [trySwap, hinv, tryRebase, hrf, hrg, bind, Except.bind, pure, Except.pure] at hswap
    | some g' =>
      obtain ⟨rfl, rfl⟩ : f' = f ∧ g' = g := by
        simpa [trySwap, hinv, tryRebase, hrf, hrg, bind, Except.bind, pure, Except.pure] using hswap
      rw [Option.map_some, eq_comm, Option.map_eq_some_iff] at hpf hpg
      obtain ⟨ms, hms, hpf⟩ := hpf
      obtain ⟨ms', hms', hpg⟩ := hpg
      have hlen := length_apply h1
      have hinvFits := Patch.fits_inverse blanks h1.fits 0
      rw [add_zero, add_zero, ← hlen] at hinvFits
      obtain ⟨hleft, hright⟩ := Patch.lefts_weave hms
      have hblanks : ∀ p ∈ patches e1.replacements, p.start ≤ p.stop ∧
          ((blanks p.start p.stop).length : Int) = p.stop - p.start := by
        intro p hp
        obtain ⟨r, -, rfl⟩ := List.mem_map.1 hp
        have hle := r.replaceRange.le
        refine ⟨hle, ?_⟩
        rw [blanks, List.length_replicate]
        simp only [toPatch_start, toPatch_stop]
        omega
      -- The order in the text between the two edits is the order in the first text.
      obtain ⟨before, hright0, hleft0, hback, hfits0⟩ :=
        Patch.exists_before hblanks hright (Patch.fits_weave h2.fits hinvFits hms)
      rw [neg_zero, hpf] at hleft0
      rw [hleft] at hback
      rw [sub_zero, sub_zero, hlen, add_sub_cancel_right] at hfits0
      have hms'' : ms' = before.map Sum.swap := by
        refine Patch.weave_unique (b := 0) (e := s.length) (by rwa [Patch.both_swap]) ?_
        rw [Patch.lefts_swap, Patch.rights_swap, hright0, hleft0]
        exact hms'
      have hf : LiesIn f' s := by
        have := hfits0.sublist (Patch.lefts_sublist before)
        rw [hleft0] at this
        exact fits_iff_liesIn.2 this
      obtain ⟨hg, happly⟩ := apply_rebased (before.map Sum.swap) hf
        (by rwa [Patch.both_swap]) (by rwa [Patch.rights_swap]) (hms'' ▸ hpg.symm)
      have happly' := (apply_rebased before h1 hfits0 hright0 hback.symm).2
      exact ⟨hf, hg, by rw [happly, happly', Patch.both_swap]⟩

def inverse (this : StringEdit) (original : JsString) : Except BugIndicatingError StringEdit :=
  this.inverseOnSlice original.substring

theorem slices_substring (s : JsString) : Patch.Slices s.substring 0 s.length s := by
  intro a c ha hac hc
  rw [s.substring_eq ha hac hc, Int.sub_zero]

/-- The inverse of an edit takes a text back, and its own inverse is the edit again. -/
theorem inverse_undoes (e : StringEdit) (s : JsString) (h : LiesIn e s) :
    ∃ inv : StringEdit, e.inverse s = .ok inv ∧ LiesIn inv (apply e s) ∧
      apply inv (apply e s) = s ∧ inv.inverse (apply e s) = .ok e := by
  obtain ⟨inv, hinv, hpatches⟩ := inverseOnSlice_spec h s.substring
  have hs : (s.length : Int) = s.length - 0 := (Int.sub_zero _).symm
  have hlies : LiesIn inv (apply e s) := by
    refine fits_iff_liesIn.2 ?_
    rw [hpatches, length_apply h]
    simpa using Patch.fits_inverse s.substring h.fits 0
  obtain ⟨redo, hredo, hpatches'⟩ := inverseOnSlice_spec hlies (apply e s).substring
  refine ⟨inv, hinv, hlies, ?_, ?_⟩
  · rw [apply_eq hlies, hpatches, apply_eq h]
    exact Patch.applyFrom_inverse h.fits hs (slices_substring s) 0
  · have hback := Patch.inverse_inverse (apply e s).substring 0 h.fits hs
      (slices_substring s) (Int.zero_add _).symm (by
        rw [← apply_eq h, Int.zero_add]
        exact slices_substring _)
    rw [neg_zero] at hback
    rw [hpatches, hback] at hpatches'
    have heq := patches_injective hpatches'
    rw [inverse, hredo]
    cases redo
    cases e
    simp_all

/-- A replacement and an insertion. -/
theorem inverse_undoes_at_insertion : ∃ inv : StringEdit,
    inverse ⟨[⟨⟨0, 2, by decide⟩, [97]⟩, ⟨⟨3, 3, by decide⟩, [98]⟩], rfl⟩ [1, 2, 3] = .ok inv ∧
      apply inv [97, 3, 98] = [1, 2, 3] := by
  obtain ⟨inv, hinv, -, happly, -⟩ := inverse_undoes
    ⟨[⟨⟨0, 2, by decide⟩, [97]⟩, ⟨⟨3, 3, by decide⟩, [98]⟩], rfl⟩ [1, 2, 3] (by simp [LiesIn])
  exact ⟨inv, hinv, happly⟩

end StringEdit
end CodeOss
