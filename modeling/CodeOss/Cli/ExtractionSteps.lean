import CodeOss.Cli.ExtractionContained

/-! What the steps of an extraction keep: below the root every entry stands in a directory, and
every link leads below the root. -/

namespace CodeOss.Cli.Extract

open LinkWalk List Function

variable {N : Type}

theorem bind_eq_ok {ε α β : Type} {x : Except ε α} {f : α → Except ε β} {b : β} :
    x.bind f = .ok b ↔ ∃ a, x = .ok a ∧ f a = .ok b := by
  cases x <;> simp [Except.bind]

section Resolving

variable {disk disk' : Disk N} {k : ℕ}

theorem resolve_nil (place : List N) : disk.resolve k place [] = .ok place := by
  cases k <;> rfl

theorem resolve_append (place : List N) (parts rest : List (Component N)) : disk.resolve k place
    (parts ++ rest) = (disk.resolve k place parts).bind fun next => disk.resolve k next rest := by
  cases k <;> exact foldlM_append

/-- A step that succeeds starts in a directory; a name is there, and if it is a link its target is
what is reached. -/
inductive Advances (disk : Disk N) (k : ℕ) (place : List N) : Component N → List N → Prop
  | curDir : Advances disk k place .curDir place
  | parentDir : Advances disk k place .parentDir place.dropLast
  | plain {name : N} {node : Node N} (hnode : disk (place ++ [name]) = some node)
      (hplain : node.target = none) : Advances disk k place (.normal name) (place ++ [name])
  | link {name : N} {target : PathBuf N} {j : ℕ} {next : List N} (hk : k = j + 1)
      (hlink : disk (place ++ [name]) = some (.link target))
      (hnext : disk.resolve j (target.start place) target.parts = .ok next) :
      Advances disk k place (.normal name) next

variable {place goal : List N} {parts : List (Component N)} {entry : List N}

theorem resolve_cons {part : Component N} {rest : List (Component N)} :
    disk.resolve k place (part :: rest) = .ok goal ↔ ∃ next, disk place = some .dir ∧
    Advances disk k place part next ∧ disk.resolve k next rest = .ok goal := by
  have hstep : ∀ follow : List N → PathBuf N → Except ErrorKind (List N),
      (∀ name target next, disk (place ++ [name]) = some (.link target) → (follow place target = .ok
        next ↔ ∃ j, k = j + 1 ∧ disk.resolve j (target.start place) target.parts = .ok next)) →
      ∀ next, disk.advance follow place part = .ok next ↔
        disk place = some .dir ∧ Advances disk k place part next := by
    intro follow hfollow next
    constructor
    · intro h
      rw [Disk.advance.eq_def] at h
      rcases hplace : disk place with _ | (_ | _ | _) <;> rw [hplace] at h
      · simp at h
      · simp at h
      · refine ⟨rfl, ?_⟩
        cases part with
        | curDir => exact Except.ok.inj h ▸ .curDir
        | parentDir => exact Except.ok.inj h ▸ .parentDir
        | normal name =>
          dsimp only at h
          rcases hnode : disk (place ++ [name]) with _ | (_ | _ | target) <;> rw [hnode] at h
          · simp at h
          · exact Except.ok.inj h ▸ .plain hnode rfl
          · exact Except.ok.inj h ▸ .plain hnode rfl
          · obtain ⟨j, hk, hnext⟩ := (hfollow name target next hnode).1 h
            exact .link hk hnode hnext
      · simp at h
    · rintro ⟨hplace, h⟩
      rw [Disk.advance.eq_def, hplace]
      cases h with
      | curDir => rfl
      | parentDir => rfl
      | plain hnode hplain =>
        rename_i node
        dsimp only
        rw [hnode]
        cases node with
        | link target => simp [Node.target] at hplain
        | _ => rfl
      | link hk hlink hnext =>
        dsimp only
        rw [hlink]
        exact (hfollow _ _ _ hlink).2 ⟨_, hk, hnext⟩
  cases k with
  | zero =>
    refine bind_eq_ok.trans (exists_congr fun next => ?_)
    rw [hstep _ (fun _ _ _ _ => by simp) next, and_assoc]
    rfl
  | succ k =>
    refine bind_eq_ok.trans (exists_congr fun next => ?_)
    rw [hstep _ (fun _ _ _ _ => by simp) next, and_assoc]
    rfl

theorem resolve_mono (h : ∀ place node, disk place = some node → disk' place = some node)
    (hgoal : disk.resolve k place parts = .ok goal) : disk'.resolve k place parts = .ok goal := by
  induction k using Nat.strongRecOn generalizing place goal parts with
  | ind k ihk =>
    induction parts generalizing place with
    | nil => rwa [resolve_nil] at hgoal ⊢
    | cons part rest ih =>
      obtain ⟨next, hdir, hpart, hrest⟩ := resolve_cons.1 hgoal
      refine resolve_cons.2 ⟨next, h _ _ hdir, ?_, ih hrest⟩
      cases hpart with
      | curDir => exact .curDir
      | parentDir => exact .parentDir
      | plain hnode hplain => exact .plain (h _ _ hnode) hplain
      | link hk hlink hnext => exact .link hk (h _ _ hlink) (ihk _ (by omega) hnext)

theorem links_of_node {node : Node N} (h : disk place = some node) :
    disk.links place = node.target := by
  rw [Disk.links, h, Option.bind_some]

theorem links_eq_some {target : PathBuf N} :
    disk.links place = some target ↔ disk place = some (.link target) := by
  rw [Disk.links]
  rcases disk place with _ | (_ | _ | _) <;> simp [Node.target]

theorem walk_of_resolve (h : disk.resolve k place parts = .ok goal) :
    walk disk.links k place parts = some goal := by
  induction k using Nat.strongRecOn generalizing place goal parts with
  | ind k ihk =>
    induction parts generalizing place with
    | nil =>
      rw [resolve_nil] at h
      rw [walk_nil, Except.ok.inj h]
    | cons part rest ih =>
      obtain ⟨next, -, hpart, hrest⟩ := resolve_cons.1 h
      cases hpart with
      | curDir => rw [walk_curDir, ih hrest]
      | parentDir => rw [walk_parentDir, ih hrest]
      | plain hnode hplain =>
        rw [walk_plain ((links_of_node hnode).trans hplain), ih hrest]
      | link hk hlink hnext =>
        subst hk
        rw [walk_link (links_eq_some.2 hlink), ihk _ (Nat.lt_succ_self _) hnext,
          Option.bind_some, ih hrest]

theorem resolve_dirs (place : List N) (h : ∀ v, v <+: place → disk v = some .dir) :
    disk.resolve k [] (names place) = .ok place := by
  induction place using List.reverseRecOn with
  | nil => exact resolve_nil []
  | append_singleton before name ih =>
    rw [names_append, resolve_append, ih fun v hv => h v (hv.trans (prefix_append _ _))]
    exact resolve_cons.2 ⟨_, h _ (prefix_append _ _), .plain (h _ prefix_rfl) rfl, resolve_nil _⟩

theorem entryOf_eq_ok (h : disk.entryOf k place parts = .ok entry) :
    ∃ before name next, parts = before ++ [.normal name] ∧
      disk.resolve k place before = .ok next ∧ disk next = some .dir ∧ entry = next ++ [name] := by
  rw [Disk.entryOf] at h
  rcases eq_nil_or_concat' parts with rfl | ⟨before, part, rfl⟩
  · simp [resolve_nil] at h
  · rw [getLast?_concat, dropLast_concat] at h
    cases part with
    | normal name =>
      dsimp only at h
      cases hnext : disk.resolve k place before with
      | error e => simp [hnext] at h
      | ok next =>
        simp only [hnext] at h
        rcases hdir : disk next with _ | (_ | _ | _) <;> simp only [hdir] at h
        · simp at h
        · simp at h
        · exact ⟨before, name, next, rfl, hnext, hdir, (Except.ok.inj h).symm⟩
        · simp at h
    | _ =>
      dsimp only at h
      split at h <;> simp at h

theorem entryOf_ofPlace (h : disk.entryOf k [] (names place) = .ok entry) :
    ∃ directory name next, place = directory ++ [name] ∧ disk.resolve k [] (names directory) =
    .ok next ∧ disk next = some .dir ∧ entry = next ++ [name] := by
  obtain ⟨before, name, next, hparts, hrest⟩ := entryOf_eq_ok h
  rcases eq_nil_or_concat' place with rfl | ⟨directory, last, rfl⟩
  · simp [names] at hparts
  · rw [names_append, show names [last] = [.normal last] from rfl] at hparts
    obtain ⟨rfl, hlast⟩ := append_inj' hparts rfl
    obtain rfl := Component.normal.inj (singleton_inj.1 hlast)
    exact ⟨directory, last, next, rfl, hrest⟩

theorem openedFile_spec (h : disk.openedFile k place parts = .ok entry) :
    walk disk.links k place parts = some entry ∧ disk entry ≠ some .dir ∧ disk.links entry = none ∧
    ∃ directory name, entry = directory ++ [name] ∧ disk directory = some .dir := by
  induction k using Nat.strongRecOn generalizing place parts with
  | ind k ih =>
    rw [Disk.openedFile.eq_def] at h
    cases hlast : disk.entryOf k place parts with
    | error e => cases e <;> simp [hlast] at h
    | ok last =>
      obtain ⟨before, name, next, rfl, hnext, hdir, rfl⟩ := entryOf_eq_ok hlast
      have hwalk : walk disk.links k place (before ++ [.normal name]) =
          walk disk.links k next [.normal name] := by
        rw [walk_append, walk_of_resolve hnext, Option.bind_some]
      have hplain : disk.links (next ++ [name]) = none →
          walk disk.links k place (before ++ [.normal name]) = some (next ++ [name]) :=
        fun hnone => by rw [hwalk, walk_plain hnone, walk_nil]
      dsimp only at h
      rw [hlast] at h
      dsimp only at h
      rcases hnode : disk (next ++ [name]) with _ | (_ | _ | target) <;> rw [hnode] at h
      · obtain rfl : next ++ [name] = entry := by cases k <;> exact Except.ok.inj h
        have hnone : disk.links (next ++ [name]) = none := by rw [Disk.links, hnode]; rfl
        exact ⟨hplain hnone, by simp [hnode], hnone, next, name, rfl, hdir⟩
      · obtain rfl : next ++ [name] = entry := by cases k <;> exact Except.ok.inj h
        have hnone : disk.links (next ++ [name]) = none := links_of_node hnode
        exact ⟨hplain hnone, by simp [hnode], hnone, next, name, rfl, hdir⟩
      · cases k <;> simp at h
      · cases k with
        | zero => simp at h
        | succ k =>
          obtain ⟨htarget, hentry⟩ := ih k (Nat.lt_succ_self k) h
          rw [dropLast_concat] at htarget
          refine ⟨?_, hentry⟩
          rw [hwalk, walk_link (links_eq_some.2 hnode), htarget, Option.bind_some, walk_nil]

end Resolving

structure Safe (root : List N) (world : World N) : Prop where
  dirs : ∀ v, v <+: root → world.disk v = some .dir
  parent : ∀ place, root <+: place → place ≠ root → world.disk place ≠ none →
    world.disk place.dropLast = some .dir
  below : Below root world.disk.links
  contained : Contained root world

theorem links_update [DecidableEq N] (disk : Disk N) (place : List N) (node : Option (Node N)) :
    Disk.links (Function.update disk place node) =
      Function.update disk.links place (node.bind Node.target) := by
  funext at_
  by_cases h : at_ = place
  · subst h
    rw [Disk.links, update_self, update_self]
  · rw [Disk.links, update_of_ne h, update_of_ne h, Disk.links]

namespace Safe

variable {root : List N} {world : World N} {k : ℕ}

theorem init {disk : Disk N} (h : FreshRoot root disk) : Safe root ⟨disk, [], []⟩ := by
  have hnone : ∀ place, root <+: place → disk.links place = none := fun place hplace => by
    rw [Disk.links]
    by_cases hroot : place = root
    · rw [hroot, h.dirs root prefix_rfl]
      rfl
    · rw [h.empty place hplace hroot]
      rfl
  have hno : ∀ {place target}, root <+: place → disk.links place = some target → False :=
    fun hplace htarget => by simp [hnone _ hplace] at htarget
  refine ⟨h.dirs, ?_, ?_, ⟨by simp, ?_⟩⟩
  · intro place hplace hroot hsome
    exact absurd (h.empty place hplace hroot) hsome
  · refine ⟨fun v hv => links_of_node (h.dirs v hv), ?_, ?_, ?_, ?_⟩ <;>
      exact fun place target hplace htarget => (hno hplace htarget).elim
  · intro d hd place target hplace htarget
    obtain rfl : d = disk := by simpa using hd
    exact (hno hplace (links_eq_some.2 htarget)).elim

variable {directory next : List N} {name : N}

theorem dirs_above (h : Safe root world) (hroot : root <+: directory)
    (hdir : world.disk directory = some .dir) :
    ∀ v, v <+: directory → world.disk v = some .dir := by
  induction directory using List.reverseRecOn with
  | nil =>
    intro v hv
    rwa [prefix_nil.1 hv]
  | append_singleton before name ih =>
    intro v hv
    rcases prefix_concat_iff.1 hv with rfl | hv
    · exact hdir
    rcases prefix_concat_iff.1 hroot with rfl | hroot'
    · exact h.dirs v (hv.trans (prefix_append _ _))
    · have hne : before ++ [name] ≠ root := by
        rintro rfl
        exact absurd hroot'.length_le (by simp)
      have hbefore := h.parent _ hroot hne (by simp [hdir])
      rw [dropLast_concat] at hbefore
      exact ih hroot' hbefore v hv

theorem links_above (h : Safe root world) (hroot : root <+: directory)
    (hdir : world.disk directory = some .dir) : ∀ v, v <+: directory → world.disk.links v = none :=
  fun v hv => links_of_node (h.dirs_above hroot hdir v hv)

theorem leaf (h : Safe root world) {entry : List N} (hroot : root <+: entry) (hne : entry ≠ root)
    (hleaf : world.disk entry ≠ some .dir) :
    ∀ place, entry <+: place → place ≠ entry → world.disk place = none := by
  intro place
  induction place using List.reverseRecOn with
  | nil =>
    intro hplace hplace'
    exact absurd (List.prefix_nil.1 hplace).symm hplace'
  | append_singleton before name ih =>
    intro hplace hplace'
    by_contra hsome
    have hbefore : entry <+: before := by
      rcases List.prefix_concat_iff.1 hplace with rfl | hbefore
      · exact absurd rfl hplace'
      · exact hbefore
    have hne' : before ++ [name] ≠ root := by
      rintro rfl
      exact absurd (hroot.trans hbefore).length_le (by simp)
    have hdir := h.parent _ (hroot.trans hplace) hne' hsome
    rw [List.dropLast_concat] at hdir
    by_cases hentry : before = entry
    · exact hleaf (hentry ▸ hdir)
    · rw [ih hbefore hentry] at hdir
      exact absurd hdir (by simp)

theorem resolve_below (h : Safe root world) {place : List N} (hplace : root <+: place)
    (hnext : world.disk.resolve k [] (names place) = .ok next) : root <+: next :=
  h.below.walk_place hplace (walk_of_resolve hnext)

variable [DecidableEq N]

theorem set_disk (place : List N) (node : Option (Node N)) :
    (world.set place node).disk = Function.update world.disk place node :=
  rfl

variable (h : Safe root world)
include h

theorem set {node : Option (Node N)} (hroot : root <+: directory)
    (hdir : world.disk directory = some .dir) (hleaf : world.disk (directory ++ [name]) ≠ some .dir)
    (hbelow : Below root (Function.update world.disk.links (directory ++ [name])
    (node.bind Node.target))) :
    Safe root (world.set (directory ++ [name]) node) := by
  have hshort : ∀ v, v <+: directory → v ≠ directory ++ [name] := by
    rintro v hv rfl
    exact absurd hv.length_le (by simp)
  have hlinks : (world.set (directory ++ [name]) node).disk.links =
      Function.update world.disk.links (directory ++ [name]) (node.bind Node.target) :=
    links_update _ _ _
  refine ⟨?_, ?_, hlinks ▸ hbelow, ⟨?_, ?_⟩⟩
  · intro v hv
    rw [set_disk, update_of_ne (hshort v (hv.trans hroot)), h.dirs v hv]
  · intro place hplace hne hsome
    rw [set_disk] at hsome ⊢
    by_cases hentry : place = directory ++ [name]
    · rw [hentry, dropLast_concat, update_of_ne (hshort _ prefix_rfl), hdir]
    · rw [update_of_ne hentry] at hsome
      have hparent := h.parent place hplace hne hsome
      rw [update_of_ne, hparent]
      intro heq
      rw [heq] at hparent
      exact hleaf hparent
  · intro place hplace
    rcases mem_cons.1 hplace with rfl | hplace
    · exact hroot.trans (prefix_append _ _)
    · exact h.contained.touched place hplace
  · intro disk hdisk place target hplace htarget k goal hgoal
    rcases mem_cons.1 hdisk with rfl | hdisk
    · exact (hlinks ▸ hbelow).target_below hplace (links_eq_some.2 htarget) hgoal
    · exact h.contained.links disk hdisk place target hplace htarget k goal hgoal

theorem set_plain {node : Node N} (hroot : root <+: directory)
    (hdir : world.disk directory = some .dir) (hleaf : world.disk (directory ++ [name]) ≠ some .dir)
    (hlink : world.disk.links (directory ++ [name]) = none) (hnode : node.target = none) :
    Safe root (world.set (directory ++ [name]) (some node)) ∧
      (world.set (directory ++ [name]) (some node)).disk.links = world.disk.links := by
  have hsame : Function.update world.disk.links (directory ++ [name])
      ((some node).bind Node.target) = world.disk.links := by
    rw [Option.bind_some, hnode, ← hlink, update_eq_self]
  exact ⟨h.set hroot hdir hleaf (by rw [hsame]; exact h.below), (links_update _ _ _).trans hsame⟩

/-- A link whose target passes the check where it is written stays below the root where it is put,
as long as no `..` steps back over a link. -/
theorem set_link {place : List N} {target : PathBuf N}
    (hplace : root <+: place) (hnext : world.disk.resolve k [] (names place) = .ok next)
    (hdir : world.disk next = some .dir) (hnone : world.disk (next ++ [name]) = none)
    (hflag : target.hasRoot = false)
    (hlast : ∃ last, lexical place target.parts = some last ∧ root <+: last)
    (hplain : NoneStepsBack root (Function.update world.disk.links (next ++ [name]) (some target)))
    (hback : ∀ k, StepsBackPlain (Function.update world.disk.links (next ++ [name]) (some target)) k
    place target.parts) :
    Safe root (world.set (next ++ [name]) (some (.link target))) := by
  have hroot : root <+: next := h.resolve_below hplace hnext
  have hleaf : world.disk (next ++ [name]) ≠ some .dir := by simp [hnone]
  have hentry : root <+: next ++ [name] := hroot.trans (prefix_append _ _)
  have hne : next ++ [name] ≠ root := by
    rintro heq
    exact hleaf (heq ▸ h.dirs root prefix_rfl)
  -- what was resolved before is resolved with the new link as well
  have hmono : ∀ {at_ goal : List N}, world.disk.resolve k [] (names at_) = .ok goal →
      walk (Function.update world.disk.links (next ++ [name]) (some target)) k [] (names at_) =
        some goal := by
    intro at_ goal hgoal
    have hupdate := links_update world.disk (next ++ [name]) (some (.link target))
    rw [Option.bind_some, Node.target] at hupdate
    rw [← hupdate]
    refine walk_of_resolve (resolve_mono (fun v node hv => ?_) hgoal)
    rw [update_of_ne, hv]
    rintro rfl
    rw [hnone] at hv
    exact absurd hv (by simp)
  have hnew : ∃ last, lexical next target.parts = some last ∧ root <+: last := by
    obtain ⟨last, hlexical, hbelow⟩ := hlast
    have hback' := hback k
    rw [← append_nil place] at hback' hlexical
    obtain ⟨place', next', rest, hle, hwalk, rfl, hnew⟩ :=
      lexical_transfer hback' hlexical (hmono hnext)
    rw [append_nil] at hnew
    refine ⟨_, hnew, ?_⟩
    obtain ⟨after, rfl⟩ := hle
    rw [names_append, resolve_append, bind_eq_ok] at hnext
    obtain ⟨goal, hgoal, -⟩ := hnext
    obtain rfl := Option.some.inj ((hmono hgoal).symm.trans hwalk)
    rcases prefix_or_prefix_of_prefix hplace (prefix_append place' after) with hle | hle
    · exact (h.resolve_below hle hgoal).trans (prefix_append _ _)
    · rw [resolve_dirs place' fun v hv => h.dirs v (hv.trans hle)] at hgoal
      rwa [← Except.ok.inj hgoal]
  refine h.set hroot hdir hleaf ?_
  rw [Option.bind_some, Node.target]
  refine h.below.update hroot (h.links_above hroot hdir) ?_ ?_ hplain
  · intro v hv hv'
    rw [Disk.links, h.leaf hentry hne hleaf v hv hv']
    rfl
  · intro target' htarget'
    obtain rfl := Option.some.inj htarget'
    exact ⟨hflag, hnew⟩

theorem set_none (hroot : root <+: next) (hdir : world.disk next = some .dir)
    (hleaf : world.disk (next ++ [name]) ≠ some .dir)
    (hplain : NoneStepsBack root (Function.update world.disk.links (next ++ [name]) none)) :
    Safe root (world.set (next ++ [name]) none) := by
  have hentry : root <+: next ++ [name] := hroot.trans (prefix_append _ _)
  have hne : next ++ [name] ≠ root := by
    rintro heq
    exact hleaf (heq ▸ h.dirs root prefix_rfl)
  refine h.set hroot hdir hleaf ?_
  refine h.below.update hroot (h.links_above hroot hdir) ?_ ?_ hplain
  · intro v hv hv'
    rw [Disk.links, h.leaf hentry hne hleaf v hv hv']
    rfl
  · rintro _ ⟨⟩

end Safe

end CodeOss.Cli.Extract
