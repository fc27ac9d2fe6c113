import CodeOss.Cli.Extraction

/-! Extraction stays below its root as long as no `..` of a link's target steps back over a link,
and the targets of a tar archive's links are such as the check for zip archives lets pass. -/

namespace CodeOss.Cli.Extract

open LinkWalk

variable {N : Type}

theorem normalizeFrom_ofPlace (place : List N) (parts : List (Component N)) :
    normalizeFrom (.ofPlace place) parts = (lexical place parts).map .ofPlace := by
  induction parts generalizing place with
  | nil => rfl
  | cons part parts ih =>
    cases part with
    | curDir => exact ih place
    | normal name =>
      rw [normalizeFrom, lexical, ← ih, PathBuf.push, PathBuf.ofPlace, PathBuf.ofPlace,
        names_append]
      rfl
    | parentDir =>
      rw [normalizeFrom, lexical, PathBuf.parent, PathBuf.ofPlace]
      rcases List.eq_nil_or_concat' place with rfl | ⟨before, name, rfl⟩
      · rfl
      · have hparts : (names (before ++ [name])).isEmpty = false := by simp [names]
        rw [if_neg (by rw [hparts]; exact Bool.false_ne_true), if_neg (by simp),
          List.dropLast_concat, ← ih, names_append, show names [name] = [.normal name] from rfl,
          List.dropLast_concat]
        rfl

theorem lexicallyNormalize_join (place : List N) {path : PathBuf N} (h : path.hasRoot = false) :
    lexicallyNormalize ((PathBuf.ofPlace place).join path) =
      (lexical place path.parts).map .ofPlace := by
  rw [PathBuf.join, h, if_neg Bool.false_ne_true, lexicallyNormalize]
  exact (normalizeFrom_ofPlace [] _).trans (by rw [PathBuf.ofPlace, lexical_names, List.nil_append])

variable [DecidableEq N]

theorem startsWith_ofPlace {place root : List N} :
    (PathBuf.ofPlace place).startsWith (.ofPlace root) = true ↔ root <+: place := by
  have hcomponents : ∀ v : List N,
      (PathBuf.ofPlace v).components = none :: v.map (some ∘ Component.normal) := fun v => by
    rw [PathBuf.components, PathBuf.ofPlace, names, List.map_map]
    rfl
  have hinj : Function.Injective (some ∘ (Component.normal : N → Component N)) :=
    (Option.some_injective _).comp fun _ _ h => Component.normal.inj h
  rw [PathBuf.startsWith, List.isPrefixOf_iff_prefix, hcomponents, hcomponents,
    List.cons_prefix_cons, List.prefix_map_iff_of_injective hinj]
  exact and_iff_right rfl

theorem safeExtractJoin_below {root : List N} {entry path : PathBuf N}
    (h : safeExtractJoin (.ofPlace root) entry = .ok path) :
    ∃ place, path = .ofPlace place ∧ root <+: place := by
  rw [safeExtractJoin] at h
  split_ifs at h with hempty habsolute
  have hroot : entry.hasRoot = false := by
    rw [PathBuf.components] at habsolute
    cases hflag : entry.hasRoot with
    | false => rfl
    | true => simp [hflag] at habsolute
  rw [lexicallyNormalize_join root hroot] at h
  cases hlexical : lexical root entry.parts with
  | none => simp [hlexical] at h
  | some place =>
    simp only [hlexical, Option.map_some] at h
    split_ifs at h with hbelow
    exact ⟨place, (Except.ok.inj h).symm, startsWith_ofPlace.1 hbelow⟩

theorem validateSymlinkTarget_below {root directory : List N} {name : N} {target : PathBuf N}
    (h : validateSymlinkTarget (.ofPlace root) (.ofPlace (directory ++ [name])) target = .ok ()) :
    target.hasRoot = false ∧
      ∃ last, lexical directory target.parts = some last ∧ root <+: last := by
  have hparent : ((PathBuf.ofPlace (directory ++ [name])).parent.getD ⟨false, []⟩) =
      .ofPlace directory := by
    simp [PathBuf.parent, PathBuf.ofPlace, names]
  rw [validateSymlinkTarget, hparent] at h
  dsimp only at h
  split_ifs at h with habsolute
  have hflag : target.hasRoot = false := Bool.eq_false_iff.2 habsolute
  rw [lexicallyNormalize_join directory hflag] at h
  cases hlexical : lexical directory target.parts with
  | none => simp [hlexical] at h
  | some last =>
    simp only [hlexical, Option.map_some] at h
    split_ifs at h with hbelow
    exact ⟨hflag, last, rfl, startsWith_ofPlace.1 hbelow⟩

/-- What `Entry::unpack` is documented to do: it writes the entry at its path, in place of a file or
a link that is there, or it fails on the way. -/
inductive Unpacked (k : ℕ) (path : PathBuf N) : EntryType N → World N → World N → Prop
  | untouched (entryType : EntryType N) (world : World N) : Unpacked k path entryType world world
  | created {entryType : EntryType N} {world : World N} {entry : List N}
      (hentry : world.disk.entryOf k [] path.parts = .ok entry) (hnone : world.disk entry = none) :
      Unpacked k path entryType world (world.set entry (some entryType.node))
  | overwritten {world : World N} {place : List N}
      (hplace : world.disk.openedFile k [] path.parts = .ok place) :
      Unpacked k path .regular world (world.set place (some .file))
  | removed {entryType : EntryType N} {world : World N} {entry : List N} {node : Node N}
      (hentry : world.disk.entryOf k [] path.parts = .ok entry)
      (hnode : world.disk entry = some node) (hdir : node ≠ .dir) :
      Unpacked k path entryType world (world.set entry none)
  | replaced {entryType : EntryType N} {world : World N} {entry again : List N} {node : Node N}
      (hentry : world.disk.entryOf k [] path.parts = .ok entry)
      (hnode : world.disk entry = some node) (hdir : node ≠ .dir)
      (hagain : (world.set entry none).disk.entryOf k [] path.parts = .ok again)
      (hnone : (world.set entry none).disk again = none) :
      Unpacked k path entryType world
        ((world.set entry none).set again (some entryType.node))

/-- Unpacking as documented, for paths from the root. -/
def UnpacksAsDocumented (k : ℕ) (unpack : TarEntry N → PathBuf N → Action N ErrorKind Unit) :
    Prop :=
  ∀ entry path world, path.hasRoot = true →
    Unpacked k path entry.entryType world (unpack entry path world).2

/-- A directory is made where there is none, anything else in place of the file or link that is
there. -/
def unpackInPlace (k : ℕ) (entry : TarEntry N) (path : PathBuf N) : Action N ErrorKind Unit :=
  fun world =>
    match world.disk.entryOf k (path.start []) path.parts with
    | .error e => (.error e, world)
    | .ok place =>
      match world.disk place, entry.entryType with
      | none, entryType => (.ok (), world.set place (some entryType.node))
      | some .dir, .directory => (.ok (), world)
      | some _, .directory => (.error .alreadyExists, world)
      | some .dir, _ => (.error .isADirectory, world)
      | some _, _ => replace place world
where
  replace (place : List N) (world : World N) : Except ErrorKind Unit × World N :=
    let world := world.set place none
    match world.disk.entryOf k (path.start []) path.parts with
    | .error e => (.error e, world)
    | .ok place =>
      if (world.disk place).isNone then (.ok (), world.set place (some entry.entryType.node))
      else (.error .alreadyExists, world)

theorem unpackInPlace_documented (k : ℕ) : UnpacksAsDocumented k (unpackInPlace (N := N) k) := by
  intro entry path world hroot
  have hstart : path.start [] = [] := by rw [PathBuf.start, hroot, if_pos rfl]
  rw [unpackInPlace, hstart]
  cases hentry : world.disk.entryOf k [] path.parts with
  | error e => exact .untouched _ world
  | ok place =>
    -- a file or link in the way is removed first
    have hreplace : ∀ node, world.disk place = some node → node ≠ .dir →
        Unpacked k path entry.entryType world
          (unpackInPlace.replace k entry path place world).2 := by
      intro node hnode hdir
      rw [unpackInPlace.replace, hstart]
      cases hagain : (world.set place none).disk.entryOf k [] path.parts with
      | error e => exact .removed hentry hnode hdir
      | ok again =>
        dsimp only
        split_ifs with hnone
        · exact .replaced hentry hnode hdir hagain (by simpa using hnone)
        · exact .removed hentry hnode hdir
    dsimp only
    rcases hnode : world.disk place with _ | (_ | _ | target)
    · exact .created hentry hnode
    · have hfile := hreplace .file hnode (by simp)
      rcases htype : entry.entryType with _ | _ | _ <;> rw [htype] at hfile
      · exact hfile
      · exact .untouched _ world
      · exact hfile
    · rcases htype : entry.entryType with _ | _ | _ <;> exact .untouched _ world
    · have hlink := hreplace (.link target) hnode (by simp)
      rcases htype : entry.entryType with _ | _ | _ <;> rw [htype] at hlink
      · exact hlink
      · exact .untouched _ world
      · exact hlink

/-- The root and the directories above it are there, and nothing else below it. -/
structure FreshRoot (root : List N) (disk : Disk N) : Prop where
  dirs : ∀ v, v <+: root → disk v = some .dir
  empty : ∀ place, root <+: place → place ≠ root → disk place = none

/-- Everything written stands below the root, and in every state so far every link there leads
below the root, or nowhere. -/
structure Contained (root : List N) (world : World N) : Prop where
  touched : ∀ place ∈ world.touched, root <+: place
  links : ∀ disk ∈ world.disk :: world.past, ∀ place target, root <+: place →
    disk place = some (.link target) → ∀ k goal,
      walk disk.links k (target.start place.dropLast) target.parts = some goal → root <+: goal

variable (root : List N)

/-- No `..` of a link below the root steps back over a link. -/
def NoneStepsBack (L : Links N) : Prop :=
  ∀ place target, root <+: place → L place = some target →
    ∀ k, StepsBackPlain L k place.dropLast target.parts

/-- The last name of the path comes to stand at `entry`; `directory` is what is written before. -/
def LeadsTo (L : Links N) (path : PathBuf N) (directory entry : List N) : Prop :=
  ∃ name next k, path = .ofPlace (directory ++ [name]) ∧
    walk L k [] (names directory) = some next ∧ entry = next ++ [name]

/-- With the link at its place no `..` steps back over a link, neither one of the other links nor
one of the target read from the directory as it is written. -/
def LinkPlain (L : Links N) (linkPath target : PathBuf N) : Prop :=
  ∀ directory entry, LeadsTo L linkPath directory entry →
    NoneStepsBack root (Function.update L entry (some target)) ∧
      ∀ k, StepsBackPlain (Function.update L entry (some target)) k directory target.parts

/-- No `..` steps back over a link once the place of the path is cleared. -/
def ClearedPlain (L : Links N) (path : PathBuf N) : Prop :=
  ∀ directory entry, LeadsTo L path directory entry →
    NoneStepsBack root (Function.update L entry none)

def Zip.EntryPlain (skipSegmentsNo : ℕ) (entry : Option (ZipFile N) × ℕ) (world : World N) : Prop :=
  ∀ file path outpath target, entry.1 = some file → file.enclosedName = some path →
    safeExtractJoin (.ofPlace root) (.collect (path.components.drop skipSegmentsNo)) = .ok outpath →
    isSymlink file = true → file.contents = .ok target →
      LinkPlain root world.disk.links outpath target

/-- For tar archives the target has to pass the check that is made for zip archives. -/
def Tar.EntryPlain (skipFirst : Bool) (entry : TarEntry N) (world : World N) : Prop :=
  ∀ entryPath path, entry.path = some entryPath →
    safeExtractJoin (.ofPlace root) (relative skipFirst entryPath) = .ok path →
      ClearedPlain root world.disk.links path ∧
      ∀ target, entry.entryType = .symlink target →
        validateSymlinkTarget (.ofPlace root) path target = .ok () ∧
          LinkPlain root world.disk.links path target

/-- Along a run that goes on as long as its steps succeed. -/
def EachStep {α ε : Type} (step : α → Action N ε Unit) (P : α → World N → Prop) :
    List α → World N → Prop
  | [], _ => True
  | a :: rest, world =>
    P a world ∧ ∀ world', step a world = (.ok (), world') → EachStep step P rest world'

end CodeOss.Cli.Extract
