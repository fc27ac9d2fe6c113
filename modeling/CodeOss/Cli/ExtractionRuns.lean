import CodeOss.Cli.ExtractionSteps

/-! Whole extractions: each entry keeps what is written and every link below the root. -/

namespace CodeOss.Cli.Extract

open LinkWalk List

variable {N : Type}

section Keeps

variable {ε ε' α β : Type} {P Q I : World N → Prop}

/-- From a state with `P` the action ends, with a result or an error, in a state with `I`. -/
def Keeps (P I : World N → Prop) (action : Action N ε α) : Prop :=
  ∀ world, P world → I (action world).2

variable {x : Action N ε α} {f : α → Action N ε β} {world world' : World N} {a : α} {e : ε}

theorem bind_ok (h : x world = (.ok a, world')) : (x >>= f) world = f a world' := by
  simp [Bind.bind, ExceptT.bind, ExceptT.mk, StateT.bind, h, ExceptT.bindCont]

theorem bind_error (h : x world = (.error e, world')) : (x >>= f) world = (.error e, world') := by
  simp [Bind.bind, ExceptT.bind, ExceptT.mk, StateT.bind, h, ExceptT.bindCont, Pure.pure,
    StateT.pure]

theorem adapt_ok {f : ε → ε'} (h : x world = (.ok a, world')) :
    x.adapt f world = (.ok a, world') := by
  have hmap : x.adapt f world = ((x world).1.mapError f, (x world).2) := rfl
  rw [hmap, h]
  rfl

theorem tryCatch_ok {f : ε → Action N ε α} (h : x world = (.ok a, world')) :
    (tryCatch x f) world = (.ok a, world') := by
  simp [MonadExcept.tryCatch, tryCatchThe, MonadExceptOf.tryCatch, ExceptT.tryCatch, ExceptT.mk,
    Bind.bind, StateT.bind, h, Pure.pure, StateT.pure]

theorem tryCatch_error {f : ε → Action N ε α} (h : x world = (.error e, world')) :
    (tryCatch x f) world = f e world' := by
  simp [MonadExcept.tryCatch, tryCatchThe, MonadExceptOf.tryCatch, ExceptT.tryCatch, ExceptT.mk,
    Bind.bind, StateT.bind, h]

theorem Keeps.bind (hx : Keeps P P x) (hf : ∀ a, Keeps P I (f a))
    (hPI : ∀ world, P world → I world) : Keeps P I (x >>= f) := by
  intro world hworld
  have hfirst := hx world hworld
  rcases hrun : x world with ⟨_ | a, world'⟩ <;> rw [hrun] at hfirst
  · rw [bind_error hrun]
    exact hPI world' hfirst
  · rw [bind_ok hrun]
    exact hf a world' hfirst

theorem Keeps.lift_bind {x : Except ε α} (hf : ∀ a, x = .ok a → Keeps P I (f a))
    (hPI : ∀ world, P world → I world) : Keeps P I (liftExcept x >>= f) := by
  cases x with
  | error e => exact fun world hworld => hPI world hworld
  | ok a => exact hf a rfl

theorem Keeps.pure : Keeps P P (pure a : Action N ε α) := fun _ hworld => hworld

theorem Keeps.throw : Keeps P P (throw e : Action N ε α) := fun _ hworld => hworld

theorem Keeps.adapt {f : ε → ε'} (hx : Keeps P I x) : Keeps P I (x.adapt f) := by
  intro world hworld
  have hsame : (x.adapt f world).2 = (x world).2 := rfl
  exact hsame ▸ hx world hworld

theorem Keeps.tryCatch {f : ε → Action N ε α} (hx : Keeps P P x) (hf : ∀ e, Keeps P P (f e)) :
    Keeps P P (tryCatch x f) := by
  intro world hworld
  have hfirst := hx world hworld
  rcases hrun : x world with ⟨e | a, world'⟩ <;> rw [hrun] at hfirst
  · rw [tryCatch_error hrun]
    exact hf e world' hfirst
  · rw [tryCatch_ok hrun]
    exact hfirst

theorem Keeps.get_bind {f : World N → Action N ε α}
    (hf : ∀ world, P world → Keeps (· = world) I (f world)) :
    Keeps P I ((get : Action N ε (World N)) >>= f) :=
  fun world hworld => hf world hworld world rfl

theorem Keeps.modify {f : World N → World N} (hf : ∀ world, P world → I (f world)) :
    Keeps P I (modify f : Action N ε PUnit) := hf

theorem Keeps.weaken (hx : Keeps P Q x) (hQI : ∀ world, Q world → I world) : Keeps P I x :=
  fun world hworld => hQI _ (hx world hworld)

end Keeps

section Fs

variable {ε : Type} {P I : World N → Prop} {k : ℕ} {path : PathBuf N}

theorem canonicalize_keeps : Keeps P P (Fs.canonicalize k path) := by
  refine Keeps.get_bind fun world hworld => ?_
  exact Keeps.lift_bind (fun place _ => by rintro _ rfl; exact hworld)
    (by rintro _ rfl; exact hworld)

theorem isDir_keeps : Keeps P P (Fs.isDir k path) := fun _ hworld => hworld

theorem setPermissions_keeps : Keeps P P (Fs.setPermissions k path) := by
  refine Keeps.get_bind fun world hworld => ?_
  exact Keeps.lift_bind (fun place _ => by rintro _ rfl; exact hworld)
    (by rintro _ rfl; exact hworld)

variable [DecidableEq N]

theorem make_keeps {node : Node N} (hPI : ∀ world, P world → I world)
    (h : ∀ world entry, P world → world.disk.entryOf k (path.start []) path.parts =
    .ok entry → world.disk entry = none → I (world.set entry (some node))) :
    Keeps P I (Fs.make k path node) := by
  refine Keeps.get_bind fun world hworld => ?_
  refine Keeps.lift_bind (fun entry hentry => ?_) (by rintro _ rfl; exact hPI _ hworld)
  split
  · rename_i hnone
    exact Keeps.modify (by rintro _ rfl; exact h _ entry hworld hentry (by simpa using hnone))
  · exact Keeps.throw.weaken (by rintro _ rfl; exact hPI _ hworld)

theorem create_keeps (hPI : ∀ world, P world → I world)
    (h : ∀ world place, P world → world.disk.openedFile k (path.start []) path.parts =
    .ok place → I (world.set place (some .file))) : Keeps P I (Fs.create k path) := by
  refine Keeps.get_bind fun world hworld => ?_
  refine Keeps.lift_bind (fun place hplace => ?_) (by rintro _ rfl; exact hPI _ hworld)
  exact Keeps.modify (by rintro _ rfl; exact h _ place hworld hplace)

end Fs

section Entry

variable {root : List N} {k : ℕ} {L : Links N}

/-- Safe, and no link has changed since the entry was begun. -/
def SafeWith (root : List N) (L : Links N) (world : World N) : Prop :=
  Safe root world ∧ world.disk.links = L

variable {world : World N} {place : List N}

theorem SafeWith.entry (h : SafeWith root L world) {entry : List N}
    (hplace : root <+: place) (hentry : world.disk.entryOf k [] (names place) = .ok entry)
    (hleaf : world.disk entry ≠ some .dir) : ∃ directory name next, place = directory ++ [name] ∧
    root <+: directory ∧ world.disk.resolve k [] (names directory) = .ok next ∧ world.disk next =
    some .dir ∧ entry = next ++ [name] ∧ LeadsTo L (.ofPlace place) directory entry := by
  obtain ⟨directory, name, next, rfl, hnext, hdir, rfl⟩ := entryOf_ofPlace hentry
  refine ⟨directory, name, next, rfl, ?_, hnext, hdir, rfl, ?_⟩
  · rcases prefix_concat_iff.1 hplace with rfl | hle
    · have hdirs := resolve_dirs (k := k) directory fun v hv =>
        h.1.dirs v (hv.trans (prefix_append _ _))
      obtain rfl := Except.ok.inj (hdirs.symm.trans hnext)
      exact absurd (h.1.dirs _ prefix_rfl) hleaf
    · exact hle
  · exact ⟨name, next, k, rfl, h.2 ▸ walk_of_resolve hnext, rfl⟩

theorem parent_ofPlace (place : List N) : (PathBuf.ofPlace place).parent = if place = [] then none
    else some (.ofPlace place.dropLast) := by
  rcases eq_nil_or_concat' place with rfl | ⟨before, name, rfl⟩
  · rfl
  · simp [PathBuf.parent, PathBuf.ofPlace, names]

variable [DecidableEq N]

theorem SafeWith.set_plain (h : SafeWith root L world) {directory : List N} {name : N}
    {node : Node N} (hroot : root <+: directory) (hdir : world.disk directory = some .dir)
    (hleaf : world.disk (directory ++ [name]) ≠ some .dir)
    (hlink : world.disk.links (directory ++ [name]) = none) (hnode : node.target = none) :
    SafeWith root L (world.set (directory ++ [name]) (some node)) :=
  let hset := h.1.set_plain hroot hdir hleaf hlink hnode
  ⟨hset.1, hset.2.trans h.2⟩

theorem mkdir_keeps (hplace : root <+: place ∨ place <+: root) :
    Keeps (SafeWith root L) (SafeWith root L) (Fs.mkdir k (.ofPlace place)) := by
  refine make_keeps (fun _ => id) fun world entry hworld hentry hnone => ?_
  obtain ⟨directory, name, next, rfl, hnext, hdir, rfl⟩ := entryOf_ofPlace hentry
  have hbefore : ∀ h : directory ++ [name] <+: root, False := fun hle => by
    have hdirs := resolve_dirs (k := k) directory fun v hv =>
      hworld.1.dirs v ((hv.trans (prefix_append _ _)).trans hle)
    obtain rfl := Except.ok.inj (hdirs.symm.trans hnext)
    rw [hworld.1.dirs _ hle] at hnone
    exact absurd hnone (by simp)
  have hroot : root <+: directory := by
    rcases hplace with hle | hle
    · rcases prefix_concat_iff.1 hle with rfl | hle
      · exact (hbefore prefix_rfl).elim
      · exact hle
    · exact (hbefore hle).elim
  refine hworld.set_plain (hworld.1.resolve_below hroot hnext) hdir (by simp [hnone]) ?_ rfl
  rw [Disk.links, hnone]
  rfl

theorem createDirAll_keeps (hplace : root <+: place ∨ place <+: root) :
    Keeps (SafeWith root L) (SafeWith root L) (Fs.createDirAll k (.ofPlace place)) := by
  have hattempt : ∀ (place : List N) otherwise, (root <+: place ∨ place <+: root) →
      (∀ e, Keeps (SafeWith root L) (SafeWith root L) (otherwise e)) →
      Keeps (SafeWith root L) (SafeWith root L)
        (Fs.createDirAllFrom.attempt k true (names place).reverse otherwise) := by
    intro place otherwise hplace hother
    rw [Fs.createDirAllFrom.attempt, reverse_reverse]
    refine (mkdir_keeps hplace).tryCatch fun e => ?_
    refine isDir_keeps.bind (fun found => ?_) fun _ => id
    split
    · exact Keeps.pure
    · exact hother e
  rw [Fs.createDirAll]
  show Keeps _ _ (Fs.createDirAllFrom k true (names place).reverse)
  induction place using List.reverseRecOn with
  | nil => exact hattempt [] _ hplace fun e => Keeps.throw
  | append_singleton before name ih =>
    have hbefore : root <+: before ∨ before <+: root := by
      rcases hplace with hle | hle
      · rcases prefix_concat_iff.1 hle with rfl | hle
        · exact Or.inr (prefix_append _ _)
        · exact Or.inl hle
      · exact Or.inr ((prefix_append _ _).trans hle)
    have hreverse : (names (before ++ [name])).reverse =
        .normal name :: (names before).reverse := by
      rw [names_append, reverse_append]
      rfl
    rw [hreverse, Fs.createDirAllFrom, ← hreverse]
    refine hattempt _ _ hplace fun e => ?_
    split
    · exact (ih hbefore).bind (fun _ => hattempt _ _ hplace fun e => Keeps.throw) fun _ => id
    · exact Keeps.throw

theorem ensure_keeps {P : World N → Prop} {path : PathBuf N} :
    Keeps P P (ensureCanonicalWithinRoot k (.ofPlace root) path) := by
  refine (canonicalize_keeps.adapt).bind (fun canon => ?_) fun _ => id
  split
  · exact Keeps.pure
  · exact Keeps.throw

theorem prepareParent_keeps (hplace : root <+: place) (message : PathBuf N → List (Piece N)) :
    Keeps (SafeWith root L) (SafeWith root L)
      (prepareParent k (.ofPlace root) (.ofPlace place) message) := by
  rw [prepareParent, parent_ofPlace]
  split_ifs with hnil
  · exact Keeps.pure
  · have hparent : root <+: place.dropLast ∨ place.dropLast <+: root := by
      rw [← dropLast_append_getLast hnil] at hplace
      rcases prefix_concat_iff.1 hplace with heq | hle
      · exact Or.inr (heq ▸ prefix_append _ _)
      · exact Or.inl hle
    exact ((createDirAll_keeps hparent).adapt).bind (fun _ => ensure_keeps) fun _ => id

theorem SafeWith.create (h : SafeWith root L world) {file : List N} (hplace : root <+: place)
    (hfile : world.disk.openedFile k [] (names place) = .ok file) :
    SafeWith root L (world.set file (some .file)) := by
  obtain ⟨hwalk, hleaf, hlink, directory, name, rfl, hdir⟩ := openedFile_spec hfile
  have hroot : root <+: directory := by
    rcases prefix_concat_iff.1 (h.1.below.walk_place hplace hwalk) with rfl | hle
    · exact absurd (h.1.dirs _ prefix_rfl) hleaf
    · exact hle
  exact h.set_plain hroot hdir hleaf hlink rfl

theorem Safe.put {entry : List N} {entryType : EntryType N} (h : Safe root world)
    (hplace : root <+: place) (hentry : world.disk.entryOf k [] (names place) = .ok entry)
    (hnone : world.disk entry = none)
    (hlink : ∀ target, entryType = .symlink target → validateSymlinkTarget (.ofPlace root)
    (.ofPlace place) target = .ok () ∧ NoneStepsBack root
    (Function.update world.disk.links entry (some target)) ∧ ∀ directory name, place = directory ++
    [name] → ∀ k, StepsBackPlain (Function.update world.disk.links entry (some target)) k directory
    target.parts) :
    Safe root (world.set entry (some entryType.node)) := by
  have hleaf : world.disk entry ≠ some .dir := by simp [hnone]
  have hlinks : world.disk.links entry = none := by rw [Disk.links, hnone]; rfl
  have hwith : SafeWith root world.disk.links world := ⟨h, rfl⟩
  obtain ⟨directory, name, next, rfl, hroot, hnext, hdir, rfl, -⟩ :=
    hwith.entry hplace hentry hleaf
  cases entryType with
  | regular => exact (h.set_plain (h.resolve_below hroot hnext) hdir hleaf hlinks rfl).1
  | directory => exact (h.set_plain (h.resolve_below hroot hnext) hdir hleaf hlinks rfl).1
  | symlink target =>
    obtain ⟨hcheck, hothers, hback⟩ := hlink target rfl
    obtain ⟨hflag, hlast⟩ := validateSymlinkTarget_below hcheck
    exact h.set_link hroot hnext hdir hnone hflag hlast hothers (hback directory name rfl)

theorem SafeWith.link (h : SafeWith root L world) {entry : List N} {target : PathBuf N}
    (hplace : root <+: place) (hentry : world.disk.entryOf k [] (names place) = .ok entry)
    (hnone : world.disk entry = none)
    (hcheck : validateSymlinkTarget (.ofPlace root) (.ofPlace place) target = .ok ())
    (hplain : LinkPlain root L (.ofPlace place) target) :
    Safe root (world.set entry (some (.link target))) := by
  have hput : Safe root (world.set entry (some (EntryType.symlink target).node)) := by
    refine h.1.put hplace hentry hnone ?_
    rintro _ ⟨⟩
    obtain ⟨directory, name, next, rfl, -, -, -, -, hleads⟩ :=
      h.entry hplace hentry (by simp [hnone])
    rw [h.2]
    refine ⟨hcheck, (hplain directory entry hleads).1, fun directory' name' heq => ?_⟩
    obtain ⟨rfl, -⟩ := append_inj' heq rfl
    exact (hplain directory entry hleads).2
  exact hput

theorem unzipSymlink_keeps {file : ZipFile N} (hplace : root <+: place) (hplain : ∀ target,
    file.contents = .ok target → LinkPlain root L (.ofPlace place) target) : Keeps (SafeWith root L)
    (Safe root) (Zip.unzipSymlink k (.ofPlace root) (.ofPlace place) file) := by
  have hsafe : ∀ world : World N, SafeWith root L world → Safe root world := fun _ h => h.1
  refine Keeps.lift_bind (fun target hcontents => ?_) hsafe
  refine Keeps.lift_bind (fun _ hcheck => ?_) hsafe
  refine Keeps.adapt ?_
  rw [Fs.symlink]
  split_ifs
  · exact Keeps.throw.weaken hsafe
  · refine make_keeps hsafe fun world entry hworld hentry hnone => ?_
    refine hworld.link hplace hentry hnone hcheck (hplain target ?_)
    cases hdata : file.contents with
    | error e => simp [hdata, Except.mapError] at hcontents
    | ok found =>
      rw [hdata] at hcontents
      exact congrArg _ (Except.ok.inj hcontents)

theorem unzipRegular_keeps {file : ZipFile N} (hplace : root <+: place) :
    Keeps (SafeWith root L) (Safe root) (Zip.unzipRegular k (.ofPlace place) file) := by
  have hcreate : Keeps (SafeWith root L) (SafeWith root L) (Fs.create k (.ofPlace place)) :=
    create_keeps (fun _ => id) fun world file hworld hfile => hworld.create hplace hfile
  refine Keeps.weaken (Q := SafeWith root L) ?_ fun _ h => h.1
  refine hcreate.adapt.bind (fun _ => ?_) fun _ => id
  refine Keeps.lift_bind (fun _ _ => ?_) fun _ => id
  rw [Zip.applyPermissions]
  split
  · exact Keeps.pure
  · exact setPermissions_keeps.adapt

theorem Zip.unzipEntry_safe {skip : ℕ} {entry : Option (ZipFile N) × ℕ} (h : Safe root world)
    (hplain : Zip.EntryPlain root skip entry world) :
    Safe root (Zip.unzipEntry k (.ofPlace root) skip entry world).2 := by
  have hsafe : ∀ {α : Type} {action : Action N (Failure N) α},
      Keeps (SafeWith root world.disk.links) (SafeWith root world.disk.links) action →
        Keeps (SafeWith root world.disk.links) (Safe root) action :=
    fun haction => haction.weaken fun _ h => h.1
  suffices hkeeps : Keeps (SafeWith root world.disk.links) (Safe root)
      (Zip.unzipEntry k (.ofPlace root) skip entry) from hkeeps world ⟨h, rfl⟩
  rw [Zip.unzipEntry]
  split
  · exact hsafe Keeps.throw
  · rename_i file hfile
    split
    · exact hsafe Keeps.pure
    · rename_i path hpath
      dsimp only
      split
      · exact hsafe Keeps.pure
      refine Keeps.lift_bind (fun outpath hjoin => ?_) fun _ h => h.1
      obtain ⟨place, rfl, hplace⟩ := safeExtractJoin_below hjoin
      split
      · refine hsafe ((createDirAll_keeps (Or.inl hplace)).adapt.bind (fun _ => ?_) fun _ => id)
        refine ensure_keeps.bind (fun _ => ?_) fun _ => id
        rw [Zip.applyPermissions]
        split
        · exact Keeps.pure
        · exact setPermissions_keeps.adapt
      · refine (prepareParent_keeps hplace _).bind (fun _ => ?_) fun _ h => h.1
        split
        · rename_i hlink
          refine unzipSymlink_keeps hplace fun target htarget => ?_
          exact hplain file path _ target (Option.filter_eq_some_iff.1 hfile).1 hpath hjoin hlink
            htarget
        · exact unzipRegular_keeps hplace

theorem SafeWith.clear (h : SafeWith root L world) {entry : List N} (hplace : root <+: place)
    (hentry : world.disk.entryOf k [] (names place) = .ok entry)
    (hleaf : world.disk entry ≠ some .dir) (hcleared : ClearedPlain root L (.ofPlace place)) :
    SafeWith root (Function.update L entry none) (world.set entry none) := by
  obtain ⟨directory, name, next, rfl, hroot, hnext, hdir, rfl, hleads⟩ :=
    h.entry hplace hentry hleaf
  have hothers := hcleared directory _ hleads
  refine ⟨h.1.set_none (h.1.resolve_below hroot hnext) hdir hleaf (h.2 ▸ hothers), ?_⟩
  rw [Safe.set_disk, links_update, h.2]
  rfl

theorem Unpacked.safe {world' : World N} {entryType : EntryType N}
    (hunpacked : Unpacked k (.ofPlace place) entryType world world') (h : SafeWith root L world)
    (hplace : root <+: place) (hcleared : ClearedPlain root L (.ofPlace place))
    (hlink : ∀ target, entryType = .symlink target → validateSymlinkTarget (.ofPlace root)
    (.ofPlace place) target = .ok () ∧ LinkPlain root L (.ofPlace place) target) :
    Safe root world' := by
  -- the condition on a link at the place where the path leads
  have hat : ∀ {entry : List N}, world.disk.entryOf k [] (names place) = .ok entry →
      world.disk entry ≠ some .dir → ∀ target, entryType = .symlink target →
        validateSymlinkTarget (.ofPlace root) (.ofPlace place) target = .ok () ∧
          NoneStepsBack root (Function.update L entry (some target)) ∧
          ∀ directory name, place = directory ++ [name] →
            ∀ k, StepsBackPlain (Function.update L entry (some target)) k directory
              target.parts := by
    intro entry hentry hleaf target htype
    obtain ⟨hcheck, hplain⟩ := hlink target htype
    obtain ⟨directory, name, next, rfl, -, -, -, -, hleads⟩ := h.entry hplace hentry hleaf
    refine ⟨hcheck, (hplain directory entry hleads).1, fun directory' name' heq => ?_⟩
    obtain ⟨rfl, -⟩ := append_inj' heq rfl
    exact (hplain directory entry hleads).2
  cases hunpacked with
  | untouched => exact h.1
  | created hentry hnone =>
    refine Safe.put h.1 hplace hentry hnone ?_
    rw [h.2]
    exact hat hentry (by simp [hnone])
  | overwritten hfile => exact (h.create hplace hfile).1
  | removed hentry hnode hdir =>
    exact (h.clear hplace hentry (by simpa [hnode] using hdir) hcleared).1
  | replaced hentry hnode hdir hagain hnone =>
    rename_i entry again node
    have hleaf : world.disk entry ≠ some .dir := by simpa [hnode] using hdir
    have hclear := h.clear hplace hentry hleaf hcleared
    refine Safe.put hclear.1 hplace hagain hnone ?_
    -- what resolves without the old entry resolved with it
    obtain ⟨directory, name, next, rfl, hnext, -, rfl⟩ := entryOf_ofPlace hentry
    obtain ⟨directory', name', next', heq, hnext', -, rfl⟩ := entryOf_ofPlace hagain
    obtain ⟨rfl, hname⟩ := append_inj' heq rfl
    obtain rfl := singleton_inj.1 hname
    have hmono : world.disk.resolve k [] (names directory) = .ok next' := by
      refine resolve_mono (fun v found hv => ?_) hnext'
      rw [Safe.set_disk] at hv
      by_cases hentry : v = next ++ [name]
      · rw [hentry, Function.update_self] at hv
        exact absurd hv (by simp)
      · rwa [Function.update_of_ne hentry] at hv
    obtain rfl := Except.ok.inj (hnext.symm.trans hmono)
    rw [hclear.2]
    simpa only [Function.update_idem] using hat hentry hleaf

theorem Tar.unpackEntry_safe {unpack : TarEntry N → PathBuf N → Action N ErrorKind Unit}
    (hunpack : UnpacksAsDocumented k unpack) {skipFirst : Bool} {entry : TarEntry N}
    (h : Safe root world) (hplain : Tar.EntryPlain root skipFirst entry world) :
    Safe root (Tar.unpackEntry k unpack (.ofPlace root) skipFirst entry world).2 := by
  suffices hkeeps : Keeps (SafeWith root world.disk.links) (Safe root)
      (Tar.unpackEntry k unpack (.ofPlace root) skipFirst entry) from hkeeps world ⟨h, rfl⟩
  have hsafe : ∀ world' : World N, SafeWith root world.disk.links world' → Safe root world' :=
    fun _ h => h.1
  rw [Tar.unpackEntry]
  split
  · exact Keeps.throw.weaken hsafe
  · rename_i entryPath hpath
    split
    · exact Keeps.pure.weaken hsafe
    · refine Keeps.lift_bind (fun path hjoin => ?_) hsafe
      obtain ⟨hcleared, hlink⟩ := hplain entryPath path hpath hjoin
      obtain ⟨place, rfl, hplace⟩ := safeExtractJoin_below hjoin
      refine (prepareParent_keeps hplace _).bind (fun _ => Keeps.adapt ?_) hsafe
      intro world' hworld'
      exact (hunpack entry _ world' rfl).safe hworld' hplace hcleared hlink

end Entry

section Archives

variable {root : List N} {k : ℕ}

variable {world : World N}

theorem forM_safe {α : Type} {step : α → Action N (Failure N) Unit} {P : α → World N → Prop}
    (hstep : ∀ a world, Safe root world → P a world → Safe root (step a world).2) (entries : List α)
    (h : Safe root world) (heach : EachStep step P entries world) :
    Safe root (entries.forM step world).2 := by
  induction entries generalizing world with
  | nil => exact h
  | cons a rest ih =>
    obtain ⟨ha, hrest⟩ := heach
    have hfirst := hstep a world h ha
    have hcons : (a :: rest).forM step = (step a >>= fun _ => rest.forM step) := rfl
    rcases hrun : step a world with ⟨_ | ⟨⟩, world'⟩ <;> rw [hrun] at hfirst
    · rw [hcons, bind_error hrun]
      exact hfirst
    · rw [hcons, bind_ok hrun]
      exact ih hfirst (hrest world' hrun)

variable [DecidableEq N]

theorem createDirAll_dir {path : PathBuf N}
    {place : List N} (hplace : world.disk.resolve k (path.start []) path.parts = .ok place)
    (hdir : world.disk place = some .dir) : Fs.createDirAll k path world = (.ok (), world) := by
  have hexists : Fs.mkdir k path world = (.error .alreadyExists, world) := by
    have hthrow : ∀ entry, world.disk.entryOf k (path.start []) path.parts = .ok entry →
        (world.disk entry).isSome → Fs.mkdir k path world = (.error .alreadyExists, world) := by
      intro entry hentry hsome
      have hget : Fs.mkdir k path world =
          ((liftExcept (world.disk.entryOf k (path.start []) path.parts) >>= fun entry =>
            if (world.disk entry).isNone then modify (·.set entry (some .dir))
            else throw .alreadyExists : Action N ErrorKind Unit) world) := rfl
      have hlift : (liftExcept (.ok entry : Except ErrorKind (List N)) :
          Action N ErrorKind (List N)) world = (.ok entry, world) := rfl
      rw [hget, hentry, bind_ok hlift, if_neg (by simp [Option.isSome_iff_ne_none.1 hsome])]
      rfl
    have hfail : world.disk.entryOf k (path.start []) path.parts = .error .alreadyExists →
        Fs.mkdir k path world = (.error .alreadyExists, world) := by
      intro hentry
      have hget : Fs.mkdir k path world =
          ((liftExcept (world.disk.entryOf k (path.start []) path.parts) >>= fun entry =>
            if (world.disk entry).isNone then modify (·.set entry (some .dir))
            else throw .alreadyExists : Action N ErrorKind Unit) world) := rfl
      rw [hget, hentry]
      rfl
    rcases eq_nil_or_concat' path.parts with hparts | ⟨before, part, hparts⟩
    · refine hfail ?_
      rw [hparts] at hplace ⊢
      rw [Disk.entryOf, hplace]
      rfl
    · rw [hparts] at hplace hfail hthrow
      cases part with
      | normal name =>
        rw [resolve_append, bind_eq_ok] at hplace
        obtain ⟨next, hnext, hlast⟩ := hplace
        obtain ⟨_, hnextdir, hpart, -⟩ := resolve_cons.1 hlast
        refine hthrow (next ++ [name]) ?_ ?_
        · rw [Disk.entryOf, getLast?_concat, dropLast_concat, hnext]
          dsimp only
          rw [hnextdir]
        · cases hpart with
          | plain hnode _ => rw [hnode]; rfl
          | link _ hlink _ => rw [hlink]; rfl
      | _ =>
        refine hfail ?_
        rw [Disk.entryOf, getLast?_concat, hplace]
  have hisDir : world.disk.isDir k path = true := by
    rw [Disk.isDir, hplace]
    dsimp only
    rw [hdir]
    rfl
  have hattempt : ∀ otherwise : ErrorKind → Action N ErrorKind Unit,
      Fs.createDirAllFrom.attempt k path.hasRoot path.parts.reverse otherwise world =
        (.ok (), world) := by
    intro otherwise
    have hpath : (⟨path.hasRoot, path.parts.reverse.reverse⟩ : PathBuf N) = path := by
      rw [reverse_reverse]
    rw [Fs.createDirAllFrom.attempt, hpath, tryCatch_error hexists]
    have hfound : Fs.isDir k path world = (.ok true, world) := by rw [← hisDir]; rfl
    rw [bind_ok hfound]
    rfl
  rw [Fs.createDirAll]
  cases hparts : path.parts.reverse with
  | nil =>
    rw [hparts] at hattempt
    rw [Fs.createDirAllFrom]
    split
    · exact hattempt _
    · rfl
  | cons part rest =>
    rw [hparts] at hattempt
    rw [Fs.createDirAllFrom]
    exact hattempt _

theorem prepareExtractionRoot_dir {path : PathBuf N} {place : List N}
    (hplace : world.disk.resolve k (path.start []) path.parts = .ok place)
    (hdir : world.disk place = some .dir) :
    prepareExtractionRoot k path world = (.ok (.ofPlace place), world) := by
  have hcreate : mapErr (Fs.createDirAll k path)
      [.text "could not create extraction root ", .path path] world = (.ok (), world) :=
    adapt_ok (createDirAll_dir hplace hdir)
  have hcanon : Fs.canonicalize k path world = (.ok (.ofPlace place), world) := by
    have hget : Fs.canonicalize k path world =
        ((liftExcept (world.disk.resolve k (path.start []) path.parts) >>= fun place =>
          pure (.ofPlace place) : Action N ErrorKind (PathBuf N)) world) := rfl
    rw [hget, hplace]
    rfl
  rw [prepareExtractionRoot, bind_ok hcreate]
  exact adapt_ok hcanon

/-- Extraction stays below the root while every `..` of a link's target goes up from what is no
link, and while the targets of a tar archive's links pass the check for zip archives. -/
theorem extraction_contained {disk : Disk N} {parentPath : PathBuf N} (hroot : FreshRoot root disk)
    (hcanonical : disk.resolve k (parentPath.start []) parentPath.parts = .ok root) :
    (∀ archive : List (Option (ZipFile N)),
      (∀ skip, Zip.shouldSkipFirstSegment archive = .ok skip →
        EachStep (Zip.unzipEntry k (.ofPlace root) skip.toNat) (Zip.EntryPlain root skip.toNat)
          archive.zipIdx ⟨disk, [], []⟩) →
      Contained root (Zip.unzipFile k archive parentPath ⟨disk, [], []⟩).2) ∧
    ∀ unpack, UnpacksAsDocumented k unpack → ∀ archive : List (Option (TarEntry N)),
      (∀ skipFirst, Tar.shouldSkipFirstSegment archive = .ok skipFirst →
        EachStep (Tar.unpackEntry k unpack (.ofPlace root) skipFirst)
          (Tar.EntryPlain root skipFirst) (archive.filterMap id) ⟨disk, [], []⟩) →
      Contained root (Tar.decompressTarball k unpack archive parentPath ⟨disk, [], []⟩).2 := by
  have hstart : Safe root ⟨disk, [], []⟩ := .init hroot
  have hprepare : prepareExtractionRoot k parentPath ⟨disk, [], []⟩ =
      (.ok (.ofPlace root), ⟨disk, [], []⟩) :=
    prepareExtractionRoot_dir hcanonical (hroot.dirs root List.prefix_rfl)
  refine ⟨fun archive heach => ?_, fun unpack hunpack archive heach => ?_⟩
  · rw [Zip.unzipFile, bind_ok hprepare]
    cases hskip : Zip.shouldSkipFirstSegment archive with
    | error e => exact hstart.contained
    | ok skip =>
      exact (forM_safe (fun entry world h hplain => Zip.unzipEntry_safe h hplain) _ hstart
        (heach skip hskip)).contained
  · rw [Tar.decompressTarball]
    cases hskip : Tar.shouldSkipFirstSegment archive with
    | error e => exact hstart.contained
    | ok skipFirst =>
      have hlift : (liftExcept (.ok skipFirst : Except (Failure N) Bool) :
          Action N (Failure N) Bool) ⟨disk, [], []⟩ = (.ok skipFirst, ⟨disk, [], []⟩) := rfl
      rw [bind_ok hlift, bind_ok hprepare]
      exact (forM_safe (fun entry world h hplain => Tar.unpackEntry_safe hunpack h hplain) _
        hstart (heach skipFirst hskip)).contained

end Archives

theorem stepsBackPlain_of_notMem {L : Links N} {k : ℕ} {parts : List (Component N)}
    (h : .parentDir ∉ parts) (place : List N) : StepsBackPlain L k place parts := by
  induction parts generalizing place with
  | nil => exact trivial
  | cons part parts ih =>
    obtain ⟨hpart, hparts⟩ := not_or.1 (mt mem_cons.2 h)
    cases part with
    | curDir => exact ih hparts place
    | parentDir => exact absurd rfl hpart
    | normal name => exact ih hparts _

def emptyRoot : Disk ℕ := fun place => if place = [] ∨ place = [0] then some .dir else none

theorem emptyRoot_fresh : FreshRoot [0] emptyRoot := by
  refine ⟨fun v hv => ?_, fun place hplace hne => ?_⟩
  · rcases prefix_concat_iff.1 (show v <+: [] ++ [0] from hv) with rfl | hv
    · rfl
    · rw [prefix_nil.1 hv]
      rfl
  · refine if_neg (not_or.2 ⟨?_, hne⟩)
    rintro rfl
    exact absurd hplace.length_le (by simp)

theorem emptyRoot_links : emptyRoot.links = fun _ => none := by
  funext place
  rw [Disk.links, emptyRoot]
  split_ifs <;> rfl

variable (parts : List (Component ℕ))

def relativePath : PathBuf ℕ := ⟨false, parts⟩

def zipDir : Option (ZipFile ℕ) :=
  some ⟨some (relativePath parts), true, true, none, true, .ok (relativePath [])⟩

def zipRegular : Option (ZipFile ℕ) :=
  some ⟨some (relativePath parts), false, false, none, true, .ok (relativePath [])⟩

def zipLink (parts target : List (Component ℕ)) : Option (ZipFile ℕ) :=
  some ⟨some (relativePath parts), false, false, some 0o120777, true, .ok (relativePath target)⟩

/-- A link to a directory that comes later, and a file through the link. -/
def zipThroughLink : List (Option (ZipFile ℕ)) :=
  [zipLink (names [1]) (names [2]), zipDir (names [2]), zipRegular (names [1, 3])]

/-- `x/y/l` leads to the root, `x/y/l/..` above it; the last entry is written through it. -/
def zipBehindLink : List (Option (ZipFile ℕ)) :=
  [zipDir (names [1, 2]), zipLink (names [1, 2, 3]) [.parentDir, .parentDir],
    zipLink (names [4]) (names [1, 2, 3] ++ [.parentDir] ++ names [5]),
    zipRegular (.curDir :: names [4])]

def tarAbsolute : List (Option (TarEntry ℕ)) :=
  [some ⟨some (relativePath (names [1])), .symlink (.ofPlace [2])⟩]

def tarThroughLink : List (Option (TarEntry ℕ)) :=
  [some ⟨some (relativePath (names [1])), .symlink (relativePath (names [2]))⟩]

theorem linkPlain_of_notMem {root : List ℕ} {linkPath target : PathBuf ℕ}
    (h : .parentDir ∉ target.parts) : LinkPlain root emptyRoot.links linkPath target := by
  intro directory entry _
  refine ⟨fun place target' _ htarget k => ?_, fun k => stepsBackPlain_of_notMem h directory⟩
  rw [emptyRoot_links] at htarget
  obtain rfl : target = target' := by
    by_cases hplace : place = entry
    · rw [hplace, Function.update_self] at htarget
      exact Option.some.inj htarget
    · rw [Function.update_of_ne hplace] at htarget
      exact absurd htarget (by simp)
  exact stepsBackPlain_of_notMem h _

/-- An archive with a link forward, and one with a link only. -/
theorem extraction_contained_throughLink :
    Contained [0] (Zip.unzipFile 8 zipThroughLink (.ofPlace [0]) ⟨emptyRoot, [], []⟩).2 ∧
    Contained [0] (Tar.decompressTarball 8 (unpackInPlace 8) tarThroughLink (.ofPlace [0])
      ⟨emptyRoot, [], []⟩).2 := by
  have hcanonical : emptyRoot.resolve 8 ((PathBuf.ofPlace [0]).start [])
      (PathBuf.ofPlace [0]).parts = .ok [0] := rfl
  have h := extraction_contained emptyRoot_fresh hcanonical
  refine ⟨h.1 zipThroughLink fun skip hskip => ?_,
    h.2 (unpackInPlace 8) (unpackInPlace_documented 8) tarThroughLink fun skip hskip => ?_⟩
  · obtain rfl : false = skip := Except.ok.inj hskip
    refine ⟨?_, fun _ _ => ⟨?_, fun _ _ => ⟨?_, fun _ _ => trivial⟩⟩⟩
    · rintro file path outpath target ⟨⟩ ⟨⟩ - - ⟨⟩
      exact linkPlain_of_notMem (by simp [relativePath, names])
    · rintro file path outpath target ⟨⟩ - - hlink -
      exact absurd hlink Bool.false_ne_true
    · rintro file path outpath target ⟨⟩ - - hlink -
      exact absurd hlink Bool.false_ne_true
  · obtain rfl : false = skip := Except.ok.inj hskip
    refine ⟨?_, fun _ _ => trivial⟩
    rintro entryPath path ⟨⟩ hjoin
    obtain rfl : PathBuf.ofPlace [0, 1] = path := Except.ok.inj hjoin
    refine ⟨?_, ?_⟩
    · intro directory entry _ place target _ htarget
      rw [emptyRoot_links] at htarget
      have hnone : Function.update (fun _ => none) entry none place = (none : Option (PathBuf ℕ)) :=
        congrFun (Function.update_eq_self entry fun _ => none) place
      rw [hnone] at htarget
      exact absurd htarget (by simp)
    · rintro target ⟨⟩
      exact ⟨rfl, linkPlain_of_notMem (by simp [relativePath, names])⟩

/-- A file of a zip archive is written above the root, and a link of a tar archive leads out. -/
theorem extraction_not_contained :
    FreshRoot [0] emptyRoot ∧ emptyRoot.resolve 8 [] (names [0]) = .ok [0] ∧
    ¬ Contained [0] (Zip.unzipFile 8 zipBehindLink (.ofPlace [0]) ⟨emptyRoot, [], []⟩).2 ∧
    UnpacksAsDocumented 8 (unpackInPlace (N := ℕ) 8) ∧
    ¬ Contained [0] (Tar.decompressTarball 8 (unpackInPlace 8) tarAbsolute (.ofPlace [0])
      ⟨emptyRoot, [], []⟩).2 := by
  refine ⟨emptyRoot_fresh, rfl, fun h => ?_, unpackInPlace_documented 8, fun h => ?_⟩
  · have houtside : [0] <+: [5] := h.touched [5] (by decide)
    exact absurd houtside (by decide)
  · have houtside : [0] <+: [2] :=
      h.links _ (List.mem_cons_self) [0, 1] (.ofPlace [2]) (by decide) (by rfl) 8 [2] (by rfl)
    exact absurd houtside (by decide)

end CodeOss.Cli.Extract
