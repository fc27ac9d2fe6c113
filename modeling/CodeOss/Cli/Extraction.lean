import CodeOss.Library.LinkWalk

/-! Extracting archives below a directory: the checks of paths and of link targets, and the loops
over the entries of tar and zip archives. -/

namespace CodeOss.Cli.Extract

open LinkWalk

variable {N : Type} [DecidableEq N]

inductive Node (N : Type)
  | file
  | dir
  | link (target : PathBuf N)

def Node.target : Node N → Option (PathBuf N)
  | .link target => some target
  | _ => none

def Node.isDir : Node N → Bool
  | .dir => true
  | _ => false

/-- What stands at a canonical path. -/
abbrev Disk (N : Type) := List N → Option (Node N)

inductive ErrorKind
  | notFound
  | notADirectory
  | isADirectory
  | alreadyExists
  | filesystemLoop
  | other
  deriving DecidableEq

namespace Disk

variable (disk : Disk N)

def links : Links N := fun place => (disk place).bind Node.target

def advance (follow : List N → PathBuf N → Except ErrorKind (List N))
    (place : List N) (part : Component N) : Except ErrorKind (List N) :=
  match disk place with
  | none => .error .notFound
  | some .dir =>
    match part with
    | .curDir => .ok place
    | .parentDir => .ok place.dropLast
    | .normal name =>
      match disk (place ++ [name]) with
      | none => .error .notFound
      | some (.link target) => follow place target
      | some _ => .ok (place ++ [name])
  | some _ => .error .notADirectory

/-- What a path names, all of it existing and links followed; `k` bounds how deep. -/
def resolve (disk : Disk N) : ℕ → List N → List (Component N) → Except ErrorKind (List N)
  | 0, place, parts => parts.foldlM (disk.advance fun _ _ => .error .filesystemLoop) place
  | k + 1, place, parts =>
    parts.foldlM (disk.advance fun place target =>
      resolve disk k (target.start place) target.parts) place

/-- Where the last name of a path stands, whether or not something is there. -/
def entryOf (k : ℕ) (place : List N) (parts : List (Component N)) : Except ErrorKind (List N) :=
  match parts.getLast? with
  | some (.normal name) =>
    match disk.resolve k place parts.dropLast with
    | .error e => .error e
    | .ok directory =>
      match disk directory with
      | some .dir => .ok (directory ++ [name])
      | _ => .error .notADirectory
  | _ =>
    match disk.resolve k place parts with
    | .error e => .error e
    | .ok _ => .error .alreadyExists

/-- Which file is written when a path is opened for that: a link at its end is followed. -/
def openedFile (disk : Disk N) : ℕ → List N → List (Component N) → Except ErrorKind (List N)
  | k, place, parts =>
    match disk.entryOf k place parts with
    | .error .alreadyExists => .error .isADirectory
    | .error e => .error e
    | .ok entry =>
      match disk entry, k with
      | some .dir, _ => .error .isADirectory
      | some (.link _), 0 => .error .filesystemLoop
      | some (.link target), k + 1 =>
        openedFile disk k (target.start entry.dropLast) target.parts
      | _, _ => .ok entry

def isDir (k : ℕ) (path : PathBuf N) : Bool :=
  match disk.resolve k (path.start []) path.parts with
  | .error _ => false
  | .ok place => (disk place).any Node.isDir

end Disk

/-- The file system, with the places written so far and the earlier states. -/
structure World (N : Type) where
  disk : Disk N
  touched : List (List N)
  past : List (Disk N)

def World.set (world : World N) (place : List N) (node : Option (Node N)) : World N where
  disk := Function.update world.disk place node
  touched := place :: world.touched
  past := world.disk :: world.past

abbrev Action (N ε α : Type) := ExceptT ε (StateM (World N)) α

namespace Fs

variable (k : ℕ)

def canonicalize (path : PathBuf N) : Action N ErrorKind (PathBuf N) := do
  let place ← liftExcept ((← get).disk.resolve k (path.start []) path.parts)
  return .ofPlace place

def isDir (path : PathBuf N) : Action N ErrorKind Bool := do
  return (← get).disk.isDir k path

def make (path : PathBuf N) (node : Node N) : Action N ErrorKind Unit := do
  let disk := (← get).disk
  let entry ← liftExcept (disk.entryOf k (path.start []) path.parts)
  if (disk entry).isNone then modify (·.set entry (some node)) else throw .alreadyExists

def mkdir (path : PathBuf N) : Action N ErrorKind Unit := make k path .dir

def symlink (target path : PathBuf N) : Action N ErrorKind Unit :=
  if target.isEmpty then throw .notFound else make k path (.link target)

/-- `File::create`: makes the file or empties it. -/
def create (path : PathBuf N) : Action N ErrorKind Unit := do
  let place ← liftExcept ((← get).disk.openedFile k (path.start []) path.parts)
  modify (·.set place (some .file))

def setPermissions (path : PathBuf N) : Action N ErrorKind Unit := do
  let _ ← liftExcept ((← get).disk.resolve k (path.start []) path.parts)

/-- `create_dir_all`, on the components of the path from the last one on. -/
def createDirAllFrom (k : ℕ) (hasRoot : Bool) : List (Component N) → Action N ErrorKind Unit
  | [] => if hasRoot then attempt [] (throw ·) else return ()
  | part :: rest =>
    attempt (part :: rest) fun e =>
      if e = .notFound then do
        createDirAllFrom k hasRoot rest
        attempt (part :: rest) (throw ·)
      else throw e
where
  attempt (parts : List (Component N)) (otherwise : ErrorKind → Action N ErrorKind Unit) :
      Action N ErrorKind Unit :=
    tryCatch (mkdir k ⟨hasRoot, parts.reverse⟩) fun e => do
      if e ≠ .notFound && (← isDir k ⟨hasRoot, parts.reverse⟩) then return () else otherwise e

def createDirAll (path : PathBuf N) : Action N ErrorKind Unit :=
  createDirAllFrom k path.hasRoot path.parts.reverse

end Fs

inductive Piece (N : Type)
  | text (text : String)
  | path (path : PathBuf N)
  | name (name : Option (PathBuf N))
  | index (i : ℕ)

structure WrappedError (N : Type) where
  message : List (Piece N)
  original : ErrorKind ⊕ String

inductive Failure (N : Type)
  | wrapped (e : WrappedError N)
  | panic (message : String)

def wrap (original : ErrorKind ⊕ String) (message : List (Piece N)) : Failure N :=
  .wrapped ⟨message, original⟩

def mapErr (action : Action N ErrorKind Unit) (message : List (Piece N)) :
    Action N (Failure N) Unit :=
  action.adapt fun e => wrap (.inl e) message

def normalizeFrom (out : PathBuf N) : List (Component N) → Option (PathBuf N)
  | [] => some out
  | .normal name :: rest => normalizeFrom (out.push (some (.normal name))) rest
  | .curDir :: rest => normalizeFrom out rest
  | .parentDir :: rest =>
    match out.parent with
    | none => none
    | some out => normalizeFrom out rest

/-- Resolves `.` and `..` components without touching the file system. -/
def lexicallyNormalize (path : PathBuf N) : Option (PathBuf N) :=
  normalizeFrom ⟨path.hasRoot, []⟩ path.parts

def prepareExtractionRoot (k : ℕ) (root : PathBuf N) : Action N (Failure N) (PathBuf N) := do
  mapErr (Fs.createDirAll k root) [.text "could not create extraction root ", .path root]
  (Fs.canonicalize k root).adapt fun e =>
    wrap (.inl e) [.text "could not canonicalize extraction root ", .path root]

def safeExtractJoin (root entry : PathBuf N) : Except (Failure N) (PathBuf N) :=
  if entry.isEmpty then
    .error (wrap (.inr "empty extraction entry") [.text "refusing to extract empty archive entry"])
  else if none ∈ entry.components then
    .error (wrap (.inr "entry has an absolute or drive-prefixed path")
      [.text "refusing extraction entry ", .path entry])
  else
    match lexicallyNormalize (root.join entry) with
    | none => .error (wrap (.inr "entry escapes extraction root")
        [.text "refusing extraction entry ", .path entry])
    | some normalized =>
      if normalized.startsWith root then .ok normalized
      else .error (wrap (.inr "entry escapes extraction root")
        [.text "refusing extraction entry ", .path entry])

def ensureCanonicalWithinRoot (k : ℕ) (root path : PathBuf N) : Action N (Failure N) Unit := do
  let canon ← (Fs.canonicalize k path).adapt fun e =>
    wrap (.inl e) [.text "could not canonicalize extraction path ", .path path]
  unless canon.startsWith root do
    throw (wrap (.inr "extraction path resolves outside root")
      [.text "refusing to write ", .path path, .text " which resolves to ", .path canon])

def validateSymlinkTarget (root linkPath target : PathBuf N) : Except (Failure N) Unit :=
  let refuse (original : String) : Except (Failure N) Unit :=
    .error (wrap (.inr original)
      [.text "refusing symlink ", .path linkPath, .text " -> ", .path target])
  if target.hasRoot then refuse "symlink target is absolute"
  else
    match lexicallyNormalize ((linkPath.parent.getD ⟨false, []⟩).join target) with
    | none => refuse "symlink target escapes extraction root"
    | some normalized =>
      if normalized.startsWith root then .ok ()
      else refuse "symlink target escapes extraction root"

/-- The directory of an entry, made where it is missing, may not lead outside. -/
def prepareParent (k : ℕ) (root path : PathBuf N) (message : PathBuf N → List (Piece N)) :
    Action N (Failure N) Unit :=
  match path.parent with
  | none => return ()
  | some p => do
      mapErr (Fs.createDirAll k p) (message p)
      ensureCanonicalWithinRoot k root p

inductive EntryType (N : Type)
  | regular
  | directory
  | symlink (target : PathBuf N)

namespace EntryType

def isDir : EntryType N → Bool
  | .directory => true
  | _ => false

def node : EntryType N → Node N
  | .regular => .file
  | .directory => .dir
  | .symlink target => .link target

end EntryType

/-- An entry, with its path where that can be read. -/
structure TarEntry (N : Type) where
  path : Option (PathBuf N)
  entryType : EntryType N

namespace Tar

/-- Whether all the entries, of more than one, start with the same segment; `none` is an entry that
cannot be read. -/
def shouldSkipFirstSegment (archive : List (Option (TarEntry N))) : Except (Failure N) Bool :=
  match archive with
  | [] => .error (.panic "expected not to have an empty archive")
  | none :: _ => .error (wrap (.inl .other) [.text "error reading entry file"])
  | some file :: entries =>
    match file.path with
    | none => .error (.panic "expected to have path")
    | some path =>
      match path.components with
      | [] => .error (.panic "expected to have non-empty name")
      | firstName :: _ =>
        let files := entries.filterMap id
        let hadDifferentPrefixes := files.any fun file =>
          match file.path with
          | some name => name.components.head? ≠ some firstName
          | none => false
        .ok (!hadDifferentPrefixes && 1 + files.length > 1)

variable (k : ℕ) (unpack : TarEntry N → PathBuf N → Action N ErrorKind Unit)

/-- The path below the root that an entry asks for. -/
def relative (skipFirst : Bool) (entryPath : PathBuf N) : PathBuf N :=
  if skipFirst then .collect (entryPath.components.drop 1) else entryPath

def unpackEntry (root : PathBuf N) (skipFirst : Bool) (entry : TarEntry N) :
    Action N (Failure N) Unit :=
  match entry.path with
  | none => throw (wrap (.inl .other) [.text "error reading entry path"])
  | some entryPath =>
    -- bare top-level directory entries contribute nothing to extract
    if (relative skipFirst entryPath).isEmpty && entry.entryType.isDir then return ()
    else do
      let path ← liftExcept (safeExtractJoin root (relative skipFirst entryPath))
      prepareParent k root path fun p => [.text "could not create dir for ", .path p]
      mapErr (unpack entry path) [.text "error unpacking ", .path path]

def decompressTarball (archive : List (Option (TarEntry N))) (parentPath : PathBuf N) :
    Action N (Failure N) Unit := do
  let skipFirst ← liftExcept (shouldSkipFirstSegment archive)
  let root ← prepareExtractionRoot k parentPath
  (archive.filterMap id).forM (unpackEntry k unpack root skipFirst)

end Tar

/-- An entry of a zip archive. `opens` tells whether its contents can be read at all; of the
contents, which may fail to be read, only what they are as a path is needed. -/
structure ZipFile (N : Type) where
  enclosedName : Option (PathBuf N)
  isDir : Bool
  nameEndsWithSlash : Bool
  unixMode : Option UInt32
  opens : Bool
  contents : Except ErrorKind (PathBuf N)

namespace Zip

def S_IFLNK : UInt32 := 0o120000

def isSymlink (file : ZipFile N) : Bool :=
  match file.unixMode with
  | some mode => mode &&& S_IFLNK == S_IFLNK
  | none => false

def isDirectory (file : ZipFile N) : Bool := file.isDir || file.nameEndsWithSlash

def shouldSkipFirstSegment (archive : List (Option (ZipFile N))) : Except (Failure N) Bool :=
  match archive with
  | [] | none :: _ => .error (.panic "expected not to have an empty archive")
  | some file :: files =>
    match file.enclosedName with
    | none => .error (.panic "expected to have path")
    | some path =>
      match path.components with
      | [] => .error (.panic "expected to have non-empty name")
      | firstName :: _ =>
        let sameName (file : ZipFile N) := match file.enclosedName with
          | some name => name.components.head? == some firstName
          | none => true
        .ok ((files.filterMap id).all sameName && archive.length > 1)

variable (k : ℕ)

def applyPermissions (file : ZipFile N) (outpath : PathBuf N) : Action N (Failure N) Unit :=
  match file.unixMode with
  | none => return ()
  | some _ => mapErr (Fs.setPermissions k outpath)
      [.text "error setting permissions on ", .path outpath]

def unzipSymlink (root outpath : PathBuf N) (file : ZipFile N) : Action N (Failure N) Unit := do
  let linkPath ← liftExcept (file.contents.mapError fun e =>
    wrap (.inl e) [.text "could not read symlink linkpath ", .path outpath])
  liftExcept (validateSymlinkTarget root outpath linkPath)
  mapErr (Fs.symlink k linkPath outpath) [.text "could not create symlink ", .path outpath]

def unzipRegular (outpath : PathBuf N) (file : ZipFile N) : Action N (Failure N) Unit := do
  mapErr (Fs.create k outpath) [.text "unable to open file to write ", .path outpath,
    .text " (from ", .name file.enclosedName, .text ")"]
  let _ ← liftExcept (file.contents.mapError fun e =>
    wrap (.inl e) [.text "error copying file ", .path outpath])
  applyPermissions k file outpath

def unzipEntry (root : PathBuf N) (skipSegmentsNo : ℕ) (entry : Option (ZipFile N) × ℕ) :
    Action N (Failure N) Unit :=
  match entry.1.filter (·.opens) with
  | none => throw (wrap (.inl .other) [.text "could not open zip entry ", .index entry.2])
  | some file =>
    match file.enclosedName with
    | none => return ()
    | some path =>
      let relative := .collect (path.components.drop skipSegmentsNo)
      -- bare top-level directory entries are skipped
      if relative.isEmpty && isDirectory file then return ()
      else do
        let outpath ← liftExcept (safeExtractJoin root relative)
        if isDirectory file then
          mapErr (Fs.createDirAll k outpath) [.text "could not create dir for ", .path outpath]
          ensureCanonicalWithinRoot k root outpath
          applyPermissions k file outpath
        else
          prepareParent k root outpath fun _ =>
            [.text "could not create dir for ", .path outpath]
          if isSymlink file then unzipSymlink k root outpath file
          else unzipRegular k outpath file

def unzipFile (archive : List (Option (ZipFile N))) (parentPath : PathBuf N) :
    Action N (Failure N) Unit := do
  let root ← prepareExtractionRoot k parentPath
  let skip ← liftExcept (shouldSkipFirstSegment archive)
  archive.zipIdx.forM (unzipEntry k root skip.toNat)

end Zip

end CodeOss.Cli.Extract
