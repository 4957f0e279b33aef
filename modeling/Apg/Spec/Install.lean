import Apg.Lib.Posix
import Apg.Spec.CStr

/-!
# Installing into a root

`install/copy.c`, `install/install.c`, `install/rollback.c`, `install/scripts.c` and
`install_package_in_root`, over a file system with links (`Posix`).

What an archive holds is a tree in the order in which `readdir` lists it (`Forest`).
The temporary directory it is extracted to is not part of the file system. A call that
the system refuses, for lack of space or permission, is told by `CopyIo`; what a script
does to the system is left out.
-/

namespace Apg

open Posix

abbrev Bytes := List UInt8

/-! ## Paths -/

def CChar.slash : CChar := ⟨47, by decide⟩

/-- The name of an entry of a directory. -/
abbrev FileName := {s : CStr // s ≠ [] ∧ s ≠ cstr "." ∧ s ≠ cstr ".." ∧ CChar.slash ∉ s}

/-- A name written in the source. -/
def fileName (s : String)
    (h : cstr s ≠ [] ∧ cstr s ≠ cstr "." ∧ cstr s ≠ cstr ".." ∧ CChar.slash ∉ cstr s := by decide) : FileName :=
  ⟨cstr s, h⟩

/-- `concat_dirs` after the two strings are joined: every run of slashes is one. -/
def collapseSlashes : CStr → CStr
  | [] => []
  | [c] => [c]
  | c :: c' :: s => if c = .slash ∧ c' = .slash then collapseSlashes (c' :: s) else c :: collapseSlashes (c' :: s)

def concatDirs (path1 path2 : CStr) : CStr := collapseSlashes (path1 ++ .slash :: path2)

/-- What stands between two slashes: nothing and `.` lead nowhere. -/
def comp (s : CStr) : Option (Comp FileName) :=
  if s = cstr ".." then some .up
  else if h : s ≠ [] ∧ s ≠ cstr "." ∧ s ≠ cstr ".." ∧ CChar.slash ∉ s then some (.name ⟨s, h⟩)
  else none

/-- The components of a path. -/
def comps (s : CStr) : List (Comp FileName) := (s.splitOn .slash).filterMap comp

instance : LinkText CStr FileName := ⟨fun t => (t.head? = some .slash, comps t)⟩

/-- The file system below the top directory. -/
abbrev Host := Fs FileName Bytes CStr

/-! ## Trees -/

/-- An entry of an extracted directory that is no directory. -/
inductive Leaf
  | file (content : Bytes) (mode : ℕ)
  | link (target : CStr)
  | special
  deriving DecidableEq

/-- The entries of an extracted directory. -/
inductive Forest
  | nil
  | dir (name : FileName) (mode : ℕ) (items rest : Forest)
  | leaf (name : FileName) (leaf : Leaf) (rest : Forest)
  deriving DecidableEq

namespace Forest

/-- The names in the directory. -/
def heads : Forest → List FileName
  | .nil => []
  | .dir name _ _ rest => name :: rest.heads
  | .leaf name _ rest => name :: rest.heads

/-- No directory has two entries of one name. -/
def distinct : Forest → Bool
  | .nil => true
  | .dir name _ items rest => name ∉ rest.heads && items.distinct && rest.distinct
  | .leaf name _ rest => name ∉ rest.heads && rest.distinct

end Forest

/-- A directory: its mode and its entries. -/
structure Folder where
  mode : ℕ := 0o755
  items : Forest
  distinct : items.distinct = true := by decide

/-- `collect_recursive`: everything that is no directory, by its path below the base. -/
def collectRecursive (dir : CStr) : Forest → List CStr
  | .nil => []
  | .dir name _ items rest => collectRecursive (dir ++ .slash :: name.1) items ++ collectRecursive dir rest
  | .leaf name _ rest => (dir ++ .slash :: name.1) :: collectRecursive dir rest

/-! ## Copying -/

/-- The call at which the system refuses an entry: reading it from the archive, making
its copy, writing it after some bytes, setting its mode, or listing a directory. -/
inductive Fault
  | none | read | make | write (n : ℕ) | mode | list
  deriving DecidableEq

/-- The faults, one for each entry in the order of the copy, and the modes that new
files and directories get before their own. -/
structure CopyIo where
  fault : ℕ → Fault := fun _ => .none
  fileMode : ℕ := 0o644
  dirMode : ℕ := 0o755

/-- The entries handled so far, and the file system. -/
structure CopyState where
  count : ℕ := 0
  fs : Host

/-- Whatever is at the path makes room for a file or a link. -/
def makeRoom (fs : Host) (path : List (Comp FileName)) : Host :=
  match lstat fs path with
  | none => fs
  | some (.dir _) => removeTree fs path
  | some _ => (unlink fs path).getD fs

/-- `copy_file` onto a path where nothing is. -/
def copyFile (io : CopyIo) (fault : Fault) (content : Bytes) (mode : ℕ) (path : List (Comp FileName)) (fs : Host) :
    Bool × Host :=
  if fault = .make then (false, fs)
  else
    match fault with
    | .write n => (false, (writeFile fs path (content.take n) io.fileMode).getD fs)
    | _ =>
      match writeFile fs path content io.fileMode with
      | none => (false, fs)
      | some fs => if fault = .mode then (false, fs) else ((chmod fs path mode).isSome, (chmod fs path mode).getD fs)

/-- An entry of `copy_dir` that is no directory. -/
def copyLeaf (io : CopyIo) (leaf : Leaf) (path : List (Comp FileName)) (s : CopyState) : Bool × CopyState :=
  let fault := io.fault s.count
  if fault = .read then (false, ⟨s.count + 1, s.fs⟩)
  else
    match leaf with
    | .file content mode =>
      let (ok, fs) := copyFile io fault content mode path (makeRoom s.fs path)
      (ok, ⟨s.count + 1, fs⟩)
    | .link target =>
      let fs := makeRoom s.fs path
      match if fault = .make then none else symlink fs target path with
      | none => (false, ⟨s.count + 1, fs⟩)
      | some fs => (true, ⟨s.count + 1, fs⟩)
    -- anything else is read and passed over
    | .special => (true, ⟨s.count + 1, s.fs⟩)

/-- `copy_dir` up to its loop: the directory is made unless there is one. -/
def makeDst (io : CopyIo) (mode : ℕ) (path : List (Comp FileName)) (s : CopyState) : Bool × CopyState :=
  let fault := io.fault s.count
  if fault = .make then (false, ⟨s.count + 1, s.fs⟩)
  else if (stat s.fs path).isSome then (fault ≠ .list, ⟨s.count + 1, s.fs⟩)
  else
    match mkdir s.fs path io.dirMode with
    | none => (false, ⟨s.count + 1, s.fs⟩)
    | some fs =>
      if fault = .mode then (false, ⟨s.count + 1, fs⟩)
      else
        match chmod fs path mode with
        | none => (false, ⟨s.count + 1, fs⟩)
        | some fs => (fault ≠ .list, ⟨s.count + 1, fs⟩)

/-- A directory of `copy_dir`, before it is copied: what is there stays if it is a
directory, or leads to one. -/
def enterDir (io : CopyIo) (mode : ℕ) (path : List (Comp FileName)) (s : CopyState) : Bool × CopyState :=
  if io.fault s.count = .read then (false, ⟨s.count + 1, s.fs⟩)
  else
    let fs :=
      match stat s.fs path with
      | some (.dir _) => s.fs
      | _ => (unlink s.fs path).getD s.fs
    makeDst io mode path ⟨s.count, fs⟩

/-- The loop of `copy_dir`. -/
def copyItems (io : CopyIo) : Forest → List (Comp FileName) → CopyState → Bool × CopyState
  | .nil, _, s => (true, s)
  | .dir name mode items rest, dst, s =>
    match enterDir io mode (dst ++ [.name name]) s with
    | (false, s) => (false, s)
    | (true, s) =>
      match copyItems io items (dst ++ [.name name]) s with
      | (false, s) => (false, s)
      | (true, s) => copyItems io rest dst s
  | .leaf name leaf rest, dst, s =>
    match copyLeaf io leaf (dst ++ [.name name]) s with
    | (false, s) => (false, s)
    | (true, s) => copyItems io rest dst s

def copyDir (io : CopyIo) (src : Folder) (dst : List (Comp FileName)) (fs : Host) : Bool × Host :=
  match makeDst io src.mode dst ⟨0, fs⟩ with
  | (false, s) => (false, s.fs)
  | (true, s) => ((copyItems io src.items dst s).1, (copyItems io src.items dst s).2.fs)

/-! ## Taking back -/

/-- The loop of `remove_mirrored`. -/
def removeItems : Forest → List (Comp FileName) → Host → Host
  | .nil, _, fs => fs
  | .dir name _ items rest, dst, fs =>
    let fs := removeItems items (dst ++ [.name name]) fs
    removeItems rest dst ((rmdir fs (dst ++ [.name name])).getD fs)
  | .leaf name _ rest, dst, fs => removeItems rest dst ((unlink fs (dst ++ [.name name])).getD fs)

def removeMirrored (src : Folder) (dst : List (Comp FileName)) (fs : Host) : Host :=
  let fs := removeItems src.items dst fs
  (rmdir fs dst).getD fs

/-! ## Installing -/

/-- The directories of an archive that are used. -/
structure Archive where
  data : Option Folder := none
  home : Option Folder := none
  scripts : Option Folder := none

/-- `root_path` and the directory of the user. -/
structure Dirs where
  root : CStr
  home : Option CStr := none

/-- What `install_package_in_root` finds outside: the archive, if it can be extracted,
how its scripts end, and the faults of its copies. -/
structure InstallIo where
  archive : Option Archive := none
  preInstall : Bool := true
  postInstall : Bool := true
  data : CopyIo := {}
  home : CopyIo := {}
  scripts : CopyIo := {}

/-- `rollback_install`. The root is not removed, since it holds the temporary directory. -/
def rollbackInstall (dirs : Dirs) (archive : Archive) (fs : Host) : Host :=
  let fs :=
    match archive.data with
    | none => fs
    | some data => removeItems data.items (comps dirs.root) fs
  match dirs.home, archive.home with
  | some home, some src => removeMirrored src (comps home) fs
  | _, _ => fs

/-- `install_home_dir`, whose result nobody looks at. -/
def installHomeDir (io : CopyIo) (dirs : Dirs) (archive : Archive) (fs : Host) : Host :=
  match dirs.home, archive.home with
  | some home, some src => (copyDir io src (comps home) fs).2
  | _, _ => fs

/-- The directory of a package in the store of scripts. -/
def scriptsStorePath (rootPath pkgName : CStr) : List (Comp FileName) :=
  comps (concatDirs (concatDirs rootPath (cstr "var/lib/apg/pkgscripts")) pkgName)

/-- `mkdir_p`. -/
def mkdirP (path : List (Comp FileName)) (fs : Host) : Host :=
  path.inits.tail.foldl (fun fs p => if (stat fs p).isSome then fs else (mkdir fs p 0o755).getD fs) fs

/-- `scripts_persist`: a package without a directory of scripts changes nothing. -/
def scriptsPersist (io : CopyIo) (archive : Archive) (rootPath pkgName : CStr) (fs : Host) : Host :=
  match archive.scripts with
  | none => fs
  | some src =>
    (copyDir io src (scriptsStorePath rootPath pkgName ++ [.name (fileName "scripts")])
      (mkdirP (scriptsStorePath rootPath pkgName) fs)).2

/-- What `install_package_in_root` leaves: the file system, and the list of files if the
call came to collect it. -/
structure Installed where
  ok : Bool
  fs : Host
  files : Option (List CStr) := none

def installInRoot (dirs : Dirs) (io : InstallIo) (pkgName : CStr) (fs : Host) : Installed :=
  match io.archive with
  | none => ⟨false, fs, none⟩
  | some archive =>
    if !io.preInstall then ⟨false, fs, none⟩
    else
      match archive.data with
      | none => ⟨false, fs, none⟩
      | some data =>
        let (ok, fs) := copyDir io.data data (comps dirs.root) fs
        if !ok then ⟨false, fs, none⟩
        else
          let files := collectRecursive [] data.items
          let fs := installHomeDir io.home dirs archive fs
          if !io.postInstall then ⟨false, rollbackInstall dirs archive fs, some files⟩
          else ⟨true, scriptsPersist io.scripts archive dirs.root pkgName fs, some files⟩

end Apg
