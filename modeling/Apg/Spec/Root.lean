import Apg.Spec.Commit
import Apg.Spec.Install

/-!
# `trans_commit` on a root

`transaction/commit.c` and `transaction/backup.c` once more, with the files: what
`Commit` takes from outside about archives, backups and copies is computed here on a
file system. Signatures, scripts and the outcome of each write to the database still
come from `Outside`.

A backup is a file system of its own, like everything in the temporary directory. `log`
is not part of the code: it notes what the commit does, and for which step.
-/

namespace Apg

open Posix

namespace Root

/-- What a commit does at step `i`: a signature is good, `install_package_in_root` is
called, a record is written, a package is removed. -/
inductive Event
  | verified (i : ℕ) (path : CStr)
  | installs (i : ℕ) (p : Ptr)
  | records (i : ℕ) (p : Ptr)
  | removes (i : ℕ)
  deriving DecidableEq

/-- The step an event is about. -/
def Event.step : Event → ℕ
  | .verified i _ | .installs i _ | .records i _ | .removes i => i

/-- The calls about the `k`-th configuration file that the system refuses. -/
structure ConfIo where
  read : ℕ → Bool := fun _ => true
  rename : ℕ → Bool := fun _ => true
  write : ℕ → Bool := fun _ => true

/-- What is outside the model, for each step of the plan. What `Outside` says about
archives, backups and copies is not looked at. -/
structure RootIo where
  dirs : Dirs
  out : Outside := {}
  install : ℕ → InstallIo := fun _ => {}
  backup : ℕ → CopyIo := fun _ => {}
  /-- The scripts of the installed version can be saved. -/
  saveScripts : ℕ → Bool := fun _ => true
  conf : ℕ → ConfIo := fun _ => {}
  restore : ℕ → CopyIo := fun _ => {}
  restoreScripts : ℕ → CopyIo := fun _ => {}

/-- What a commit works on. -/
structure State where
  db : Db
  mem : Heap
  fs : Host
  unrestored : List CStr := []
  log : List Event := []

def State.journal (s : State) (op : JournalOp) (step : TransStep) (ok explicitOp : Bool) : State :=
  { s with db := journalWrite s.db ⟨op, some step.pkgName, step.pkgVersion, ok, explicitOp⟩ }

def State.note (s : State) (events : List Event) : State := { s with log := s.log ++ events }

/-! ## Files -/

/-- The place of a listed file under the root. -/
def filePath (dirs : Dirs) (path : CStr) : List (Comp FileName) := comps (concatDirs dirs.root path)

/-- Each of the files is taken away, if it is there and no directory. -/
def unlinkFiles (dirs : Dirs) (paths : List CStr) (fs : Host) : Host :=
  paths.foldl (fun fs path => (unlink fs (filePath dirs path)).getD fs) fs

/-- `apg_make_dirs`, along the given prefixes of a path. -/
def makeDirs : List (List (Comp FileName)) → Host → Bool × Host
  | [], fs => (true, fs)
  | path :: paths, fs =>
    if (lstat fs path).isSome then makeDirs paths fs
    else
      match mkdir fs path 0o755 with
      | none => (false, fs)
      | some fs => makeDirs paths fs

def makeParentDirs (path : List (Comp FileName)) (fs : Host) : Bool × Host := makeDirs path.dropLast.inits.tail fs

/-- `copy_entry` from one file system to another. -/
def copyEntry (io : CopyIo) (fault : Fault) (src : Host) (path : List (Comp FileName)) (dst : Host)
    (path' : List (Comp FileName)) : Bool × Host :=
  match lstat src path with
  | none => (true, dst)
  | some e =>
    match makeParentDirs path' dst with
    | (false, dst) => (false, dst)
    | (true, dst) =>
      let dst := (unlink dst path').getD dst
      match e with
      | .link target =>
        match if fault = .none then symlink dst target path' else none with
        | none => (false, dst)
        | some dst => (true, dst)
      | .file content mode => if fault = .read then (false, dst) else copyFile io fault content mode path' dst
      | _ => (true, dst)

/-! ## Trees -/

/-- The entries of the names in `q`; `below` are those of a directory among them. -/
def readNames (fs : Host) (q : List FileName) (below : FileName → Forest) : List FileName → Forest
  | [] => .nil
  | x :: xs =>
    match fs.get (q ++ [x]) with
    | none => readNames fs q below xs
    | some (.dir mode) => .dir x mode (below x) (readNames fs q below xs)
    | some (.file content mode) => .leaf x (.file content mode) (readNames fs q below xs)
    | some (.link target) => .leaf x (.link target) (readNames fs q below xs)
    | some .special => .leaf x .special (readNames fs q below xs)

def readItems (fs : Host) : ℕ → List FileName → Forest
  | 0, _ => .nil
  | n + 1, q => readNames fs q (fun x => readItems fs n (q ++ [x])) (list fs q)

theorem heads_readNames (fs : Host) (q : List FileName) (below : FileName → Forest) :
    ∀ xs, (readNames fs q below xs).heads.Sublist xs := by
  intro xs
  induction xs with
  | nil => exact List.Sublist.refl _
  | cons x xs ih =>
    unfold readNames
    split
    · exact ih.trans (List.sublist_cons_self x xs)
    all_goals exact ih.cons_cons x

theorem distinct_readNames (fs : Host) (q : List FileName) {below : FileName → Forest}
    (hbelow : ∀ x, (below x).distinct = true) : ∀ {xs}, xs.Nodup → (readNames fs q below xs).distinct = true := by
  intro xs
  induction xs with
  | nil => intro _; rfl
  | cons x xs ih =>
    intro hnd
    obtain ⟨hx, hxs⟩ := List.nodup_cons.1 hnd
    have hfree : x ∉ (readNames fs q below xs).heads := fun h => hx ((heads_readNames fs q below xs).subset h)
    unfold readNames
    split <;> simp [Forest.distinct, hfree, hbelow, ih hxs]

theorem distinct_readItems (fs : Host) : ∀ (n : ℕ) (q : List FileName), (readItems fs n q).distinct = true := by
  intro n
  induction n with
  | zero => intro q; rfl
  | succ n ih => intro q; exact distinct_readNames fs q (fun x => ih _) (nodup_list fs q)

/-- A directory as `copy_dir` finds it. -/
def readFolder (fs : Host) (path : List (Comp FileName)) : Option Folder :=
  (reach fs path).bind fun q =>
    match entryAt fs q with
    | some (.dir mode) =>
      some ⟨mode, readItems fs (fs.table.entries.length + 1) q, distinct_readItems fs _ q⟩
    | _ => none

/-- `rmtree`, which goes through links to directories. -/
def rmtree : ℕ → List (Comp FileName) → Host → Host
  | 0, _, fs => fs
  | n + 1, path, fs =>
    match stat fs path with
    | some (.dir _) =>
      let names := ((reach fs path).map (list fs)).getD []
      let fs := names.foldl (fun fs x => rmtree n (path ++ [.name x]) fs) fs
      (rmdir fs path).getD fs
    | _ => (unlink fs path).getD fs

/-- `scripts_persist_remove`. A path goes through `maxLinks` links at most. -/
def scriptsPersistRemove (rootPath pkgName : CStr) (fs : Host) : Host :=
  rmtree ((fs.table.entries.length + 1) * (maxLinks + 1)) (scriptsStorePath rootPath pkgName) fs

/-! ## Configuration files -/

structure ConfBackup where
  path : CStr
  data : Bytes
  deriving DecidableEq

def resolveConfPath (dirs : Dirs) (entry : CStr) : Option CStr :=
  if (cstr "$HOME").isPrefixOf entry then dirs.home.map fun home => concatDirs home (entry.drop 5)
  else some (concatDirs dirs.root entry)

/-- One turn of the loop of `save_confs`. -/
def saveConf (io : ConfIo) (dirs : Dirs) (fs : Host) (k : ℕ) (entry : Option CStr) : Option ConfBackup :=
  entry.bind fun entry =>
    (resolveConfPath dirs entry).bind fun full =>
      (if io.read k then readFile fs (comps full) else none).map fun data => ⟨full, data⟩

def saveConfs (io : ConfIo) (dirs : Dirs) (fs : Host) (pkg : Package) : List ConfBackup :=
  pkg.metadata.conf.zipIdx.filterMap fun (entry, k) => saveConf io dirs fs k entry

/-- Where the new version of a configuration file goes: the buffer holds `PATH_MAX`. -/
def apgNew (path : CStr) : CStr := (path ++ cstr ".apg-new").take 4095

/-- One turn of the loop of `restore_confs`. -/
def restoreConf (io : ConfIo) (k : ℕ) (c : ConfBackup) (fs : Host) : Host :=
  let fs := ((if io.rename k then rename fs (comps c.path) (comps (apgNew c.path)) else none)).getD fs
  ((if io.write k then writeFile fs (comps c.path) c.data 0o644 else none)).getD fs

def restoreConfs (io : ConfIo) (bk : List ConfBackup) (fs : Host) : Host :=
  bk.zipIdx.foldl (fun fs (c, k) => restoreConf io k c fs) fs

/-! ## Backups -/

structure UpgradeBackup where
  previous : Package
  files : Host := .empty
  scripts : Option Folder := none

/-- The loop of `upgrade_backup_create`. -/
def backupFiles (io : CopyIo) (dirs : Dirs) (fs : Host) : ℕ → List CStr → Host → Bool × Host
  | _, [], bk => (true, bk)
  | k, path :: paths, bk =>
    match copyEntry io (io.fault k) fs (filePath dirs path) bk (comps path) with
    | (false, bk) => (false, bk)
    | (true, bk) => backupFiles io dirs fs (k + 1) paths bk

def upgradeBackupCreate (io : RootIo) (i : ℕ) (pkgName : CStr) (s : State) : Bool × Option UpgradeBackup :=
  match dbGet s.db pkgName with
  | none => (true, none)
  | some previous =>
    match backupFiles (io.backup i) io.dirs s.fs 0 previous.paths .empty with
    | (false, files) => (false, some ⟨previous, files, none⟩)
    | (true, files) =>
      match readFolder s.fs (scriptsStorePath io.dirs.root pkgName) with
      | none => (true, some ⟨previous, files, none⟩)
      | some scripts =>
        if io.saveScripts i then (true, some ⟨previous, files, some scripts⟩)
        else (false, some ⟨previous, files, none⟩)

/-- The files of a backup are copied back, whatever comes of it. -/
def restoreFiles (io : CopyIo) (dirs : Dirs) (bk : Host) : ℕ → List CStr → Host → Host
  | _, [], fs => fs
  | k, path :: paths, fs =>
    restoreFiles io dirs bk (k + 1) paths (copyEntry io (io.fault k) bk (comps path) fs (filePath dirs path)).2

/-- The scripts of a backup take the place of those in the store. -/
def restoreScripts (io : CopyIo) (dirs : Dirs) (backup : UpgradeBackup) (fs : Host) : Host :=
  let path := scriptsStorePath dirs.root (backup.previous.metadata.name.getD [])
  let fs := removeTree fs path
  match backup.scripts with
  | none => fs
  | some scripts => (copyDir io scripts path fs).2

def upgradeBackupRestore (io : RootIo) (idx : ℕ) (name : CStr) (backup : UpgradeBackup) (newPkg : Ptr) (s : State) :
    Option State :=
  let fs := unlinkFiles io.dirs (s.mem newPkg).paths s.fs
  let fs := restoreFiles (io.restore idx) io.dirs backup.files 0 backup.previous.paths fs
  let fs := restoreScripts (io.restoreScripts idx) io.dirs backup fs
  (dbAdd (io.out.restoreIo idx) s.db backup.previous).map fun (ok, db) =>
    { s with
      db := db
      fs := fs
      unrestored := if ok then s.unrestored else s.unrestored ++ [name] }

/-! ## Rolling back -/

/-- An entry of `committed_idx`, with the step and the backup at that index. -/
structure Undo where
  idx : ℕ
  step : TransStep
  backup : Option UpgradeBackup

def undoInstall (io : RootIo) (u : Undo) (s : State) : State :=
  let name := u.step.pkgName
  let (ok, db) := dbRemove (io.out.undoIo u.idx) s.db name
  { s with
    db := db
    fs := unlinkFiles io.dirs ((u.step.pkg.map fun p => (s.mem p).paths).getD []) s.fs
    unrestored := if ok || s.db.main.get name = none then s.unrestored else s.unrestored ++ [name] }

def rollbackOne (io : RootIo) (u : Undo) (s : State) : Option State :=
  let undone :=
    match u.backup, u.step.pkg with
    | some backup, some p => upgradeBackupRestore io u.idx u.step.pkgName backup p s
    | _, _ => some (undoInstall io u s)
  undone.map fun s => s.journal .rollback u.step true false

/-- The steps that are undone, the last one first. -/
def rollbackCommitted (io : RootIo) (s : State) : List Undo → Option State
  | [] => some s
  | u :: committed => (rollbackCommitted io s committed).bind (rollbackOne io u)

/-! ## Steps -/

/-- The state of the loop of `trans_commit`. -/
structure Loop where
  state : State
  committed : List Undo := []

/-- The end of a step. -/
inductive Outcome
  | done (l : Loop)
  | failed (err : TransError) (l : Loop)

/-- The signature is asked for and not good. -/
def unverified (io : RootIo) (trans : ApgTrans) (i : ℕ) (p : Ptr) (s : State) : Bool :=
  trans.requireSignature && !signed io.out i (s.mem p)

/-- What is noted when the signature has been asked for, and is good. -/
def verification (trans : ApgTrans) (i : ℕ) (pkg : Package) : List Event :=
  match trans.requireSignature, pkg.pkgPath with
  | true, some path => [.verified i path]
  | _, _ => []

def failInstall (trans : ApgTrans) (step : TransStep) (err : TransError) (l : Loop) : Outcome :=
  .failed err (if trans.dryRun then l
    else { l with state := l.state.journal .install step false step.explicitOp })

/-- `install_package_in_root` on the state. -/
def install (io : RootIo) (i : ℕ) (p : Ptr) (s : State) : Bool × State :=
  let r := installInRoot io.dirs (io.install i) ((s.mem p).metadata.name.getD []) s.fs
  (r.ok, { s with
    fs := r.fs
    mem :=
      match r.files with
      | none => s.mem
      | some files => Function.update s.mem p { s.mem p with packageFiles := files.map some }
    log := s.log ++ [.installs i p] })

/-- `remove_dropped_files`. -/
def removeDroppedFiles (dirs : Dirs) (pkg : Package) (s : State) : State :=
  match pkg.metadata.name with
  | none => s
  | some name =>
    match dbGet s.db name with
    | none => s
    | some previous =>
      { s with fs := unlinkFiles dirs (previous.paths.filter fun path =>
        !pkg.packageFiles.contains (some path) && !previous.metadata.conf.contains (some path) &&
          dbOwner s.db path = some name) s.fs }

/-- The record of a package that has been installed. -/
def recordPkg (io : RootIo) (i : ℕ) (step : TransStep) (p : Ptr) (backup : Option UpgradeBackup) (l : Loop) :
    Option Outcome :=
  let s := l.state
  let s := { s with mem := Function.update s.mem p { s.mem p with installedByHand := step.explicitOp } }
  let committed := l.committed ++ [⟨i, step, backup⟩]
  (dbAdd (io.out.addIo i) s.db (s.mem p)).map fun (ok, db) =>
    let s := { s with db := db }
    if ok then .done ⟨(s.note [.records i p]).journal .install step true step.explicitOp, committed⟩
    else .failed .db ⟨s.journal .install step false step.explicitOp, committed⟩

def commitInstall (io : RootIo) (trans : ApgTrans) (i : ℕ) (step : TransStep) (p : Ptr) (l : Loop) : Option Outcome :=
  if unverified io trans i p l.state then some (failInstall trans step .unsigned l)
  else if trans.dryRun then some (.done l)
  else
    let (ok, s) := install io i p (l.state.note (verification trans i (l.state.mem p)))
    if !ok then some (failInstall trans step .installFailed { l with state := s })
    else recordPkg io i step p none { l with state := s }

def commitUpgrade (io : RootIo) (trans : ApgTrans) (i : ℕ) (step : TransStep) (p : Ptr) (l : Loop) : Option Outcome :=
  if unverified io trans i p l.state then some (failInstall trans step .unsigned l)
  else if trans.dryRun then some (.done l)
  else
    let s := l.state.note (verification trans i (l.state.mem p))
    match upgradeBackupCreate io i step.pkgName s with
    | (false, _) => some (failInstall trans step .installFailed { l with state := s })
    | (true, backup) =>
      let confs := saveConfs (io.conf i) io.dirs s.fs (s.mem p)
      let (ok, s) := install io i p s
      if !ok then some (failInstall trans step .installFailed ⟨s, l.committed ++ [⟨i, step, backup⟩]⟩)
      else
        let s := { s with fs := restoreConfs (io.conf i) confs s.fs }
        recordPkg io i step p backup { l with state := removeDroppedFiles io.dirs (s.mem p) s }

def commitRemove (io : RootIo) (trans : ApgTrans) (i : ℕ) (step : TransStep) (l : Loop) : Outcome :=
  if trans.dryRun then .done l
  else
    let s := l.state
    let installed := dbGet s.db step.pkgName
    let (ok, db) := if io.out.preRemove i then dbRemove (io.out.removeIo i) s.db step.pkgName else (false, s.db)
    let s :=
      if ok then
        { s with
          db := db
          fs := scriptsPersistRemove io.dirs.root step.pkgName
            (unlinkFiles io.dirs ((installed.map Package.paths).getD []) s.fs)
          log := s.log ++ [.removes i] }
      else { s with db := db }
    let s := s.journal .remove step ok step.explicitOp
    if ok then .done { l with state := s } else .failed .removeFailed { l with state := s }

def commitStep (io : RootIo) (trans : ApgTrans) (i : ℕ) (step : TransStep) (l : Loop) : Option Outcome :=
  match step.op, step.pkg with
  | .install, some p => commitInstall io trans i step p l
  | .upgrade, some p => commitUpgrade io trans i step p l
  | .remove, _ => some (commitRemove io trans i step l)
  | _, none => none

def commitLoop (io : RootIo) (trans : ApgTrans) : ℕ → List TransStep → Loop → Option Outcome
  | _, [], l => some (.done l)
  | i, step :: steps, l =>
    match commitStep io trans i step l with
    | some (.done l) => commitLoop io trans (i + 1) steps l
    | r => r

/-- `release_commit`: the journal is on again. -/
def State.release (s : State) : State := { s with db := { s.db with suppressJournal := false } }

/-- `trans_commit`: the error code, the transaction and what it leaves. -/
def transCommit (io : RootIo) (trans : ApgTrans) (s : State) : Option (TransError × ApgTrans × State) :=
  if !trans.prepared then some (.notPrepared, trans, s)
  else if trans.committed then some (.alreadyCommitted, trans, s)
  else if trans.requireSignature && !io.out.keyringLoad then some (.unsigned, trans, s)
  else
    match commitLoop io trans 0 trans.plan ⟨{ s with db := { s.db with suppressJournal := true } }, []⟩ with
    | none => none
    | some (.done l) => some (.ok, { trans with committed := !trans.dryRun }, l.state.release)
    | some (.failed err l) => (rollbackCommitted io l.state l.committed).map fun s => (err, trans, s.release)

end Root

end Apg
