import Apg.Spec.Prepare

/-!
# `trans_commit`

`transaction/commit.c` and `transaction/backup.c`: the steps of a plan one after
the other, and the way back if one of them fails.

Signatures, archives, scripts, copies and the outcome of each write come from
`Outside`. The model keeps the records; what is done to the files is in `Root`, which
leaves the same records. `unrestored` is not part of the code: it notes the writes of a
rollback that were lost.
-/

namespace Apg

/-- How far `install_package_in_root` gets: it fails before it copies the data, while
it copies them, at the script after it, or not at all. -/
inductive InstallStage
  | unpack | copy | postInstall | done
  deriving DecidableEq

/-- One call of `install_package_in_root`. -/
structure InstallRun where
  stage : InstallStage := .done
  /-- The files of the data, if they could be listed. -/
  files : Option (List CStr) := none

/-- What is outside the model, for each step of the plan. -/
structure Outside where
  keyringLoad : Bool := true
  verify : ℕ → Bool := fun _ => true
  backup : ℕ → Bool := fun _ => true
  install : ℕ → InstallRun := fun _ => {}
  addIo : ℕ → ℕ → Rc := fun _ _ => .success
  preRemove : ℕ → Bool := fun _ => true
  removeIo : ℕ → Rc := fun _ => .success
  restoreIo : ℕ → ℕ → Rc := fun _ _ => .success
  undoIo : ℕ → Rc := fun _ => .success

/-- The database and the package objects. -/
structure World where
  db : Db
  mem : Heap
  unrestored : List CStr := []

/-- An entry of `committed_idx`, with the step and the backup at that index. -/
structure Committed where
  idx : ℕ
  step : TransStep
  previous : Option Package

/-- The state of the loop of `trans_commit`. -/
structure CommitState where
  world : World
  committed : List Committed := []

/-- The end of a step. -/
inductive StepEnd
  | done (st : CommitState)
  | failed (err : TransError) (st : CommitState)

def World.journal (w : World) (op : JournalOp) (step : TransStep) (ok explicitOp : Bool) : World :=
  { w with db := journalWrite w.db ⟨op, some step.pkgName, step.pkgVersion, ok, explicitOp⟩ }

/-! ## Rolling back -/

/-- `upgrade_backup_restore`. -/
def upgradeBackupRestore (out : Outside) (w : World) (idx : ℕ) (name : CStr) (previous : Package) : Option World :=
  (dbAdd (out.restoreIo idx) w.db previous).map fun (ok, db) =>
    { w with db := db, unrestored := if ok then w.unrestored else w.unrestored ++ [name] }

/-- The record of a package that was not there before is taken away. -/
def undoInstall (out : Outside) (w : World) (c : Committed) : World :=
  let name := c.step.pkgName
  let (ok, db) := dbRemove (out.undoIo c.idx) w.db name
  { w with
    db := db
    unrestored := if ok || w.db.main.get name = none then w.unrestored else w.unrestored ++ [name] }

/-- One turn of the loop of `rollback_committed`. -/
def rollbackOne (out : Outside) (w : World) (c : Committed) : Option World :=
  let undone :=
    match c.previous, c.step.pkg with
    | some previous, some _ => upgradeBackupRestore out w c.idx c.step.pkgName previous
    | _, _ => some (undoInstall out w c)
  undone.map fun w => w.journal .rollback c.step true false

/-- The steps that are undone, the last one first. -/
def rollbackCommitted (out : Outside) (w : World) : List Committed → Option World
  | [] => some w
  | c :: committed => (rollbackCommitted out w committed).bind fun w => rollbackOne out w c

/-! ## Steps -/

/-- The signature of a package is there and good: the name of its file must leave
room for `.sig` in a buffer of `PATH_MAX`. -/
def signed (out : Outside) (i : ℕ) (pkg : Package) : Bool :=
  match pkg.pkgPath with
  | none => false
  | some path => path.length + 4 < 4096 && out.verify i

/-- `install_package_in_root`: the list of the object is that of the data, once they are
copied. -/
def installPackageInRoot (run : InstallRun) (w : World) (p : Ptr) : Bool × World :=
  let collected :=
    match run.files with
    | none => w
    | some files => { w with mem := Function.update w.mem p { w.mem p with packageFiles := files.map some } }
  match run.stage with
  | .unpack | .copy => (false, w)
  | .postInstall => (false, collected)
  | .done => (true, collected)

/-- The record of a package that has been installed. -/
def recordPkg (out : Outside) (i : ℕ) (step : TransStep) (p : Ptr) (previous : Option Package) (st : CommitState) :
    Option StepEnd :=
  let w := st.world
  let w := { w with mem := Function.update w.mem p { w.mem p with installedByHand := step.explicitOp } }
  let committed := st.committed ++ [⟨i, step, previous⟩]
  (dbAdd (out.addIo i) w.db (w.mem p)).map fun (ok, db) =>
    let w := { w with db := db }
    if ok then .done ⟨w.journal .install step true step.explicitOp, committed⟩
    else .failed .db ⟨w.journal .install step false step.explicitOp, committed⟩

/-- A failure that is written to the journal, unless this is a dry run. -/
def failInstall (trans : ApgTrans) (step : TransStep) (err : TransError) (st : CommitState) : StepEnd :=
  .failed err (if trans.dryRun then st
    else { st with world := st.world.journal .install step false step.explicitOp })

def commitInstall (out : Outside) (trans : ApgTrans) (i : ℕ) (step : TransStep) (p : Ptr) (st : CommitState) :
    Option StepEnd :=
  if trans.requireSignature && !signed out i (st.world.mem p) then some (failInstall trans step .unsigned st)
  else if trans.dryRun then some (.done st)
  else
    let (ok, w) := installPackageInRoot (out.install i) st.world p
    if !ok then some (failInstall trans step .installFailed { st with world := w })
    else recordPkg out i step p none { st with world := w }

def commitUpgrade (out : Outside) (trans : ApgTrans) (i : ℕ) (step : TransStep) (p : Ptr) (st : CommitState) :
    Option StepEnd :=
  if trans.requireSignature && !signed out i (st.world.mem p) then some (failInstall trans step .unsigned st)
  else if trans.dryRun then some (.done st)
  else
    let previous := dbGet st.world.db step.pkgName
    if previous.isSome && !out.backup i then some (failInstall trans step .installFailed st)
    else
      let (ok, w) := installPackageInRoot (out.install i) st.world p
      if !ok then
        -- unlike an install, an upgrade that fails here is undone
        some (failInstall trans step .installFailed ⟨w, st.committed ++ [⟨i, step, previous⟩]⟩)
      else recordPkg out i step p previous { st with world := w }

def commitRemove (out : Outside) (trans : ApgTrans) (i : ℕ) (step : TransStep) (st : CommitState) : StepEnd :=
  if trans.dryRun then .done st
  else
    let w := st.world
    let (ok, db) := if out.preRemove i then dbRemove (out.removeIo i) w.db step.pkgName else (false, w.db)
    let w₁ := { w with db := db }
    let w₂ := w₁.journal .remove step ok step.explicitOp
    -- a removal never joins the steps to be undone
    if ok then .done { st with world := w₂ } else .failed .removeFailed { st with world := w₂ }

def commitStep (out : Outside) (trans : ApgTrans) (i : ℕ) (step : TransStep) (st : CommitState) : Option StepEnd :=
  match step.op, step.pkg with
  | .install, some p => commitInstall out trans i step p st
  | .upgrade, some p => commitUpgrade out trans i step p st
  | .remove, _ => some (commitRemove out trans i step st)
  | _, none => none

def commitLoop (out : Outside) (trans : ApgTrans) : ℕ → List TransStep → CommitState → Option StepEnd
  | _, [], st => some (.done st)
  | i, step :: steps, st =>
    match commitStep out trans i step st with
    | some (.done st) => commitLoop out trans (i + 1) steps st
    | r => r

/-- `trans_commit`: the error code, the transaction and the world it leaves. -/
def transCommit (out : Outside) (mem : Heap) (db : Db) (trans : ApgTrans) : Option (TransError × ApgTrans × World) :=
  if !trans.prepared then some (.notPrepared, trans, ⟨db, mem, []⟩)
  else if trans.committed then some (.alreadyCommitted, trans, ⟨db, mem, []⟩)
  else if trans.requireSignature && !out.keyringLoad then some (.unsigned, trans, ⟨db, mem, []⟩)
  else
    match commitLoop out trans 0 trans.plan { world := ⟨{ db with suppressJournal := true }, mem, []⟩ } with
    | none => none
    | some (.done st) =>
      some (.ok, { trans with committed := !trans.dryRun },
        { st.world with db := { st.world.db with suppressJournal := false } })
    | some (.failed err st) =>
      (rollbackCommitted out st.world st.committed).map fun w =>
        (err, trans, { w with db := { w.db with suppressJournal := false } })

end Apg
