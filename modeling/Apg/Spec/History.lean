import Apg.Lib.Undo
import Apg.Spec.Commit
import Apg.Spec.Plan

/-!
# The history of a database

What a handle does to its database, one call after the other: packages are recorded and
taken out, flags are set, and transactions are prepared and committed, with success or
without. A reader of the journal takes it for the log of a store whose writes can be
taken back (`Undo`).
-/

namespace Apg

/-- A transaction that is prepared and committed, and what comes of it. -/
structure Transaction where
  collect : Ptr → Option (List CStr)
  out : Outside
  /-- The packages it was queued with. -/
  queuedMem : Heap
  queued : ApgTrans
  mem : Heap
  prepared : ApgTrans
  err : TransError
  world : World

/-- It is prepared and committed on the database. -/
structure Transaction.On (x : Transaction) (db : Db) : Prop where
  queued : Queued x.queuedMem x.queued
  prepared : transPrepare x.collect x.queuedMem db x.queued = some (.ok, x.mem, x.prepared)
  committed : ∃ trans, transCommit x.out x.mem db x.prepared = some (x.err, trans, x.world)

/-- **One call.** Transactions are such as `C` allows, and so are the packages of `db_add`. -/
inductive Round (P : Package → Prop) (C : Db → Transaction → Prop) : Db → Db → Prop
  | add {db db' : Db} {pkg : Package} {ok : Bool} (io : ℕ → Rc) : P pkg → dbAdd io db pkg = some (ok, db') →
      Round P C db db'
  | remove (db : Db) (io : Rc) (pkgName : CStr) : Round P C db (dbRemove io db pkgName).2
  | setHold {db db' : Db} {ok : Bool} (io : ℕ → Rc) (pkgName : CStr) (held : Bool) :
      dbSetHold io db pkgName held = some (ok, db') → Round P C db db'
  | setInstalledByHand {db db' : Db} {ok : Bool} (io : ℕ → Rc) (pkgName : CStr) (byHand : Bool) :
      dbSetInstalledByHand io db pkgName byHand = some (ok, db') → Round P C db db'
  | transaction {db : Db} (x : Transaction) : x.On db → C db x → Round P C db x.world.db

def History (P : Package → Prop) (C : Db → Transaction → Prop) : Db → Db → Prop :=
  Relation.ReflTransGen (Round P C)

/-- One call of a package manager, which goes through transactions: of the calls above all but
`db_add` and `db_remove` themselves. -/
inductive Managed (C : Db → Transaction → Prop) : Db → Db → Prop
  | setHold {db db' : Db} {ok : Bool} (io : ℕ → Rc) (pkgName : CStr) (held : Bool) :
      dbSetHold io db pkgName held = some (ok, db') → Managed C db db'
  | setInstalledByHand {db db' : Db} {ok : Bool} (io : ℕ → Rc) (pkgName : CStr) (byHand : Bool) :
      dbSetInstalledByHand io db pkgName byHand = some (ok, db') → Managed C db db'
  | transaction {db : Db} (x : Transaction) : x.On db → C db x → Managed C db x.world.db

/-- **Every dependency of a package that is there is met by one that is there.** -/
def DependenciesMet (s : PkgSet) : Prop :=
  ∀ n m, s n = some m → ∀ c ∈ m.dependencies, ∃ n' m', s n' = some m' ∧ m'.Satisfies c

/-- The commit fails at a step that it does not undo, behind a step for the same package that
it does undo. -/
def Blurred (db : Db) (x : Transaction) : Prop :=
  ∃ done step rest st st' err, x.prepared.plan = done ++ step :: rest ∧
    commitLoop x.out x.prepared 0 done { world := ⟨{ db with suppressJournal := true }, x.mem, []⟩ } = some (.done st) ∧
    commitStep x.out x.prepared done.length step st = some (.failed err st') ∧ st'.committed = st.committed ∧
    step.op ≠ .remove ∧ ∃ c ∈ st.committed, c.step.pkgName = step.pkgName

/-! ## Reading the journal -/

/-- The version that is recorded; none is written as an empty one. -/
def versionOf (db : Db) (n : CStr) : Option CStr := (dbGet db n).map fun pkg => pkg.metadata.version.getD []

/-- What an entry tells. The removal that failed tells nothing, the install that failed
only that it may be taken back. -/
def JournalEntry.tells (e : JournalEntry) : Option (Undo.Entry CStr (Option CStr)) :=
  e.pkgName.bind fun n =>
    match e.op, e.ok with
    | .install, true => some (.put n (some (e.pkgVersion.getD [])))
    | .install, false => some (.failed n)
    | .remove, true => some (.set n none)
    | .remove, false => none
    | .rollback, _ => some (.back n)

end Apg
