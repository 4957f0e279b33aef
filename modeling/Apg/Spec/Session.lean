import Apg.Spec.Prepare

/-!
# A transaction over time

The calls on one transaction, in any order and with any changes of the database
between them. What `trans_prepare` finds is kept in the transaction, so that a later
call starts from what an earlier one left.
-/

namespace Apg

/-- A call on a transaction, or a change of the database by somebody else. -/
inductive TransCall
  | addInstall (pkg : Ptr)
  | addCandidate (pkg : Ptr)
  | addUpgrade (pkg : Ptr)
  | addRemove (pkgName : CStr)
  | setPolicy (requireSignature skipDependencyCheck skipDependentsCheck : Bool)
  | preferProvider (name pkgName : CStr)
  | changeDb (db : Db)
  | prepare

/-- The transaction with what is around it. -/
structure Session where
  mem : Heap
  db : Db
  trans : ApgTrans

/-- What a call leaves; `none` is a `NULL` string handed to `strcmp` by
`trans_prepare`. -/
def Session.call (collect : Ptr → Option (List CStr)) (s : Session) : TransCall → Option Session
  | .addInstall pkg => some { s with trans := (transAddInstall s.mem s.trans pkg).2 }
  | .addCandidate pkg => some { s with trans := (transAddCandidate s.mem s.trans pkg).2 }
  | .addUpgrade pkg => some { s with trans := (transAddUpgrade s.mem s.trans pkg).2 }
  | .addRemove pkgName => some { s with trans := (transAddRemove s.trans pkgName).2 }
  | .setPolicy sig deps dependents => some { s with trans := transSetPolicy s.trans sig deps dependents }
  | .preferProvider name pkgName => some { s with trans := transPreferProvider s.trans name pkgName }
  | .changeDb db => some { s with db := db }
  | .prepare => (transPrepare collect s.mem s.db s.trans).map fun r => { s with mem := r.2.1, trans := r.2.2 }

/-- A new transaction with the same queues, policy and preferences. -/
def renewed (trans : ApgTrans) : ApgTrans :=
  { trans with
    plan := []
    conflicts := []
    blockedRemoves := []
    fileConflicts := []
    heldPkgs := []
    prepared := false }

/-- **What `trans_prepare` returns now is what a new transaction would get**: the same
code and, when it succeeds, the same plan. -/
def Reflects (collect : Ptr → Option (List CStr)) (s : Session) : Prop :=
  ∀ err mem t, transPrepare collect s.mem s.db s.trans = some (err, mem, t) →
    ∃ mem' t', transPrepare collect s.mem s.db (renewed s.trans) = some (err, mem', t') ∧
      (err = .ok → t.plan = t'.plan)

end Apg
