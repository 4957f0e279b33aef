import Apg.Spec.Db
import Apg.Spec.Resolve

/-!
# Transactions

`transaction/transaction.c` and `transaction/trans_priv.h`: a transaction borrows
the packages it is given, so its queues and its plan are addresses into a `Heap`.
-/

namespace Apg

/-- `trans_op_t`. -/
inductive TransOp
  | install | remove | upgrade
  deriving DecidableEq

/-- `trans_error_t`. -/
inductive TransError
  | ok | nomem | conflict | missingDep | cycle | notPrepared | alreadyCommitted | installFailed | unsigned
  | hasDependents | fileConflict | held | db | removeFailed
  deriving DecidableEq

/-- `struct trans_step`, with the entry of `plan_pkgs` beside it. -/
structure TransStep where
  op : TransOp
  pkgName : CStr
  pkgVersion : Option CStr
  explicitOp : Bool
  pkg : Option Ptr
  deriving DecidableEq

structure TransConflict where
  pkgName : CStr
  conflictsWith : CStr
  deriving DecidableEq

structure TransFileConflict where
  path : CStr
  requestedBy : CStr
  ownedBy : CStr
  deriving DecidableEq

structure TransHeldPkg where
  pkgName : CStr
  op : TransOp
  deriving DecidableEq

structure TransBlockedRemove where
  pkgName : CStr
  dependents : List CStr
  deriving DecidableEq

/-- `struct apg_trans`. -/
structure ApgTrans where
  installPkgs : List Ptr := []
  upgradePkgs : List Ptr := []
  removeNames : List CStr := []
  candidatePkgs : List Ptr := []
  plan : List TransStep := []
  conflicts : List TransConflict := []
  blockedRemoves : List TransBlockedRemove := []
  fileConflicts : List TransFileConflict := []
  heldPkgs : List TransHeldPkg := []
  providerPrefs : List (CStr × CStr) := []
  prepared : Bool := false
  committed : Bool := false
  requireSignature : Bool := false
  skipDependencyCheck : Bool := false
  skipDependentsCheck : Bool := false
  dryRun : Bool := false
  deriving DecidableEq

def transNew : ApgTrans := {}

def transSetPolicy (trans : ApgTrans) (requireSignature skipDependencyCheck skipDependentsCheck : Bool) : ApgTrans :=
  { trans with
    requireSignature := requireSignature
    skipDependencyCheck := skipDependencyCheck
    skipDependentsCheck := skipDependentsCheck }

def transSetDryRun (trans : ApgTrans) (dryRun : Bool) : ApgTrans := { trans with dryRun := dryRun }

def transPreferProvider (trans : ApgTrans) (name pkgName : CStr) : ApgTrans :=
  { trans with providerPrefs := setPref name pkgName trans.providerPrefs }

/-- Queueing a package, which must have a name. -/
def transQueue (mem : Heap) (trans : ApgTrans) (pkg : Ptr) (queued : ApgTrans) : TransError × ApgTrans :=
  if (mem pkg).metadata.name = none then (.nomem, trans) else (.ok, queued)

def transAddInstall (mem : Heap) (trans : ApgTrans) (pkg : Ptr) : TransError × ApgTrans :=
  transQueue mem trans pkg { trans with installPkgs := trans.installPkgs ++ [pkg] }

def transAddCandidate (mem : Heap) (trans : ApgTrans) (pkg : Ptr) : TransError × ApgTrans :=
  transQueue mem trans pkg { trans with candidatePkgs := trans.candidatePkgs ++ [pkg] }

def transAddUpgrade (mem : Heap) (trans : ApgTrans) (pkg : Ptr) : TransError × ApgTrans :=
  transQueue mem trans pkg { trans with upgradePkgs := trans.upgradePkgs ++ [pkg] }

def transAddRemove (trans : ApgTrans) (pkgName : CStr) : TransError × ApgTrans :=
  (.ok, { trans with removeNames := trans.removeNames ++ [pkgName] })

/-- **The transactions that can be queued**: any sequence of calls on a new one,
before it is prepared. -/
inductive Queued (mem : Heap) : ApgTrans → Prop
  | new : Queued mem transNew
  | policy {trans : ApgTrans} (requireSignature skipDependencyCheck skipDependentsCheck : Bool) : Queued mem trans →
      Queued mem (transSetPolicy trans requireSignature skipDependencyCheck skipDependentsCheck)
  | dryRun {trans : ApgTrans} (dryRun : Bool) : Queued mem trans → Queued mem (transSetDryRun trans dryRun)
  | prefer {trans : ApgTrans} (name pkgName : CStr) : Queued mem trans →
      Queued mem (transPreferProvider trans name pkgName)
  | install {trans : ApgTrans} (pkg : Ptr) : Queued mem trans → Queued mem (transAddInstall mem trans pkg).2
  | candidate {trans : ApgTrans} (pkg : Ptr) : Queued mem trans → Queued mem (transAddCandidate mem trans pkg).2
  | upgrade {trans : ApgTrans} (pkg : Ptr) : Queued mem trans → Queued mem (transAddUpgrade mem trans pkg).2
  | remove {trans : ApgTrans} (pkgName : CStr) : Queued mem trans → Queued mem (transAddRemove trans pkgName).2

end Apg
