import Apg.Spec.Db
import Apg.Spec.StrMap

/-!
# Questions to the database

`db/orphans.c` and `db/stats.c`.
-/

namespace Apg

/-- The turn of `build_needed_set` for one dependency. -/
def needDependency (needed : StrMap) (dep : DepConstraint) : StrMap :=
  match dep.name with
  | none => needed
  | some name => strMapSet needed name 1

/-- `build_needed_set`: every name that some package depends on. -/
def buildNeededSet (all : List Package) : StrMap :=
  all.foldl (fun needed pkg => pkg.metadata.dependencies.foldl needDependency needed) strMapInit

def isNeeded (pkg : Package) (needed : StrMap) : Bool :=
  match pkg.metadata.name with
  | none => false
  | some name =>
    (strMapGet needed name).isSome ||
      pkg.metadata.provides.any fun provided => (provided.bind (strMapGet needed)).isSome

def dbGetOrphans (db : Db) : List CStr :=
  let needed := buildNeededSet (dbList db)
  (dbList db).filterMap fun pkg =>
    match pkg.metadata.name with
    | none => none
    | some name =>
      if pkg.installedByHand then none
      else if isNeeded pkg needed then none
      else some name

/-- `struct db_stats`. -/
structure DbStats where
  packageCount : ℕ
  fileCount : ℕ
  deriving DecidableEq

/-- `db_stats`. The named databases are records of the unnamed one, and so are counted
among its entries. -/
def dbStats (db : Db) : DbStats where
  packageCount := db.main.entries.length + db.namedDbs.length
  fileCount := if db.filesOpen then (db.files.entries.map fun e => e.2.count .newline).sum else 0

end Apg
