import Apg.Spec.Prepare

/-!
# What a plan is for

The packages that are there once a plan is carried out, and what is asked of them:
that every package delivered finds its dependencies (`DependencySound`) and stands
beside the others without a conflict (`ConflictSound`). Nothing here follows the
code; `trans_prepare` is measured against it. The same is asked of what the packages
show of themselves otherwise, such as the lists of their files (`FilesDisjoint`).
-/

namespace Apg

/-- The packages that are there, by name. -/
abbrev PkgSet := CStr → Option Metadata

/-- The packages of the database. -/
def recorded (db : Db) : PkgSet := fun n => (dbGet db n).map (·.metadata)

/-- What a step leaves under the name of its package. -/
def stepPkg (mem : Heap) (step : TransStep) : Option Metadata :=
  match step.op with
  | .remove => none
  | _ => step.pkg.map fun p => (mem p).metadata

def applyStep (mem : Heap) (s : PkgSet) (step : TransStep) : PkgSet :=
  Function.update s step.pkgName (stepPkg mem step)

/-- **The packages that are there after a plan**, its steps taken in order. -/
def applyPlan (mem : Heap) (plan : List TransStep) (s : PkgSet) : PkgSet := plan.foldl (applyStep mem) s

/-- The package goes by the name: it has it, provides it or replaces it. -/
def Metadata.GoesBy (m : Metadata) (n : CStr) : Prop := m.name = some n ∨ some n ∈ m.provides ∨ some n ∈ m.replaces

/-- The package is what the dependency asks for. -/
def Metadata.Satisfies (m : Metadata) (c : DepConstraint) : Prop :=
  (∃ n, c.name = some n ∧ m.GoesBy n) ∧ verSatisfies m.version c.op c.version = true

/-- **Every package delivered by an install step finds each of its dependencies
among the packages that are there after the plan.** -/
def DependencySound (mem : Heap) (s : PkgSet) (plan : List TransStep) : Prop :=
  ∀ step ∈ plan, step.op = .install → ∀ p, step.pkg = some p → ∀ c ∈ (mem p).metadata.dependencies,
    ∃ n m, applyPlan mem plan s n = some m ∧ m.Satisfies c

/-- `a` lists the name of `b` or one of its `provides` as a conflict. -/
def Metadata.Rejects (a b : Metadata) : Prop := ∃ x, some x ∈ a.conflicts ∧ (b.name = some x ∨ some x ∈ b.provides)

/-- **No package delivered by an install step conflicts with another package that
is there after the plan.** -/
def ConflictSound (mem : Heap) (s : PkgSet) (plan : List TransStep) : Prop :=
  ∀ step ∈ plan, step.op = .install → ∀ p, step.pkg = some p → ∀ n m, n ≠ step.pkgName →
    applyPlan mem plan s n = some m → ¬(mem p).metadata.Rejects m ∧ ¬m.Rejects (mem p).metadata

/-- No two packages of the set conflict. -/
def ConflictFree (s : PkgSet) : Prop :=
  ∀ n m n' m', n ≠ n' → s n = some m → s n' = some m' → ¬m.Rejects m'

/-! ## What packages show -/

variable {α : Type*} (shows : Package → α)

/-- What the packages of the database show, by name. -/
def recordedAs (db : Db) : CStr → Option α := fun n => (dbGet db n).map shows

/-- What the package that a step leaves under its name shows. -/
def stepAs (mem : Heap) (step : TransStep) : Option α :=
  match step.op with
  | .remove => none
  | _ => step.pkg.map fun p => shows (mem p)

/-- What the packages that are there after a plan show. -/
def applyPlanAs (mem : Heap) (plan : List TransStep) (s : CStr → Option α) : CStr → Option α :=
  plan.foldl (fun s step => Function.update s step.pkgName (stepAs shows mem step)) s

/-- **No path is listed by two packages.** -/
def FilesDisjoint (s : CStr → Option (List CStr)) : Prop :=
  ∀ n n' l l', n ≠ n' → s n = some l → s n' = some l' → l.Disjoint l'

end Apg
