import Apg.Spec.Package
import Apg.Spec.StrMap

/-!
# The clauses of a package selection

`graph/candidates.c` and `graph/sat_model.c`: the index of the candidates by the
names they answer to, and the clauses that describe a selection. Packages are
told apart by their addresses, so the candidates are pointers into a memory `mem`
that does not change.

As in the dependency graph, `none` is a `NULL` string handed to the hash.
-/

namespace Apg

/-! ## Candidates -/

/-- `struct candidate_group`. -/
structure CandidateGroup where
  name : CStr
  items : List Ptr

/-- `struct candidate_set`. -/
structure CandidateSet where
  groups : List CandidateGroup
  index : StrMap

def candidateSetInit : CandidateSet := ⟨[], strMapInit⟩

/-- The group of a name, which is a new one at the end if there was none. -/
def findOrCreateGroup (cs : CandidateSet) (name : CStr) : CandidateSet × ℕ :=
  match strMapGet cs.index name with
  | some idx => (cs, idx)
  | none => (⟨cs.groups ++ [⟨name, []⟩], strMapSet cs.index name cs.groups.length⟩, cs.groups.length)

def candidateSetAdd (cs : CandidateSet) (name : CStr) (pkg : Ptr) : CandidateSet :=
  let (cs, idx) := findOrCreateGroup cs name
  { cs with groups := cs.groups.modify idx fun g => { g with items := g.items ++ [pkg] } }

def candidateSetAddAll (pkg : Ptr) : List (Option CStr) → CandidateSet → Option CandidateSet
  | [], cs => some cs
  | none :: _, _ => none
  | some name :: names, cs => candidateSetAddAll pkg names (candidateSetAdd cs name pkg)

variable (mem : Ptr → Metadata)

/-- A package goes to the group of its name and to those of its `provides`. -/
def candidateSetAddPackage (cs : CandidateSet) (pkg : Ptr) : Option CandidateSet :=
  candidateSetAddAll pkg ((mem pkg).name :: (mem pkg).provides) cs

def candidateSetLookup (cs : CandidateSet) (name : CStr) : Option CandidateGroup :=
  (strMapGet cs.index name).bind (cs.groups[·]?)

/-! ## The model -/

/-- `enum sat_clause_kind`. -/
inductive SatClauseKind
  | dependency | conflict | forced
  deriving DecidableEq

/-- `struct sat_clause`; a literal is a variable or its negative. -/
structure SatClause where
  lits : List ℤ
  kind : SatClauseKind
  depName : Option CStr

/-- `struct sat_model`: variable `v` stands for `vars[v - 1]`, and the buckets
take a pointer to its variable. -/
structure SatModel where
  vars : List Ptr
  varBuckets : List (List (Ptr × ℕ))
  clauses : List SatClause

def SatModel.varCount (m : SatModel) : ℕ := m.vars.length

def ptrHash (p : Ptr) : ℕ :=
  let v := p ^^^ (p >>> 16)
  let v := v * 0x9e3779b97f4a7c15
  let v := v ^^^ (v >>> 32)
  v.toNat

def satModelInit : SatModel := ⟨[], [], []⟩

def varIndexGet (m : SatModel) (pkg : Ptr) : Option ℕ :=
  if m.varBuckets.length > 0 then Chain.find ptrHash m.varBuckets pkg else none

/-- The buckets a new variable goes to. -/
def varIndexGrow (m : SatModel) : List (List (Ptr × ℕ)) :=
  let n := m.varBuckets.length
  if m.varCount + 1 > n - n / 4 then Chain.rehash ptrHash m.varBuckets (if n > 0 then n * 2 else 16)
  else m.varBuckets

def satModelVar (m : SatModel) (pkg : Ptr) : SatModel × ℕ :=
  match varIndexGet m pkg with
  | some var => (m, var)
  | none =>
    let var := m.varCount + 1
    ({ m with
        vars := m.vars ++ [pkg]
        varBuckets := Chain.push ptrHash (varIndexGrow m) pkg var }, var)

def addClause (m : SatModel) (lits : List ℤ) (kind : SatClauseKind) (depName : Option CStr) : SatModel :=
  { m with clauses := m.clauses ++ [⟨lits, kind, depName⟩] }

def satModelForce (m : SatModel) (pkg : Ptr) : SatModel :=
  let (m, var) := satModelVar m pkg
  addClause m [(var : ℤ)] .forced none

/-- The literals of the candidates that a dependency accepts. -/
def candLits (dep : DepConstraint) : List Ptr → SatModel × List ℤ → SatModel × List ℤ
  | [], acc => acc
  | cand :: rest, (m, lits) =>
    if dep.op ≠ .any ∧ verSatisfies (mem cand).version dep.op dep.version = false then
      candLits dep rest (m, lits)
    else
      let (m, v) := satModelVar m cand
      candLits dep rest (m, lits ++ [(v : ℤ)])

def groupItems (g : Option CandidateGroup) : List Ptr := (g.map (·.items)).getD []

def addDependencyLoop (cs : CandidateSet) (pkgVar : ℕ) : List DepConstraint → SatModel → Option SatModel
  | [], m => some m
  | dep :: deps, m =>
    match dep.name with
    | none => none
    | some name =>
      let (m, lits) := candLits mem dep (groupItems (candidateSetLookup cs name)) (m, [-(pkgVar : ℤ)])
      addDependencyLoop cs pkgVar deps (addClause m lits .dependency (some name))

def addDependencyClauses (cs : CandidateSet) (pkg : Ptr) (m : SatModel) : Option SatModel :=
  let (m, pkgVar) := satModelVar m pkg
  addDependencyLoop mem cs pkgVar (mem pkg).dependencies m

/-- One clause for every other member of a group. -/
def conflictLoop (pkg : Ptr) (pkgVar : ℕ) : List Ptr → SatModel → SatModel
  | [], m => m
  | other :: rest, m =>
    -- a package may conflict with what it provides itself
    if other = pkg then conflictLoop pkg pkgVar rest m
    else
      let (m, otherVar) := satModelVar m other
      conflictLoop pkg pkgVar rest (addClause m [-(pkgVar : ℤ), -(otherVar : ℤ)] .conflict none)

def addConflictLoop (cs : CandidateSet) (pkg : Ptr) (pkgVar : ℕ) : List (Option CStr) → SatModel → SatModel
  | [], m => m
  | none :: names, m => addConflictLoop cs pkg pkgVar names m
  | some name :: names, m =>
    addConflictLoop cs pkg pkgVar names
      (conflictLoop pkg pkgVar (groupItems (candidateSetLookup cs name)) m)

def addConflictClauses (cs : CandidateSet) (pkg : Ptr) (m : SatModel) : SatModel :=
  let (m, pkgVar) := satModelVar m pkg
  addConflictLoop cs pkg pkgVar (mem pkg).conflicts m

def satModelBuild (cs : CandidateSet) : List Ptr → SatModel → Option SatModel
  | [], m => some m
  | pkg :: pkgs, m =>
    match addDependencyClauses mem cs pkg m with
    | none => none
    | some m => satModelBuild cs pkgs (addConflictClauses mem cs pkg m)

/-- **The models the interface can build**: any sequence of calls on a new model,
with any candidate sets. -/
inductive SatBuilt : SatModel → Prop
  | init : SatBuilt satModelInit
  | var {m : SatModel} (pkg : Ptr) : SatBuilt m → SatBuilt (satModelVar m pkg).1
  | force {m : SatModel} (pkg : Ptr) : SatBuilt m → SatBuilt (satModelForce m pkg)
  | build {m m' : SatModel} (cs : CandidateSet) (pkgs : List Ptr) :
      SatBuilt m → satModelBuild mem cs pkgs m = some m' → SatBuilt m'

end Apg
