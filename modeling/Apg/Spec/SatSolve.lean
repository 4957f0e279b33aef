import Apg.Spec.SatModel

/-!
# The solver

`graph/sat_solve.c` and `graph/sat.c`: unit propagation, the search, the
portfolio of searches on several threads, and the entry point that selects
packages.

The loops that are not structural carry fuel; `none` is its end, and it is never
reached. The cancel flag of a search is the sequence of values it reads.
-/

namespace Apg

/-- `enum sat_result`. -/
inductive SatResult
  | satisfiable | unsatisfiable | budgetExceeded | error
  deriving DecidableEq, Repr

/-- The fields of `struct sat_solve_ctx` that a search does not change. -/
structure SolveArgs where
  model : SatModel
  budget : ℕ
  cancel : Option (ℕ → Bool)
  reverseOrder : Bool
  preferFalse : Bool

/-- The fields it changes, with the trail (latest variable first) and the number
of times the cancel flag was read. -/
structure SolveCtx where
  assign : ℕ → ℤ
  antecedent : ℕ → Option ℕ
  decisions : ℕ
  timedOut : Bool
  hasConflict : Bool
  conflictClause : ℕ
  aborted : Bool
  trail : List ℕ
  polls : ℕ

/-! ## Propagation -/

/-- One literal after the other: `none` if the clause is satisfied, else how many
literals are unassigned and the last of them. -/
def scanClause (assign : ℕ → ℤ) : List ℤ → ℕ × ℤ → Option (ℕ × ℤ)
  | [], acc => some acc
  | lit :: lits, (count, unassigned) =>
    let val := assign lit.natAbs
    if val = 0 then scanClause assign lits (count + 1, lit)
    else if (lit > 0 ∧ val = 1) ∨ (lit < 0 ∧ val = -1) then none
    else scanClause assign lits (count, unassigned)

/-- The antecedent of a literal's variable, unless that is a forced clause. -/
def usefulAntecedent (m : SatModel) (ctx : SolveCtx) (lit : ℤ) : Option ℕ :=
  match ctx.antecedent lit.natAbs with
  | none => none
  | some ante => if (m.clauses[ante]?.map (·.kind)) ≠ some .forced then some ante else none

/-- The clause a conflict in clause `c` is blamed on. -/
def bestClause (m : SatModel) (ctx : SolveCtx) (c : ℕ) (lits : List ℤ) : ℕ :=
  (lits.findSome? (usefulAntecedent m ctx)).getD c

/-- A unit clause makes its literal true. -/
def assignUnit (ctx : SolveCtx) (lit : ℤ) (c : ℕ) : SolveCtx :=
  let var := lit.natAbs
  { ctx with
    assign := Function.update ctx.assign var (if lit > 0 then 1 else -1)
    antecedent := Function.update ctx.antecedent var (some c)
    trail := var :: ctx.trail }

/-- The loop over the clauses, with the flag `changed`. The error is a conflict. -/
def propagatePass (m : SatModel) : ℕ → List SatClause → Bool × SolveCtx → Except SolveCtx (Bool × SolveCtx)
  | _, [], acc => .ok acc
  | c, clause :: rest, (changed, ctx) =>
    match scanClause ctx.assign clause.lits (0, 0) with
    | none => propagatePass m (c + 1) rest (changed, ctx)
    | some (0, _) =>
      -- no literal is left: the conflict is blamed on the clause behind one of them
      .error { ctx with hasConflict := true, conflictClause := bestClause m ctx c clause.lits }
    | some (1, lit) => propagatePass m (c + 1) rest (true, assignUnit ctx lit c)
    | some _ => propagatePass m (c + 1) rest (changed, ctx)

def propagate (m : SatModel) : ℕ → SolveCtx → Option (Bool × SolveCtx)
  | 0, _ => none
  | n + 1, ctx =>
    match propagatePass m 0 m.clauses (false, ctx) with
    | .error ctx => some (false, ctx)
    | .ok (true, ctx) => propagate m n ctx
    | .ok (false, ctx) => some (true, ctx)

/-! ## Search -/

def undoLoop (mark : ℕ) : List ℕ → SolveCtx → SolveCtx
  | [], ctx => ctx
  | var :: trail, ctx =>
    if trail.length + 1 > mark then
      undoLoop mark trail { ctx with
        assign := Function.update ctx.assign var 0
        antecedent := Function.update ctx.antecedent var none
        trail := trail }
    else ctx

/-- Unassign what the trail holds beyond `mark`. -/
def undoTo (mark : ℕ) (ctx : SolveCtx) : SolveCtx := undoLoop mark ctx.trail ctx

/-- The variables in the order they are tried, and the first unassigned one. -/
def pickVar (a : SolveArgs) (ctx : SolveCtx) : Option ℕ :=
  let vars := (List.range a.model.varCount).map (· + 1)
  (if a.reverseOrder then vars.reverse else vars).find? fun v => ctx.assign v = 0

def decideVar (ctx : SolveCtx) (var : ℕ) (val : ℤ) : SolveCtx :=
  { ctx with assign := Function.update ctx.assign var val, trail := var :: ctx.trail }

def cancelled (a : SolveArgs) (ctx : SolveCtx) : Bool :=
  match a.cancel with
  | none => false
  | some flag => flag ctx.polls

/-- The end of `dpll`: the chosen variable with its first value, and if the search
below that fails for want of a model, with the other one. -/
def tryBoth (search : SolveCtx → Option (Bool × SolveCtx)) (mark chosen : ℕ) (firstVal : ℤ) (ctx : SolveCtx) :
    Option (Bool × SolveCtx) :=
  match search (decideVar ctx chosen firstVal) with
  | none => none
  | some (true, ctx) => some (true, ctx)
  | some (false, ctx) =>
    let ctx := undoTo mark ctx
    -- without a verdict the other value is not tried
    if ctx.timedOut || ctx.aborted then some (false, ctx)
    else
      match search (decideVar ctx chosen (-firstVal)) with
      | none => none
      | some (true, ctx) => some (true, ctx)
      | some (false, ctx) => some (false, undoTo mark ctx)

def dpll (a : SolveArgs) : ℕ → SolveCtx → Option (Bool × SolveCtx)
  | 0, _ => none
  | n + 1, ctx =>
    -- the flag is read once per call, before anything is propagated
    if cancelled a ctx then some (false, { ctx with aborted := true, polls := ctx.polls + 1 })
    else
      let mark := ctx.trail.length
      match propagate a.model (a.model.varCount + 1) { ctx with polls := ctx.polls + 1 } with
      | none => none
      | some (false, ctx) => some (false, undoTo mark ctx)
      | some (true, ctx) =>
        match pickVar a ctx with
        | none => some (true, ctx)
        | some chosen =>
          -- the budget counts decisions, not calls
          if ctx.decisions ≥ a.budget then some (false, undoTo mark { ctx with timedOut := true })
          else
            tryBoth (dpll a n) mark chosen (if a.preferFalse then -1 else 1)
              { ctx with decisions := ctx.decisions + 1 }

variable (mem : Ptr → Metadata)

/-- The name of a literal's package, for a message. -/
def litName (m : SatModel) (lit : Option ℤ) : CStr :=
  match lit.bind fun l => m.vars[l.natAbs - 1]? with
  | none => cstr "?"
  | some p => (mem p).name.getD (cstr "?")

def explainConflict (m : SatModel) (clauseIdx : ℕ) : CStr :=
  match m.clauses[clauseIdx]? with
  | none => []
  | some c =>
    if c.lits = [] then cstr "model contains an empty clause"
    else
      let name0 := litName mem m c.lits[0]?
      match c.kind with
      | .dependency => cstr "package \"" ++ name0 ++ cstr "\" requires \"" ++ c.depName.getD (cstr "?") ++
          cstr "\", but no candidate could be selected"
      | .conflict => cstr "package \"" ++ name0 ++ cstr "\" conflicts with package \"" ++
          litName mem m c.lits[1]? ++ cstr "\", but both were required"
      | .forced => cstr "package \"" ++ name0 ++ cstr "\" was required but could not be selected"

/-- What a solver hands out: the result, the assignment and the explanation of a
conflict. -/
structure SolveOut where
  result : SatResult
  assignment : Option (ℕ → ℤ) := none
  conflict : Option CStr := none

def initCtx : SolveCtx := ⟨fun _ => 0, fun _ => none, 0, false, false, 0, false, [], 0⟩

def solveCore (a : SolveArgs) : Option SolveOut :=
  if a.model.varCount = 0 then some { result := .satisfiable }
  else
    match dpll a (a.model.varCount + 1) initCtx with
    | none => none
    | some (sat, ctx) =>
      if ctx.aborted then some { result := .error }
      else if ctx.timedOut then some { result := .budgetExceeded }
      else if !sat then
        some { result := .unsatisfiable
               conflict := if ctx.hasConflict then some (explainConflict mem a.model ctx.conflictClause) else none }
      else some { result := .satisfiable, assignment := some ctx.assign }

def satSolve (m : SatModel) (decisionBudget : ℕ) : Option SolveOut :=
  solveCore mem ⟨m, decisionBudget, none, false, false⟩

/-! ## The portfolio -/

/-- How the threads of one call run: the order in which they come to publish
their results, each once, and the values each reads from the cancel flag once
another thread has set it. -/
structure Schedule (threadCount : ℤ) where
  order : List ℕ
  reads : ℕ → ℕ → Bool
  once : order.Perm (List.range threadCount.toNat)

/-- `sat_worker_fn` of thread `i`, as the next one to publish. Before anyone has
published, the flag reads as `false`. -/
def satWorker (m : SatModel) (decisionBudget : ℕ) (reads : ℕ → ℕ → Bool) (i : ℕ) (final : Option SolveOut) :
    Option (Option SolveOut) :=
  let flag := if final.isSome then reads i else fun _ => false
  match solveCore mem ⟨m, decisionBudget, some flag, i % 2 = 1, i / 2 % 2 = 1⟩ with
  | none => none
  | some r =>
    -- only a verdict is published, and only the first one
    if r.result = .satisfiable ∨ r.result = .unsatisfiable then some (some (final.getD r))
    else some final

def satWorkers (m : SatModel) (decisionBudget : ℕ) (reads : ℕ → ℕ → Bool) :
    List ℕ → Option SolveOut → Option (Option SolveOut)
  | [], final => some final
  | i :: rest, final =>
    match satWorker mem m decisionBudget reads i final with
    | none => none
    | some final => satWorkers m decisionBudget reads rest final

def satSolveParallel (m : SatModel) (decisionBudget : ℕ) (threadCount : ℤ) (sched : Schedule threadCount) :
    Option SolveOut :=
  if threadCount ≤ 1 then satSolve mem m decisionBudget
  else (satWorkers mem m decisionBudget sched.reads sched.order none).map fun final =>
    final.getD { result := .budgetExceeded }

/-! ## Selecting packages -/

/-- What `dep_graph_resolve_sat` hands out. -/
structure SelectOut where
  result : SatResult
  selected : List Ptr := []
  conflict : Option CStr := none

def candidateSetAddPackages : List Ptr → CandidateSet → Option CandidateSet
  | [], cs => some cs
  | pkg :: pkgs, cs =>
    match candidateSetAddPackage mem cs pkg with
    | none => none
    | some cs => candidateSetAddPackages pkgs cs

/-- The packages of the variables that are true. -/
def selectedVars (m : SatModel) (assignment : Option (ℕ → ℤ)) : List Ptr :=
  match assignment with
  | none => []
  | some assign => ((List.range m.varCount).filter fun i => assign (i + 1) = 1).filterMap (m.vars[·]?)

/-- The model of a selection problem. -/
def selectionModel (candidates roots : List Ptr) : Option SatModel :=
  match candidateSetAddPackages mem candidates candidateSetInit with
  | none => none
  | some cs => (satModelBuild mem cs candidates satModelInit).map fun m => roots.foldl satModelForce m

def depGraphResolveSat (candidates roots : List Ptr) (decisionBudget : ℕ) (threadCount : ℤ)
    (sched : Schedule threadCount) : Option SelectOut :=
  match selectionModel mem candidates roots with
  | none => none
  | some m =>
    match satSolveParallel mem m decisionBudget threadCount sched with
    | none => none
    | some r =>
      if r.result = .satisfiable then some { result := .satisfiable, selected := selectedVars m r.assignment }
      else some { result := r.result, conflict := r.conflict }

end Apg
