import Apg.Spec.SatSolve

/-!
# The portfolio, step by step

`sat_worker_fn` and `sat_solve_parallel` of `graph/sat_solve.c` as a system of
threads. A search meets the other threads only where it reads the cancel flag and
where it publishes, so between two reads it is a function of what it has read:
the state of a worker is the list of these values.

The calling thread creates one worker after the other. Where `pthread_create`
fails it runs the worker itself and goes on only when that one has finished.
-/

namespace Apg

/-- The arguments of worker `i`, with the values it has read from the flag. -/
def workerArgs (m : SatModel) (decisionBudget i : ℕ) (reads : List Bool) : SolveArgs :=
  ⟨m, decisionBudget, some fun k => reads.getD k false, i % 2 = 1, i / 2 % 2 = 1⟩

/-- How often a search reads the cancel flag. -/
def pollCount (a : SolveArgs) : ℕ :=
  if a.model.varCount = 0 then 0
  else ((dpll a (a.model.varCount + 1) initCtx).map (·.2.polls)).getD 0

/-- A worker: not created yet, searching with the values read so far, or through
with the outcome of its search. -/
inductive Worker
  | waiting
  | searching (reads : List Bool)
  | finished (reads : List Bool) (outcome : SolveOut)

/-- The shared state of `sat_solve_parallel`. `final` is set together with
`result_set`; `published` is the history of the writes to it, with the workers
that made them. -/
structure Portfolio where
  created : ℕ := 0
  inlined : Option ℕ := none
  workers : ℕ → Worker := fun _ => .waiting
  cancel : Bool := false
  final : Option SolveOut := none
  published : List (ℕ × SolveOut) := []

namespace Portfolio

def setWorker (s : Portfolio) (i : ℕ) (w : Worker) : Portfolio :=
  { s with workers := Function.update s.workers i w }

def create (s : Portfolio) : Portfolio := { s.setWorker s.created (.searching []) with created := s.created + 1 }

/-- The end of `sat_worker_fn`, in the lock: only a verdict is published, and only
if none has been. -/
def publish (s : Portfolio) (i : ℕ) (reads : List Bool) (r : SolveOut) : Portfolio :=
  let s := s.setWorker i (.finished reads r)
  if (r.result = .satisfiable ∨ r.result = .unsatisfiable) ∧ s.final = none then
    { s with final := some r, cancel := true, published := s.published ++ [(i, r)] }
  else s

/-- Every thread has been created and joined. -/
def Joined (threads : ℕ) (s : Portfolio) : Prop :=
  s.created = threads ∧ s.inlined = none ∧ ∀ i < threads, ∃ reads r, s.workers i = .finished reads r

/-- What `sat_solve_parallel` returns then. -/
def returned (s : Portfolio) : SolveOut := s.final.getD { result := .budgetExceeded }

end Portfolio

variable (mem : Ptr → Metadata) (m : SatModel) (decisionBudget threads : ℕ)

/-- **One step of one thread**: the calling thread creates a worker or takes up its
loop again, a worker reads the flag or finishes. The flag is read without any
ordering, so a read may miss that it has been set. -/
inductive PortfolioStep : Portfolio → Portfolio → Prop
  | spawn {s : Portfolio} : s.inlined = none → s.created < threads → PortfolioStep s s.create
  | runInline {s : Portfolio} : s.inlined = none → s.created < threads →
      PortfolioStep s { s.create with inlined := some s.created }
  | resume {s : Portfolio} {i : ℕ} {reads : List Bool} {r : SolveOut} :
      s.inlined = some i → s.workers i = .finished reads r → PortfolioStep s { s with inlined := none }
  | poll {s : Portfolio} {i : ℕ} {reads : List Bool} (value : Bool) : s.workers i = .searching reads →
      reads.length < pollCount (workerArgs m decisionBudget i reads) → (value = true → s.cancel = true) →
      PortfolioStep s (s.setWorker i (.searching (reads ++ [value])))
  | finish {s : Portfolio} {i : ℕ} {reads : List Bool} {r : SolveOut} : s.workers i = .searching reads →
      pollCount (workerArgs m decisionBudget i reads) ≤ reads.length →
      solveCore mem (workerArgs m decisionBudget i reads) = some r → PortfolioStep s (s.publish i reads r)

/-- **A run of the portfolio**, in any order of the steps. -/
def PortfolioRun : Portfolio → Portfolio → Prop :=
  Relation.ReflTransGen (PortfolioStep mem m decisionBudget threads)

end Apg
