import Apg.Lib.Sweep
import Apg.Spec.Graph

/-!
# Resolving dependencies and finding conflicts

`graph/resolve.c` and `graph/conflict.c`, over a graph that is not changed. The
search itself is `Dfs.visit`: its edges are the dependencies of a node's package,
in their order, and an edge fails where `dfs` returns an error.
-/

namespace Apg

/-- What `apg_set_error` leaves in its buffer of 1024 bytes. -/
def setError (text : CStr) : CStr := text.take 1023

/-- How a resolution fails: with an error code and the text it leaves for
`apg_last_error`, if it sets one, or at a `NULL` string. -/
inductive DepFail
  | fail (err : DepError) (msg : Option CStr)
  | null
  deriving DecidableEq

/-- `%s` of a string that the code knows not to be `NULL`. -/
def showStr (s : Option CStr) : CStr := s.getD []

/-- `want ? want : c->name`. -/
def wantStr (c : DepConstraint) : CStr := ((depConstraintToStr c).or c.name).getD []

def missingText (pkg : Metadata) (c : DepConstraint) : CStr :=
  showStr pkg.name ++ cstr " requires " ++ wantStr c ++ cstr ", which is not available"

def versionText (pkg : Metadata) (c : DepConstraint) (dep : Metadata) : CStr :=
  showStr pkg.name ++ cstr " requires " ++ wantStr c ++ cstr ", but only " ++ showStr dep.name ++ cstr " " ++
    dep.version.getD (cstr "(no version)") ++ cstr " is available"

/-- The node a dependency of `pkg` leads to: one turn of the loop of `dfs`, up to
the recursive call. -/
def depTarget (g : DepGraph) (pkg : Metadata) (c : DepConstraint) : Except DepFail ℕ :=
  match c.name with
  | none => .error .null
  | some name =>
    match depGraphLookup g name with
    | none => .error (.fail .missing (some (setError (missingText pkg c))))
    | some depIdx =>
      match g.nodes[depIdx]? with
      -- the index of a found node is in range, so this is not reached
      | none => .ok depIdx
      | some dep =>
        if c.op ≠ .any ∧ verSatisfies dep.pkg.version c.op c.version = false then
          .error (.fail .version (some (setError (versionText pkg c dep.pkg))))
        else .ok depIdx

def depEdges (g : DepGraph) (idx : ℕ) : List (Except DepFail ℕ) :=
  match g.nodes[idx]? with
  | none => []
  | some node => node.pkg.dependencies.map (depTarget g node.pkg)

/-- `dfs` from the given state; the recursion is never deeper than there are
nodes. -/
def dfs (g : DepGraph) (idx : ℕ) (s : Dfs.St ℕ) : Option (Dfs.Out DepFail × Dfs.St ℕ) :=
  Dfs.visit (depEdges g) (g.nodes.length + 1) idx s

def nodeName (g : DepGraph) (idx : ℕ) : CStr := (g.nodes[idx]?.map (·.name)).getD []

def depGraphResolve (g : DepGraph) (pkgName : CStr) : Option (Except DepFail (List CStr)) :=
  match depGraphLookup g pkgName with
  | none => some (.error (.fail .missing none))
  | some root =>
    match dfs g root .start with
    | none => none
    | some (.ok, s) => some (.ok (s.order.map (nodeName g)))
    | some (.cycle, _) => some (.error (.fail .cycle none))
    | some (.err e, _) => some (.error e)

/-- The text of an error is set in the thread that resolves, and the caller of
several threads does not see it. -/
def inWorker : DepFail → DepFail
  | .fail err _ => .fail err none
  | .null => .null

/-- The first error in the order of the names. A worker that runs into a `NULL`
string takes the process with it. -/
def firstErr : List (Except DepFail (List CStr)) → Except DepFail (List (List CStr))
  | [] => .ok []
  | .ok order :: rest => (firstErr rest).map (order :: ·)
  | .error e :: rest => if .error .null ∈ rest then .error .null else .error (inWorker e)

/-- One name of the merged order, unless it was seen before. -/
def mergeStep (acc : StrMap × List CStr) (name : CStr) : StrMap × List CStr :=
  match strMapGet acc.1 name with
  | some _ => acc
  | none => (strMapSet acc.1 name 1, acc.2 ++ [name])

def merge (orders : List (List CStr)) : List CStr := (orders.flatten.foldl mergeStep (strMapInit, [])).2

/-- `dep_graph_resolve_parallel`: one resolution per name, in whatever order the
threads run, and the merged orders. -/
def depGraphResolveParallel (g : DepGraph) (pkgNames : List CStr) : Option (Except DepFail (List CStr)) :=
  match pkgNames with
  | [] => some (.ok [])
  -- a single name is resolved in the calling thread, which keeps the text of the error
  | [name] => depGraphResolve g name
  | _ => (pkgNames.mapM (depGraphResolve g)).map fun tasks => (firstErr tasks).map merge

/-- The tasks of `dep_graph_resolve_parallel` once the threads have finished in the
given order; each thread writes its own task. -/
def resolveTasks (g : DepGraph) (pkgNames : List CStr) (finish : List ℕ) : List (Option (Except DepFail (List CStr))) :=
  finish.foldl (fun tasks i => tasks.set i (pkgNames[i]?.bind (depGraphResolve g)))
    (List.replicate pkgNames.length none)

/-- `dep_graph_resolve_parallel` with threads that finish in the given order. -/
def depGraphResolveFinishing (g : DepGraph) (pkgNames : List CStr) (finish : List ℕ) :
    Option (Except DepFail (List CStr)) :=
  match pkgNames with
  | [] => some (.ok [])
  | [name] => depGraphResolve g name
  | _ => ((resolveTasks g pkgNames finish).mapM id).map fun tasks => (firstErr tasks).map merge

/-! ## Cycles -/

/-- The failure that is the end of the process. -/
def DepFail.isNull : DepFail → Bool
  | .null => true
  | .fail _ _ => false

/-- `dep_graph_has_cycle`: a search from every node that is still unvisited, over one
array of states. A search that ends with `DEP_ERR_MISSING` or `DEP_ERR_VERSION` leaves
its states, and the loop goes on. -/
def depGraphHasCycle (g : DepGraph) : Option (Except DepFail Bool) :=
  (Dfs.sweep (depEdges g) DepFail.isNull (g.nodes.length + 1) (List.range g.nodes.length) .start).map fun
    | .ok => .ok false
    | .cycle => .ok true
    | .err e => .error e

/-! ## Conflicts -/

/-- `str_list_contains`; `none` is a `NULL` handed to `strcmp`. -/
def strListContains (str : Option CStr) : List (Option CStr) → Option Bool
  | [] => some false
  | x :: xs =>
    match x, str with
    | some a, some b => if a = b then some true else strListContains str xs
    | _, _ => none

/-- One of the strings is in the list. -/
def anyContains (list : List (Option CStr)) : List (Option CStr) → Option Bool
  | [] => some false
  | str :: strs =>
    match strListContains str list with
    | none => none
    | some true => some true
    | some false => anyContains list strs

/-- The further test, made if the ones before it found nothing. -/
def orElse (found : Option Bool) (next : Option Bool) : Option Bool :=
  match found with
  | some false => next
  | r => r

/-- Whether the new package conflicts with the installed one of the given name,
as the node the name leads to has it. -/
def breaksWith (g : DepGraph) (pkg : Metadata) (instName : CStr) : Option Bool :=
  orElse (strListContains (some instName) pkg.conflicts) <|
    match (depGraphLookup g instName).bind (g.nodes[·]?) with
    | none => some false
    | some inst =>
      orElse (strListContains pkg.name inst.pkg.conflicts) <|
        orElse (anyContains inst.pkg.conflicts pkg.provides) (anyContains pkg.conflicts inst.pkg.provides)

def findBreaksLoop (g : DepGraph) (pkg : Metadata) : List CStr → Option (List CStr)
  | [] => some []
  | instName :: rest =>
    match breaksWith g pkg instName with
    | none => none
    | some conflict => (findBreaksLoop g pkg rest).map fun result => if conflict then instName :: result else result

def depGraphFindBreaks (g : DepGraph) (pkgName : CStr) (installed : List CStr) :
    Option (Except DepError (List CStr)) :=
  match (depGraphLookup g pkgName).bind (g.nodes[·]?) with
  | none => some (.error .missing)
  | some node => (findBreaksLoop g node.pkg installed).map .ok

end Apg
