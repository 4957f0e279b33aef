import Apg.Spec.Package
import Apg.Spec.StrMap

/-!
# The dependency graph

`graph/graph.c`: one node per package name, an index of the aliases (`provides`
and `replaces`), and the preferred providers.

Functions that hand a string to `strcmp` or to the hash are partial: the result
`none` is the case that the string is `NULL`. Allocation succeeds.
-/

namespace Apg

/-- `dep_error_t`. -/
inductive DepError
  | ok | nomem | cycle | missing | conflict | version
  deriving DecidableEq, Repr

/-- `struct dep_node`. -/
structure DepNode where
  name : CStr
  pkg : Metadata
  installed : Bool

/-- `struct alias_group`. -/
structure AliasGroup where
  aliasName : CStr
  providers : List ℕ

/-- `struct dep_graph`. -/
structure DepGraph where
  nodes : List DepNode
  nodeMap : StrMap
  aliasGroups : List AliasGroup
  aliasMap : StrMap
  prefs : List (CStr × CStr)

def depGraphNew : DepGraph := ⟨[], strMapInit, [], strMapInit, []⟩

def depGraphFind (g : DepGraph) (name : CStr) : Option ℕ := strMapGet g.nodeMap name

def nodeInstalled (g : DepGraph) (i : ℕ) : Bool := (g.nodes[i]?.map (·.installed)).getD false

/-- The loop over a group's providers: the first installed one, else the first. -/
def pickProvider (g : DepGraph) (providers : List ℕ) : Option ℕ :=
  (providers.find? (nodeInstalled g)).or providers.head?

/-- The preference for `name`, if the package it names is in the graph. -/
def prefTarget (g : DepGraph) (name : CStr) : Option ℕ :=
  (g.prefs.lookup name).bind (depGraphFind g)

def aliasTarget (g : DepGraph) (name : CStr) : Option ℕ :=
  match strMapGet g.aliasMap name with
  | none => none
  | some groupIdx => (g.aliasGroups[groupIdx]?).bind fun group => pickProvider g group.providers

def depGraphLookup (g : DepGraph) (name : CStr) : Option ℕ :=
  match depGraphFind g name with
  | some idx => some idx
  | none =>
    match prefTarget g name with
    | some idx => some idx
    | none => aliasTarget g name

def addAlias (g : DepGraph) (aliasName : CStr) (nodeIdx : ℕ) : DepGraph :=
  match strMapGet g.aliasMap aliasName with
  | some groupIdx =>
    { g with aliasGroups := g.aliasGroups.modify groupIdx fun a => { a with providers := a.providers ++ [nodeIdx] } }
  | none =>
    { g with
      aliasGroups := g.aliasGroups ++ [⟨aliasName, [nodeIdx]⟩]
      aliasMap := strMapSet g.aliasMap aliasName g.aliasGroups.length }

/-- `prefs[i].pkg_name` of an existing preference is replaced, a new one appended. -/
def setPref (aliasName pkgName : CStr) : List (CStr × CStr) → List (CStr × CStr)
  | [] => [(aliasName, pkgName)]
  | p :: prefs => if p.1 = aliasName then (p.1, pkgName) :: prefs else p :: setPref aliasName pkgName prefs

def depGraphPrefer (g : DepGraph) (aliasName pkgName : CStr) : DepGraph :=
  { g with prefs := setPref aliasName pkgName g.prefs }

def addProvides (idx : ℕ) : List (Option CStr) → DepGraph → Option DepGraph
  | [], g => some g
  | none :: _, _ => none
  | some aliasName :: rest, g => addProvides idx rest (addAlias g aliasName idx)

/-- A `replaces` alias is only registered if no node has that name yet. -/
def addReplaces (idx : ℕ) : List (Option CStr) → DepGraph → Option DepGraph
  | [], g => some g
  | none :: _, _ => none
  | some aliasName :: rest, g =>
    addReplaces idx rest (if depGraphFind g aliasName = none then addAlias g aliasName idx else g)

def addNode (g : DepGraph) (pkg : Metadata) (installed : Bool) : Option (DepError × DepGraph) :=
  match pkg.name with
  | none => some (.nomem, g)
  | some name =>
    match depGraphFind g name with
    | some existingIdx =>
      -- the first package of a name stays; only its flag can still be set
      if installed then
        some (.ok, { g with nodes := g.nodes.modify existingIdx fun n => { n with installed := true } })
      else some (.ok, g)
    | none =>
      let idx := g.nodes.length
      let g := { g with
        nodes := g.nodes ++ [⟨name, pkg, installed⟩]
        nodeMap := strMapSet g.nodeMap name idx }
      ((addProvides idx pkg.provides g).bind (addReplaces idx pkg.replaces)).map fun g => (.ok, g)

def depGraphAdd (g : DepGraph) (pkg : Metadata) : Option (DepError × DepGraph) := addNode g pkg false

def depGraphAddInstalled (g : DepGraph) (pkg : Metadata) : Option (DepError × DepGraph) := addNode g pkg true

/-- A loop of additions; the callers ignore the error codes. -/
def addNodes (installed : Bool) : List Metadata → DepGraph → Option DepGraph
  | [], g => some g
  | pkg :: pkgs, g =>
    match addNode g pkg installed with
    | none => none
    | some (_, g) => addNodes installed pkgs g

/-- **The graphs the interface can build**: any sequence of additions and
preferences on a new graph. -/
inductive Built : DepGraph → Prop
  | new : Built depGraphNew
  | add {g g' : DepGraph} {pkg : Metadata} {e : DepError} :
      Built g → depGraphAdd g pkg = some (e, g') → Built g'
  | addInstalled {g g' : DepGraph} {pkg : Metadata} {e : DepError} :
      Built g → depGraphAddInstalled g pkg = some (e, g') → Built g'
  | prefer {g : DepGraph} (aliasName pkgName : CStr) : Built g → Built (depGraphPrefer g aliasName pkgName)

end Apg
