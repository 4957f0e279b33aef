import Apg.Lib.Dot
import Apg.Spec.Graph

/-!
# The graph as DOT text

`graph/dot.c`. The buffer is the text so far, and growing it succeeds.

A result `none` is a `NULL` string that is read, or an index beyond the nodes. Inside it,
`none` is the `NULL` that `dep_graph_export_dot` returns.
-/

namespace Apg

/-- `INT_MAX`. -/
def intMax : ℕ := 2 ^ 31 - 1

namespace CChar

def quote : CChar := ⟨34, by decide⟩
def backslash : CChar := ⟨92, by decide⟩

end CChar

/-- `dot_append`. -/
def dotAppend (buf s : CStr) : CStr := buf ++ s

/-- `dot_appendf`, of the formatted line. `vsnprintf` counts it in an `int`, and answers a
negative number when that does not hold it. -/
def dotAppendf (buf line : CStr) : Option CStr := if line.length ≤ intMax then some (buf ++ line) else none

def dotEscape : CStr → CStr
  | [] => []
  | c :: s => if c = .quote ∨ c = .backslash then .backslash :: c :: dotEscape s else c :: dotEscape s

/-- The line of a node in `emit_nodes`. -/
def nodeLine (name colour : CStr) : CStr :=
  cstr "    \"" ++ name ++ cstr "\" [style=filled, fillcolor=\"" ++ colour ++ cstr "\"];\n"

def emitNodes : List DepNode → CStr → Option CStr
  | [], buf => some buf
  | n :: nodes, buf =>
    (dotAppendf buf (nodeLine (dotEscape n.name) (if n.installed then cstr "lightgreen" else cstr "white"))).bind
      (emitNodes nodes)

/-- What the lines of edges begin with. -/
def edgeFrom (source target : CStr) : CStr := cstr "    \"" ++ source ++ cstr "\" -> \"" ++ target

def missingLine (source target : CStr) : CStr :=
  edgeFrom source target ++ cstr "\" [color=red, style=dashed, label=\"missing\"];\n"

def labelLine (source target label : CStr) : CStr :=
  edgeFrom source target ++ cstr "\" [label=\"" ++ label ++ cstr "\"];\n"

def plainLine (source target : CStr) : CStr := edgeFrom source target ++ cstr "\";\n"

/-- A turn of the inner loop of `emit_dependency_edges`. -/
def emitDependency (g : DepGraph) (source : CStr) (c : DepConstraint) (buf : CStr) : Option (Option CStr) :=
  match c.name with
  | none => none
  | some name =>
    match depGraphLookup g name with
    | none => some (dotAppendf buf (missingLine source (dotEscape name)))
    | some depIdx =>
      match g.nodes[depIdx]? with
      | none => none
      | some node =>
        let target := dotEscape node.name
        if c.op ≠ .any then
          some ((depConstraintToStr c).bind fun constraint =>
            dotAppendf buf (labelLine source target (dotEscape constraint)))
        else some (dotAppendf buf (plainLine source target))

def emitDependencies (g : DepGraph) (source : CStr) : List DepConstraint → CStr → Option (Option CStr)
  | [], buf => some (some buf)
  | c :: cs, buf =>
    match emitDependency g source c buf with
    | none => none
    | some none => some none
    | some (some buf) => emitDependencies g source cs buf

/-- `emit_dependency_edges`: its loop over the nodes. -/
def emitDependencyEdges (g : DepGraph) : List DepNode → CStr → Option (Option CStr)
  | [], buf => some (some buf)
  | n :: nodes, buf =>
    match emitDependencies g (dotEscape n.name) n.pkg.dependencies buf with
    | none => none
    | some none => some none
    | some (some buf) => emitDependencyEdges g nodes buf

def aliasLine (name : CStr) : CStr := cstr "    \"" ++ name ++ cstr "\" [shape=diamond, style=dashed];\n"

def providerLine (name provider style : CStr) : CStr :=
  edgeFrom name provider ++ cstr "\" [style=" ++ style ++ cstr "];\n"

/-- The inner loop of `emit_providers`. -/
def emitEdgesOf (g : DepGraph) (name : CStr) (resolved : Option ℕ) : List ℕ → CStr → Option (Option CStr)
  | [], buf => some (some buf)
  | nodeIdx :: providers, buf =>
    match g.nodes[nodeIdx]? with
    | none => none
    | some node =>
      match dotAppendf buf (providerLine name (dotEscape node.name)
        (if resolved = some nodeIdx then cstr "bold" else cstr "dashed")) with
      | none => some none
      | some buf => emitEdgesOf g name resolved providers buf

/-- `emit_providers`: its loop over the alias groups. -/
def emitProviders (g : DepGraph) : List AliasGroup → CStr → Option (Option CStr)
  | [], buf => some (some buf)
  | group :: groups, buf =>
    let name := dotEscape group.aliasName
    match dotAppendf buf (aliasLine name) with
    | none => some none
    | some buf =>
      match emitEdgesOf g name (depGraphLookup g group.aliasName) group.providers buf with
      | none => none
      | some none => some none
      | some (some buf) => emitProviders g groups buf

def depGraphExportDot (g : DepGraph) : Option (Option CStr) :=
  let buf := dotAppend [] (cstr "digraph libapg_deps\n\x7b\n")
  let buf := dotAppend buf (cstr "    rankdir=LR;\n")
  let buf := dotAppend buf (cstr "    node [shape=box, fontname=\"sans-serif\"];\n\n")
  match emitNodes g.nodes buf with
  | none => some none
  | some buf =>
    match emitDependencyEdges g g.nodes (dotAppend buf (cstr "\n")) with
    | none => none
    | some none => some none
    | some (some buf) =>
      (emitProviders g g.aliasGroups (dotAppend buf (cstr "\n"))).map fun r => r.map fun buf => dotAppend buf (cstr "\x7d\n")

/-! ## What is drawn -/

/-- The bytes of a string. -/
def codes (s : CStr) : Dot.Text := s.map (·.val)

/-- The identifier of a name in the drawing. -/
def dotId (name : CStr) : Dot.Text := Dot.doubled (codes name)

/-- The node that a dependency is drawn to. -/
def drawnTarget (g : DepGraph) (c : DepConstraint) : Option DepNode :=
  (c.name.bind (depGraphLookup g)).bind fun i => g.nodes[i]?

/-- A package. -/
def drawNode (n : DepNode) : Dot.Stmt :=
  .node (dotId n.name) [(Dot.text "style", Dot.text "filled"),
    (Dot.text "fillcolor", Dot.text (if n.installed then "lightgreen" else "white"))]

/-- A dependency of a package: an edge to what its name is found by, or to the name itself
when nothing is found. -/
def drawDependency (g : DepGraph) (n : DepNode) (c : DepConstraint) : Dot.Stmt :=
  match drawnTarget g c with
  | none => .edge (dotId n.name) [dotId (c.name.getD [])]
      [(Dot.text "color", Dot.text "red"), (Dot.text "style", Dot.text "dashed"), (Dot.text "label", Dot.text "missing")]
  | some target => .edge (dotId n.name) [dotId target.name]
      (if c.op = .any then [] else [(Dot.text "label", dotId ((depConstraintToStr c).getD []))])

/-- A provider of an alias: an edge, bold to the one that the alias is found by. -/
def drawProvider (g : DepGraph) (group : AliasGroup) (i : ℕ) : Dot.Stmt :=
  .edge (dotId group.aliasName) [dotId ((g.nodes[i]?.map (·.name)).getD [])]
    [(Dot.text "style", Dot.text (if depGraphLookup g group.aliasName = some i then "bold" else "dashed"))]

/-- An alias and its providers. -/
def drawAlias (g : DepGraph) (group : AliasGroup) : List Dot.Stmt :=
  .node (dotId group.aliasName) [(Dot.text "shape", Dot.text "diamond"), (Dot.text "style", Dot.text "dashed")] ::
    group.providers.map (drawProvider g group)

/-- **The drawing of a graph.** -/
def drawing (g : DepGraph) : Dot.Digraph :=
  ⟨Dot.text "libapg_deps",
    .assign (Dot.text "rankdir") (Dot.text "LR") ::
    .defaults .node [(Dot.text "shape", Dot.text "box"), (Dot.text "fontname", Dot.text "sans-serif")] ::
    (g.nodes.map drawNode ++ g.nodes.flatMap (fun n => n.pkg.dependencies.map (drawDependency g n)) ++
      g.aliasGroups.flatMap (drawAlias g))⟩

/-- What a drawing shows: the packages with their flags; for every dependency its package,
the name it leads to, whether that is found, and the constraint; for every alias, and then
for each of its providers, whether it is found by the provider. -/
structure Shown (α : Type) where
  packages : List (α × Bool)
  dependencies : List (α × α × Bool × Option α)
  aliases : List (α × Option (α × Bool))

def shownDependency (g : DepGraph) (n : DepNode) (c : DepConstraint) : CStr × CStr × Bool × Option CStr :=
  match drawnTarget g c with
  | none => (n.name, c.name.getD [], false, none)
  | some target => (n.name, target.name, true, if c.op = .any then none else some ((depConstraintToStr c).getD []))

def shownAlias (g : DepGraph) (group : AliasGroup) : List (CStr × Option (CStr × Bool)) :=
  (group.aliasName, none) :: group.providers.map fun i =>
    (group.aliasName, some ((g.nodes[i]?.map (·.name)).getD [], decide (depGraphLookup g group.aliasName = some i)))

def shown (g : DepGraph) : Shown CStr :=
  ⟨g.nodes.map fun n => (n.name, n.installed),
    g.nodes.flatMap fun n => n.pkg.dependencies.map (shownDependency g n),
    g.aliasGroups.flatMap (shownAlias g)⟩

end Apg
