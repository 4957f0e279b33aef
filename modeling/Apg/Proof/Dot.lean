import Apg.Spec.Dot

/-!
# What the exported text says

* `depGraphExportDot_reads`: **reading the text gives the drawing of the graph**, whatever
  bytes the names consist of.
* `depGraphExportDot_shown`: **the text tells what it shows**: the packages, where every
  dependency leads, and the providers of every alias.
-/

namespace Apg

variable {g : DepGraph} {buf buf' line : CStr} {ts us : List Dot.Token}

/-! ## Pieces of text -/

theorem codes_append (s t : CStr) : codes (s ++ t) = codes s ++ codes t := List.map_append

theorem codes_dotEscape (s : CStr) : codes (dotEscape s) = Dot.escape (codes s) := by
  induction s with
  | nil => rfl
  | cons c s ih =>
    have hquote : c = .quote ↔ c.val = 34 := Subtype.ext_iff
    have hslash : c = .backslash ↔ c.val = 92 := Subtype.ext_iff
    have hcodes : codes (c :: s) = c.val :: codes s := rfl
    by_cases h : c = .quote ∨ c = .backslash
    · rw [dotEscape, if_pos h, hcodes, Dot.escape, if_pos (by rwa [← hquote, ← hslash]), ← ih]
      rfl
    · rw [dotEscape, if_neg h, hcodes, Dot.escape, if_neg (by rwa [← hquote, ← hslash]), ← ih]
      rfl

/-- A name inside of its quotes. -/
theorem scan_dotEscape (name : CStr) :
    Dot.scan (.quoted []) (codes (dotEscape name)) = some ([], .quoted (dotId name)) := by
  rw [codes_dotEscape]
  exact Dot.scan_escape (codes name) []

/-- The text is whole tokens. -/
def Lexed (s : CStr) (ts : List Dot.Token) : Prop := Dot.scan .gap (codes s) = some (ts, .gap)

theorem Lexed.append (hs : Lexed buf ts) (ht : Lexed line us) : Lexed (buf ++ line) (ts ++ us) := by
  have h := Dot.scan_append hs ht
  rwa [← codes_append] at h

theorem Lexed.appendf (hs : Lexed buf ts) (ht : Lexed line us) (h : dotAppendf buf line = some buf') :
    Lexed buf' (ts ++ us) := by
  rw [dotAppendf] at h
  split_ifs at h
  obtain rfl := Option.some.inj h
  exact hs.append ht

/-! ## The lines -/

/-- A statement and the tokens that a line spells it with. -/
abbrev Line := Dot.Stmt × List Dot.Token

def nodeDrawn (n : DepNode) : Line :=
  (drawNode n, [.quoted (dotId n.name), .lbracket, .word (Dot.text "style"), .equals, .word (Dot.text "filled"), .comma,
    .word (Dot.text "fillcolor"), .equals, .quoted (Dot.text (if n.installed then "lightgreen" else "white")),
    .rbracket, .semicolon])

theorem scan_indent : Dot.scan .gap (codes (cstr "    \"")) = some ([], .quoted []) := by decide +kernel

theorem nodeLine_lexed (n : DepNode) :
    Lexed (nodeLine (dotEscape n.name) (if n.installed then cstr "lightgreen" else cstr "white")) (nodeDrawn n).2 := by
  have hmid (q : Dot.Text) : Dot.scan (.quoted q) (codes (cstr "\" [style=filled, fillcolor=\"")) =
      some ([.quoted q, .lbracket, .word (Dot.text "style"), .equals, .word (Dot.text "filled"), .comma,
        .word (Dot.text "fillcolor"), .equals], .quoted []) := Dot.scan_close q (by decide +kernel) (by decide +kernel)
  have hcolour : ∀ b : Bool, Dot.scan (.quoted []) (codes (if b then cstr "lightgreen" else cstr "white")) =
      some ([], .quoted (Dot.text (if b then "lightgreen" else "white"))) := by decide +kernel
  have hclose (q : Dot.Text) : Dot.scan (.quoted q) (codes (cstr "\"];\n")) =
      some ([.quoted q, .rbracket, .semicolon], .gap) := Dot.scan_close q (by decide +kernel) (by decide +kernel)
  rw [Lexed, nodeLine, codes_append, codes_append, codes_append, codes_append]
  exact Dot.scan_append (Dot.scan_append (Dot.scan_append (Dot.scan_append scan_indent (scan_dotEscape _)) (hmid _))
    (hcolour _)) (hclose _)

/-- The two ends of an edge; the second is still open. -/
theorem scan_edgeFrom (source target : CStr) : Dot.scan .gap (codes (edgeFrom (dotEscape source) (dotEscape target))) =
    some ([.quoted (dotId source), .arrow], .quoted (dotId target)) := by
  have hmid (q : Dot.Text) : Dot.scan (.quoted q) (codes (cstr "\" -> \"")) = some ([.quoted q, .arrow], .quoted []) :=
    Dot.scan_close q (by decide +kernel) (by decide +kernel)
  rw [edgeFrom, codes_append, codes_append, codes_append]
  exact Dot.scan_append (Dot.scan_append (Dot.scan_append scan_indent (scan_dotEscape _)) (hmid _)) (scan_dotEscape _)

/-- An edge whose attributes are still to come. -/
theorem Lexed.edge {source target : CStr} (h : Dot.scan (.quoted (dotId target)) (codes line) =
    some (.quoted (dotId target) :: ts, .gap)) :
    Lexed (edgeFrom (dotEscape source) (dotEscape target) ++ line)
      (.quoted (dotId source) :: .arrow :: .quoted (dotId target) :: ts) := by
  rw [Lexed, codes_append]
  exact Dot.scan_append (scan_edgeFrom source target) h

/-- The attributes of an edge to a package that is missing. -/
def missingTokens : List Dot.Token :=
  [.lbracket, .word (Dot.text "color"), .equals, .word (Dot.text "red"), .comma, .word (Dot.text "style"), .equals,
    .word (Dot.text "dashed"), .comma, .word (Dot.text "label"), .equals, .quoted (Dot.text "missing"), .rbracket, .semicolon]

theorem missingLine_lexed (source target : CStr) : Lexed (missingLine (dotEscape source) (dotEscape target))
    (.quoted (dotId source) :: .arrow :: .quoted (dotId target) :: missingTokens) :=
  .edge (Dot.scan_close _ (by decide +kernel) (by decide +kernel))

theorem labelLine_lexed (source target label : CStr) :
    Lexed (labelLine (dotEscape source) (dotEscape target) (dotEscape label))
      [.quoted (dotId source), .arrow, .quoted (dotId target), .lbracket, .word (Dot.text "label"), .equals,
        .quoted (dotId label), .rbracket, .semicolon] := by
  have hmid : Dot.scan (.quoted (dotId target)) (codes (cstr "\" [label=\"")) =
      some ([.quoted (dotId target), .lbracket, .word (Dot.text "label"), .equals], .quoted []) :=
    Dot.scan_close _ (by decide +kernel) (by decide +kernel)
  have hclose : Dot.scan (.quoted (dotId label)) (codes (cstr "\"];\n")) =
      some ([.quoted (dotId label), .rbracket, .semicolon], .gap) :=
    Dot.scan_close _ (by decide +kernel) (by decide +kernel)
  rw [labelLine, List.append_assoc, List.append_assoc]
  apply Lexed.edge
  rw [codes_append, codes_append]
  exact Dot.scan_append hmid (Dot.scan_append (scan_dotEscape label) hclose)

theorem plainLine_lexed (source target : CStr) : Lexed (plainLine (dotEscape source) (dotEscape target))
    [.quoted (dotId source), .arrow, .quoted (dotId target), .semicolon] :=
  .edge (Dot.scan_close _ (by decide +kernel) (by decide +kernel))

/-- The line of a dependency. -/
def dependencyDrawn (g : DepGraph) (n : DepNode) (c : DepConstraint) : Line :=
  (drawDependency g n c, match drawnTarget g c with
    | none => .quoted (dotId n.name) :: .arrow :: .quoted (dotId (c.name.getD [])) :: missingTokens
    | some target => .quoted (dotId n.name) :: .arrow :: .quoted (dotId target.name) ::
        if c.op = .any then [.semicolon]
        else [.lbracket, .word (Dot.text "label"), .equals, .quoted (dotId ((depConstraintToStr c).getD [])), .rbracket,
          .semicolon])

/-- The line of the node of an alias. -/
def aliasDrawn (group : AliasGroup) : Line :=
  (.node (dotId group.aliasName) [(Dot.text "shape", Dot.text "diamond"), (Dot.text "style", Dot.text "dashed")],
    [.quoted (dotId group.aliasName), .lbracket, .word (Dot.text "shape"), .equals, .word (Dot.text "diamond"), .comma,
      .word (Dot.text "style"), .equals, .word (Dot.text "dashed"), .rbracket, .semicolon])

theorem aliasLine_lexed (group : AliasGroup) : Lexed (aliasLine (dotEscape group.aliasName)) (aliasDrawn group).2 := by
  rw [Lexed, aliasLine, codes_append, codes_append]
  exact Dot.scan_append (Dot.scan_append scan_indent (scan_dotEscape _))
    (Dot.scan_close _ (by decide +kernel) (by decide +kernel))

/-- The line of a provider. -/
def providerDrawn (g : DepGraph) (group : AliasGroup) (i : ℕ) : Line :=
  (drawProvider g group i,
    [.quoted (dotId group.aliasName), .arrow, .quoted (dotId ((g.nodes[i]?.map (·.name)).getD [])), .lbracket,
      .word (Dot.text "style"), .equals,
      .word (Dot.text (if depGraphLookup g group.aliasName = some i then "bold" else "dashed")), .rbracket, .semicolon])

theorem providerLine_lexed {group : AliasGroup} {i : ℕ} {node : DepNode} (hnode : g.nodes[i]? = some node) :
    Lexed (providerLine (dotEscape group.aliasName) (dotEscape node.name)
      (if depGraphLookup g group.aliasName = some i then cstr "bold" else cstr "dashed")) (providerDrawn g group i).2 := by
  have hmid (q : Dot.Text) : Dot.scan (.quoted q) (codes (cstr "\" [style=")) =
      some ([.quoted q, .lbracket, .word (Dot.text "style"), .equals], .gap) :=
    Dot.scan_close q (by decide +kernel) (by decide +kernel)
  have hstyle : ∀ b : Bool, Dot.scan .gap (codes (if b then cstr "bold" else cstr "dashed") ++ codes (cstr "];\n")) =
      some ([.word (Dot.text (if b then "bold" else "dashed")), .rbracket, .semicolon], .gap) := by decide +kernel
  have hbold := hstyle (decide (depGraphLookup g group.aliasName = some i))
  simp only [decide_eq_true_eq] at hbold
  rw [providerLine, List.append_assoc, List.append_assoc]
  simp only [providerDrawn, hnode, Option.map_some, Option.getD_some]
  apply Lexed.edge
  rw [codes_append, codes_append]
  exact Dot.scan_append (hmid _) hbold

/-! ## The statements of the lines -/

/-- The tokens of the line are read as its statement. -/
def Line.Right (l : Line) : Prop := Dot.Spells l.2 l.1

theorem nodeDrawn_right (n : DepNode) : (nodeDrawn n).Right where
  nonempty := List.cons_ne_nil _ _
  head := nofun
  reads _ := rfl

theorem dependencyDrawn_right (g : DepGraph) (n : DepNode) (c : DepConstraint) : (dependencyDrawn g n c).Right := by
  unfold dependencyDrawn drawDependency
  cases drawnTarget g c with
  | none => exact ⟨List.cons_ne_nil _ _, nofun, fun _ => rfl⟩
  | some target =>
    by_cases hany : c.op = .any
    · simp only [hany, if_true]
      exact ⟨List.cons_ne_nil _ _, nofun, fun _ => rfl⟩
    · simp only [hany, if_false]
      exact ⟨List.cons_ne_nil _ _, nofun, fun _ => rfl⟩

theorem aliasDrawn_right (group : AliasGroup) : (aliasDrawn group).Right where
  nonempty := List.cons_ne_nil _ _
  head := nofun
  reads _ := rfl

theorem providerDrawn_right (g : DepGraph) (group : AliasGroup) (i : ℕ) : (providerDrawn g group i).Right := by
  unfold providerDrawn drawProvider
  by_cases hbold : depGraphLookup g group.aliasName = some i
  · simp only [hbold, if_true]
    exact ⟨List.cons_ne_nil _ _, nofun, fun _ => rfl⟩
  · simp only [hbold, if_false]
    exact ⟨List.cons_ne_nil _ _, nofun, fun _ => rfl⟩

/-! ## The loops -/

/-- The tokens of lines. -/
def spelled (lines : List Line) : List Dot.Token := lines.flatMap (·.2)

theorem spelled_append (ls ms : List Line) : spelled (ls ++ ms) = spelled ls ++ spelled ms := List.flatMap_append

theorem spelled_cons (l : Line) (ls : List Line) : spelled (l :: ls) = l.2 ++ spelled ls := List.flatMap_cons

theorem emitNodes_lexed : ∀ {nodes : List DepNode} {buf : CStr} {ts : List Dot.Token}, Lexed buf ts →
    emitNodes nodes buf = some buf' → Lexed buf' (ts ++ spelled (nodes.map nodeDrawn)) := by
  intro nodes
  induction nodes with
  | nil =>
    intro buf ts hbuf h
    obtain rfl := Option.some.inj h
    simpa [spelled] using hbuf
  | cons n nodes ih =>
    intro buf ts hbuf h
    obtain ⟨buf₁, hline, hrest⟩ := Option.bind_eq_some_iff.1 h
    have h₁ := ih (hbuf.appendf (nodeLine_lexed n) hline) hrest
    rwa [List.append_assoc, ← spelled_cons] at h₁

theorem emitDependency_lexed {n : DepNode} {c : DepConstraint} (hbuf : Lexed buf ts)
    (h : emitDependency g (dotEscape n.name) c buf = some (some buf')) : Lexed buf' (ts ++ (dependencyDrawn g n c).2) := by
  unfold emitDependency at h
  cases hname : c.name with
  | none => simp [hname] at h
  | some name =>
    simp only [hname] at h
    cases hidx : depGraphLookup g name with
    | none =>
      have htarget : drawnTarget g c = none := by simp [drawnTarget, hname, hidx]
      simp only [hidx, Option.some.injEq] at h
      simp only [dependencyDrawn, htarget, hname, Option.getD_some]
      exact hbuf.appendf (missingLine_lexed n.name name) h
    | some i =>
      simp only [hidx] at h
      cases hnode : g.nodes[i]? with
      | none => simp [hnode] at h
      | some node =>
        have htarget : drawnTarget g c = some node := by simp [drawnTarget, hname, hidx, hnode]
        simp only [hnode] at h
        simp only [dependencyDrawn, htarget]
        by_cases hany : c.op = .any
        · simp only [hany, ne_eq, not_true_eq_false, if_false, Option.some.injEq] at h
          rw [if_pos hany]
          exact hbuf.appendf (plainLine_lexed n.name node.name) h
        · simp only [ne_eq, hany, not_false_eq_true, if_true, Option.some.injEq] at h
          obtain ⟨label, hlabel, h⟩ := Option.bind_eq_some_iff.1 h
          rw [if_neg hany, hlabel]
          exact hbuf.appendf (labelLine_lexed n.name node.name label) h

theorem emitDependencies_lexed {n : DepNode} : ∀ {cs : List DepConstraint} {buf : CStr} {ts : List Dot.Token}, Lexed buf ts →
    emitDependencies g (dotEscape n.name) cs buf = some (some buf') →
    Lexed buf' (ts ++ spelled (cs.map (dependencyDrawn g n))) := by
  intro cs
  induction cs with
  | nil =>
    intro buf ts hbuf h
    obtain rfl := Option.some.inj (Option.some.inj h)
    simpa [spelled] using hbuf
  | cons c cs ih =>
    intro buf ts hbuf h
    rw [emitDependencies] at h
    split at h
    · cases h
    · cases h
    · next buf₁ hline =>
      have h₁ := ih (emitDependency_lexed hbuf hline) h
      rwa [List.append_assoc, ← spelled_cons] at h₁

theorem emitDependencyEdges_lexed : ∀ {nodes : List DepNode} {buf : CStr} {ts : List Dot.Token}, Lexed buf ts →
    emitDependencyEdges g nodes buf = some (some buf') →
    Lexed buf' (ts ++ spelled (nodes.flatMap fun n => n.pkg.dependencies.map (dependencyDrawn g n))) := by
  intro nodes
  induction nodes with
  | nil =>
    intro buf ts hbuf h
    obtain rfl := Option.some.inj (Option.some.inj h)
    simpa [spelled] using hbuf
  | cons n nodes ih =>
    intro buf ts hbuf h
    rw [emitDependencyEdges] at h
    split at h
    · cases h
    · cases h
    · next buf₁ hline =>
      have h₁ := ih (emitDependencies_lexed hbuf hline) h
      rwa [List.append_assoc, ← spelled_append] at h₁

theorem emitEdgesOf_lexed {group : AliasGroup} : ∀ {providers : List ℕ} {buf : CStr} {ts : List Dot.Token}, Lexed buf ts →
    emitEdgesOf g (dotEscape group.aliasName) (depGraphLookup g group.aliasName) providers buf = some (some buf') →
    Lexed buf' (ts ++ spelled (providers.map (providerDrawn g group))) := by
  intro providers
  induction providers with
  | nil =>
    intro buf ts hbuf h
    obtain rfl := Option.some.inj (Option.some.inj h)
    simpa [spelled] using hbuf
  | cons i providers ih =>
    intro buf ts hbuf h
    rw [emitEdgesOf] at h
    split at h
    · cases h
    · next node hnode =>
      split at h
      · cases h
      · next buf₁ hline =>
        have h₁ := ih (hbuf.appendf (providerLine_lexed hnode) hline) h
        rwa [List.append_assoc, ← spelled_cons] at h₁

/-- The lines of an alias. -/
def aliasLines (g : DepGraph) (group : AliasGroup) : List Line :=
  aliasDrawn group :: group.providers.map (providerDrawn g group)

theorem emitProviders_lexed : ∀ {groups : List AliasGroup} {buf : CStr} {ts : List Dot.Token}, Lexed buf ts →
    emitProviders g groups buf = some (some buf') → Lexed buf' (ts ++ spelled (groups.flatMap (aliasLines g))) := by
  intro groups
  induction groups with
  | nil =>
    intro buf ts hbuf h
    obtain rfl := Option.some.inj (Option.some.inj h)
    simpa [spelled] using hbuf
  | cons group groups ih =>
    intro buf ts hbuf h
    rw [emitProviders] at h
    split at h
    · cases h
    · next buf₁ hline =>
      split at h
      · cases h
      · cases h
      · next buf₂ hedges =>
        have h₁ := hbuf.appendf (aliasLine_lexed group) hline
        have h₂ := ih (emitEdgesOf_lexed h₁ hedges) h
        rwa [List.append_assoc, List.append_assoc, ← List.append_assoc (aliasDrawn group).2, ← spelled_cons, ← spelled_append] at h₂

/-! ## The whole text -/

/-- The lines in front of the packages. -/
def headDrawn : List Line :=
  [(.assign (Dot.text "rankdir") (Dot.text "LR"),
      [.word (Dot.text "rankdir"), .equals, .word (Dot.text "LR"), .semicolon]),
    (.defaults .node [(Dot.text "shape", Dot.text "box"), (Dot.text "fontname", Dot.text "sans-serif")],
      [.word (Dot.text "node"), .lbracket, .word (Dot.text "shape"), .equals, .word (Dot.text "box"), .comma,
        .word (Dot.text "fontname"), .equals, .quoted (Dot.text "sans-serif"), .rbracket, .semicolon])]

def drawnLines (g : DepGraph) : List Line :=
  headDrawn ++ g.nodes.map nodeDrawn ++ g.nodes.flatMap (fun n => n.pkg.dependencies.map (dependencyDrawn g n)) ++
    g.aliasGroups.flatMap (aliasLines g)

theorem drawnLines_right : ∀ l ∈ drawnLines g, l.Right := by
  intro l hl
  simp only [drawnLines, List.mem_append, List.mem_map, List.mem_flatMap, aliasLines, List.mem_cons, headDrawn,
    List.not_mem_nil, or_false] at hl
  rcases hl with (((rfl | rfl) | ⟨n, -, rfl⟩) | ⟨n, -, c, -, rfl⟩) | ⟨group, -, rfl | ⟨i, -, rfl⟩⟩
  · exact ⟨List.cons_ne_nil _ _, nofun, fun _ => rfl⟩
  · exact ⟨List.cons_ne_nil _ _, nofun, fun _ => rfl⟩
  · exact nodeDrawn_right n
  · exact dependencyDrawn_right g n c
  · exact aliasDrawn_right group
  · exact providerDrawn_right g group i

theorem drawnLines_stmts (g : DepGraph) : (drawnLines g).map (·.1) = (drawing g).stmts := by
  simp only [drawnLines, drawing, headDrawn, List.map_append, List.map_flatMap, List.map_map, aliasLines, List.map_cons,
    List.cons_append, List.nil_append]
  rfl

theorem depGraphExportDot_tokens {text : CStr} (h : depGraphExportDot g = some (some text)) :
    Lexed text (.word (Dot.text "digraph") :: .word (Dot.text "libapg_deps") :: .opens :: (spelled (drawnLines g) ++ [.closes])) := by
  have hhead : Lexed (dotAppend (dotAppend (dotAppend [] (cstr "digraph libapg_deps\n\x7b\n")) (cstr "    rankdir=LR;\n"))
      (cstr "    node [shape=box, fontname=\"sans-serif\"];\n\n"))
      (.word (Dot.text "digraph") :: .word (Dot.text "libapg_deps") :: .opens :: spelled headDrawn) := by
    unfold Lexed
    decide +kernel
  have hgap : Lexed (cstr "\n") [] := by unfold Lexed; decide +kernel
  have hend : Lexed (cstr "\x7d\n") [.closes] := by unfold Lexed; decide +kernel
  unfold depGraphExportDot at h
  simp only at h
  split at h
  · cases h
  · next buf₁ hnodes =>
    split at h
    · cases h
    · cases h
    · next buf₂ hedges =>
      obtain ⟨r, hproviders, h⟩ := Option.map_eq_some_iff.1 h
      obtain ⟨buf₃, rfl, rfl⟩ := Option.map_eq_some_iff.1 h
      have h₁ := (emitNodes_lexed hhead hnodes).append hgap
      have h₂ := (emitDependencyEdges_lexed h₁ hedges).append hgap
      have h₃ := (emitProviders_lexed h₂ hproviders).append hend
      simpa [drawnLines, spelled_append, dotAppend] using h₃

/-- **What the text says.** Whatever bytes the names, versions and aliases consist of, the
text that `dep_graph_export_dot` returns is one directed graph of the DOT language: a node
for every package, coloured by whether it is installed, for every dependency an edge to
what its name is found by, labelled with the constraint, or to the missing name, and for
every alias a node with an edge to each provider, bold to the one it is found by. -/
theorem depGraphExportDot_reads {text : CStr} (h : depGraphExportDot g = some (some text)) :
    Dot.read (codes text) = some (drawing g) := by
  have htokens : Dot.tokens (codes text) = some (.word (Dot.text "digraph") :: .word (Dot.text "libapg_deps") :: .opens ::
      (spelled (drawnLines g) ++ [.closes])) := by
    have hlexed := depGraphExportDot_tokens h
    rw [Lexed] at hlexed
    rw [Dot.tokens, hlexed]
  rw [Dot.read, htokens, Option.bind_some, spelled, Dot.readGraph_flatMap (by decide) rfl drawnLines_right, drawnLines_stmts]
  rfl

/-- A package with a quote, a backslash and a newline in its name, that needs a provider
and something missing. -/
def quotedGraph (version : CStr) : DepGraph :=
  (((depGraphAdd depGraphNew
    { name := some (cstr "a\"\\\n]"), version := some version,
      dependencies := [⟨some (cstr "b"), .ge, some (cstr "1")⟩, ⟨some (cstr "c"), .any, none⟩] }).bind
    fun (_, g) => depGraphAddInstalled g { name := some (cstr "node"), provides := [some (cstr "b")] }).map (·.2)).getD
    depGraphNew

/-- Its text. -/
def quotedText : CStr := ((depGraphExportDot (quotedGraph (cstr "1"))).getD none).getD []

theorem depGraphExportDot_reads_quoted : Dot.read (codes quotedText) = some (drawing (quotedGraph (cstr "1"))) :=
  depGraphExportDot_reads (by decide +kernel)

/-! ## What the text tells -/

def packageOf : Dot.Stmt → Option (Dot.Text × Bool)
  | .node id ((key, _) :: (_, colour) :: _) =>
    if key = Dot.text "style" then some (id, decide (colour = Dot.text "lightgreen")) else none
  | _ => none

def dependencyOf : Dot.Stmt → Option (Dot.Text × Dot.Text × Bool × Option Dot.Text)
  | .edge a [b] [] => some (a, b, true, none)
  | .edge a [b] [(key, label)] => if key = Dot.text "label" then some (a, b, true, some label) else none
  | .edge a [b] (_ :: _ :: _) => some (a, b, false, none)
  | _ => none

def aliasOf : Dot.Stmt → Option (Dot.Text × Option (Dot.Text × Bool))
  | .node id ((key, _) :: _) => if key = Dot.text "shape" then some (id, none) else none
  | .edge a [b] [(key, style)] => if key = Dot.text "style" then some (a, some (b, decide (style = Dot.text "bold"))) else none
  | _ => none

/-- **What a drawing says to who knows how it is drawn.** -/
def Dot.Digraph.told (d : Dot.Digraph) : Shown Dot.Text :=
  ⟨d.stmts.filterMap packageOf, d.stmts.filterMap dependencyOf, d.stmts.filterMap aliasOf⟩

theorem of_drawNode (n : DepNode) : packageOf (drawNode n) = some (dotId n.name, n.installed) ∧
    dependencyOf (drawNode n) = none ∧ aliasOf (drawNode n) = none := by
  refine ⟨?_, rfl, rfl⟩
  unfold drawNode
  cases n.installed <;> rfl

/-- What is shown of a dependency, in identifiers. -/
def dependencyId : CStr × CStr × Bool × Option CStr → Dot.Text × Dot.Text × Bool × Option Dot.Text :=
  Prod.map dotId (Prod.map dotId (Prod.map id (Option.map dotId)))

/-- What is shown of an alias, in identifiers. -/
def aliasId : CStr × Option (CStr × Bool) → Dot.Text × Option (Dot.Text × Bool) :=
  Prod.map dotId (Option.map (Prod.map dotId id))

theorem of_drawDependency (g : DepGraph) (n : DepNode) (c : DepConstraint) :
    packageOf (drawDependency g n c) = none ∧
    dependencyOf (drawDependency g n c) = some (dependencyId (shownDependency g n c)) ∧
    aliasOf (drawDependency g n c) = none := by
  unfold drawDependency shownDependency
  cases drawnTarget g c with
  | none => exact ⟨rfl, rfl, rfl⟩
  | some target =>
    by_cases hany : c.op = .any
    · simp only [hany, if_true]
      exact ⟨rfl, rfl, rfl⟩
    · simp only [hany, if_false]
      exact ⟨rfl, rfl, rfl⟩

theorem of_drawAlias (group : AliasGroup) : packageOf (aliasDrawn group).1 = none ∧
    dependencyOf (aliasDrawn group).1 = none ∧ aliasOf (aliasDrawn group).1 = some (aliasId (group.aliasName, none)) :=
  ⟨rfl, rfl, rfl⟩

theorem of_drawProvider (g : DepGraph) (group : AliasGroup) (i : ℕ) :
    packageOf (drawProvider g group i) = none ∧ dependencyOf (drawProvider g group i) = none ∧
    aliasOf (drawProvider g group i) = some (aliasId (group.aliasName,
      some ((g.nodes[i]?.map (·.name)).getD [], decide (depGraphLookup g group.aliasName = some i)))) := by
  unfold drawProvider
  by_cases hbold : depGraphLookup g group.aliasName = some i
  · simp only [hbold, if_true, decide_true]
    exact ⟨rfl, rfl, rfl⟩
  · simp only [hbold, if_false, decide_false]
    exact ⟨rfl, rfl, rfl⟩

/-- Statements of a kind, line by line; those in front of the packages are of none. -/
theorem filterMap_drawing {β : Type} {f : Dot.Stmt → Option β} (hassign : ∀ k v, f (.assign k v) = none)
    (hdefaults : ∀ k as, f (.defaults k as) = none) (g : DepGraph) : (drawing g).stmts.filterMap f =
      g.nodes.filterMap (fun n => f (drawNode n)) ++
      g.nodes.flatMap (fun n => n.pkg.dependencies.filterMap fun c => f (drawDependency g n c)) ++
      g.aliasGroups.flatMap fun group => (f (aliasDrawn group).1).toList ++
        group.providers.filterMap fun i => f (drawProvider g group i) := by
  have halias (group : AliasGroup) : (drawAlias g group).filterMap f = (f (aliasDrawn group).1).toList ++
      group.providers.filterMap fun i => f (drawProvider g group i) := by
    rw [drawAlias, List.filterMap_cons, List.filterMap_map]
    change (match f (aliasDrawn group).1 with | none => _ | some b => _) = _
    cases f (aliasDrawn group).1 <;> rfl
  simp only [drawing, List.filterMap_cons, hassign, hdefaults, List.filterMap_append, List.filterMap_map,
    List.filterMap_flatMap, halias, Function.comp_def]

theorem told_drawing (g : DepGraph) : (drawing g).told = ⟨(shown g).packages.map (Prod.map dotId id),
    (shown g).dependencies.map dependencyId, (shown g).aliases.map aliasId⟩ := by
  have hpackages := filterMap_drawing (f := packageOf) (fun _ _ => rfl) (fun _ _ => rfl) g
  have hdependencies := filterMap_drawing (f := dependencyOf) (fun _ _ => rfl) (fun _ _ => rfl) g
  have haliases := filterMap_drawing (f := aliasOf) (fun _ _ => rfl) (fun _ _ => rfl) g
  simp only [of_drawNode, of_drawDependency, of_drawAlias, of_drawProvider, List.filterMap_none, List.filterMap_eq_map',
    Option.toList_none, Option.toList_some, List.nil_append, List.append_nil] at hpackages hdependencies haliases
  rw [Dot.Digraph.told, hpackages, hdependencies, haliases]
  simp [shown, shownAlias, List.map_flatMap, Function.comp_def]

theorem dotId_injective : Function.Injective dotId :=
  Dot.doubled_injective.comp (List.map_injective_iff.2 Subtype.val_injective)

theorem dependencyId_injective : Function.Injective dependencyId :=
  dotId_injective.prodMap (dotId_injective.prodMap (Function.injective_id.prodMap (Option.map_injective dotId_injective)))

theorem aliasId_injective : Function.Injective aliasId :=
  dotId_injective.prodMap (Option.map_injective (dotId_injective.prodMap Function.injective_id))

/-- **The text tells what it shows.** Graphs with the same text have the same packages in
the same order, with the same flags; each of their dependencies leads to the same package
with the same constraint, or is missing under the same name (its constraint is not
exported); and they have the same aliases, with the same providers and the same choice
among them. -/
theorem depGraphExportDot_shown {g' : DepGraph} {text : CStr} (h : depGraphExportDot g = some (some text))
    (h' : depGraphExportDot g' = some (some text)) : shown g = shown g' := by
  have hdrawing : drawing g = drawing g' := Option.some.inj ((depGraphExportDot_reads h).symm.trans (depGraphExportDot_reads h'))
  have htold : (drawing g).told = (drawing g').told := by rw [hdrawing]
  rw [told_drawing, told_drawing] at htold
  obtain ⟨hpackages, hdependencies, haliases⟩ := Shown.mk.inj htold
  have h₁ := List.map_injective_iff.2 (dotId_injective.prodMap Function.injective_id) hpackages
  have h₂ := List.map_injective_iff.2 dependencyId_injective hdependencies
  have h₃ := List.map_injective_iff.2 aliasId_injective haliases
  cases hg : shown g
  cases hg' : shown g'
  simp only [hg, hg'] at h₁ h₂ h₃
  rw [h₁, h₂, h₃]


theorem depGraphExportDot_shown_quoted : shown (quotedGraph (cstr "1")) = shown (quotedGraph (cstr "2")) :=
  @depGraphExportDot_shown _ _ quotedText (by decide +kernel) (by decide +kernel)

end Apg
