import Apg.Proof.Graph
import Apg.Spec.Resolve

/-!
# `dep_graph_resolve` is a topological resolver

The edges the search walks are the lookups of the dependencies (`DependsOn`), as
long as their version constraints hold. What the search does is read off the
library of depth-first search; this module connects its edges to the graph.

* `depGraphResolve_correct`: **the resolver succeeds exactly when everything
  reachable resolves, and then orders it**; each error has a real cause.
-/

namespace Apg

open Relation

/-- The name of the dependency leads to a node. -/
def DepConstraint.LeadsTo (g : DepGraph) (c : DepConstraint) (j : ℕ) : Prop :=
  ∃ name, c.name = some name ∧ depGraphLookup g name = some j

/-- The version of the node the dependency leads to, if there is one, is accepted. -/
def DepConstraint.Accepts (g : DepGraph) (c : DepConstraint) : Prop :=
  ∀ j node, c.LeadsTo g j → g.nodes[j]? = some node → verSatisfies node.pkg.version c.op c.version = true

/-- A dependency of node `i` leads to node `j`. -/
def DependsOn (g : DepGraph) (i j : ℕ) : Prop :=
  ∃ node, g.nodes[i]? = some node ∧ ∃ c ∈ node.pkg.dependencies, c.LeadsTo g j

/-- `c` is a dependency of a package reachable from the root. -/
def ReachableDep (g : DepGraph) (root : ℕ) (c : DepConstraint) : Prop :=
  ∃ i node, ReflTransGen (DependsOn g) root i ∧ g.nodes[i]? = some node ∧ c ∈ node.pkg.dependencies

variable {g : DepGraph} {c : DepConstraint}

theorem verSatisfies_any (v w : Option CStr) : verSatisfies v .any w = true := by simp [verSatisfies]

theorem leadsTo_unique {i j : ℕ} (hi : c.LeadsTo g i) (hj : c.LeadsTo g j) : i = j := by
  obtain ⟨n, h1, h2⟩ := hi
  obtain ⟨n', h3, h4⟩ := hj
  rw [h1, Option.some.injEq] at h3
  rw [← h3, h2, Option.some.injEq] at h4
  exact h4

theorem depTarget_of_leadsTo (hg : GraphOK g) (pkg : Metadata) {j : ℕ} (hc : c.LeadsTo g j) :
    (c.Accepts g ∧ depTarget g pkg c = .ok j) ∨
      ¬c.Accepts g ∧ ∃ msg, depTarget g pkg c = .error (.fail .version msg) := by
  obtain ⟨name, hn, hl⟩ := hc
  have hlt := depGraphLookup_lt hg hl
  -- the node it leads to is the only one that matters
  have hacc : c.Accepts g ↔ verSatisfies (g.nodes[j]).pkg.version c.op c.version = true := by
    constructor
    · intro h
      exact h j _ ⟨name, hn, hl⟩ (List.getElem?_eq_getElem hlt)
    · intro h k node hk hnode
      have hkj := leadsTo_unique hk ⟨name, hn, hl⟩
      subst hkj
      rw [List.getElem?_eq_getElem hlt, Option.some.injEq] at hnode
      rw [← hnode]; exact h
  unfold depTarget
  simp only [hn, hl, List.getElem?_eq_getElem hlt]
  split
  · rename_i h
    refine Or.inr ⟨?_, _, rfl⟩
    rw [hacc, h.2]; simp
  · rename_i h
    refine Or.inl ⟨?_, rfl⟩
    rw [hacc]
    by_cases hop : c.op = .any
    · rw [hop]; exact verSatisfies_any _ _
    · simpa using fun hf => h ⟨hop, hf⟩

/-- Why a dependency fails. -/
theorem depTarget_error (hg : GraphOK g) {pkg : Metadata} {e : DepFail} (h : depTarget g pkg c = .error e) :
    (c.name = none ∧ e = .null) ∨
    ((∃ name, c.name = some name ∧ depGraphLookup g name = none) ∧ ∃ msg, e = .fail .missing msg) ∨
    (¬c.Accepts g ∧ ∃ msg, e = .fail .version msg) := by
  cases hn : c.name with
  | none =>
    unfold depTarget at h
    simp only [hn, Except.error.injEq] at h
    exact Or.inl ⟨rfl, h.symm⟩
  | some name =>
    cases hl : depGraphLookup g name with
    | none =>
      unfold depTarget at h
      simp only [hn, hl, Except.error.injEq] at h
      exact Or.inr (Or.inl ⟨⟨name, rfl, hl⟩, _, h.symm⟩)
    | some j =>
      rcases depTarget_of_leadsTo hg pkg ⟨name, hn, hl⟩ with ⟨-, h'⟩ | ⟨hacc, msg, h'⟩
      · rw [h'] at h; exact absurd h (by simp)
      · rw [h', Except.error.injEq] at h
        exact Or.inr (Or.inr ⟨hacc, msg, h.symm⟩)

theorem depTarget_ok_iff (hg : GraphOK g) {pkg : Metadata} {j : ℕ} :
    depTarget g pkg c = .ok j ↔ c.LeadsTo g j ∧ c.Accepts g := by
  constructor
  · intro h
    have hlead : ∃ k, c.LeadsTo g k := by
      cases hn : c.name with
      | none => unfold depTarget at h; simp [hn] at h
      | some name =>
        cases hl : depGraphLookup g name with
        | none => unfold depTarget at h; simp [hn, hl] at h
        | some k => exact ⟨k, name, hn, hl⟩
    obtain ⟨k, hk⟩ := hlead
    rcases depTarget_of_leadsTo hg pkg hk with ⟨hacc, h'⟩ | ⟨-, msg, h'⟩
    · rw [h', Except.ok.injEq] at h
      subst h; exact ⟨hk, hacc⟩
    · rw [h'] at h; exact absurd h (by simp)
  · rintro ⟨hlead, hacc⟩
    rcases depTarget_of_leadsTo hg pkg hlead with ⟨-, h⟩ | ⟨hn, -⟩
    · exact h
    · exact absurd hacc hn

/-! ## The edges of the search -/

theorem mem_depEdges {i : ℕ} {x : Except DepFail ℕ} :
    x ∈ depEdges g i ↔ ∃ node, g.nodes[i]? = some node ∧ ∃ c ∈ node.pkg.dependencies, depTarget g node.pkg c = x := by
  unfold depEdges
  cases g.nodes[i]? with
  | none => simp
  | some node => simp

theorem edge_dependsOn (hg : GraphOK g) {i j : ℕ} (h : Dfs.Edge (depEdges g) i j) : DependsOn g i j := by
  obtain ⟨node, hnode, c, hc, ht⟩ := mem_depEdges.1 h
  exact ⟨node, hnode, c, hc, ((depTarget_ok_iff hg).1 ht).1⟩

theorem reach_mono (hg : GraphOK g) {i j : ℕ} (h : ReflTransGen (Dfs.Edge (depEdges g)) i j) :
    ReflTransGen (DependsOn g) i j :=
  ReflTransGen.mono (fun _ _ => edge_dependsOn hg) _ _ h

theorem edge_of_dependsOn (hg : GraphOK g) {i j : ℕ} (herr : ∀ e, .error e ∉ depEdges g i)
    (h : DependsOn g i j) : Dfs.Edge (depEdges g) i j := by
  obtain ⟨node, hnode, c, hc, hlead⟩ := h
  refine mem_depEdges.2 ⟨node, hnode, c, hc, ?_⟩
  rcases depTarget_of_leadsTo hg node.pkg hlead with ⟨-, h⟩ | ⟨-, msg, h⟩
  · exact h
  · exact absurd (mem_depEdges.2 ⟨node, hnode, c, hc, h⟩) (herr _)

/-- Where nothing fails, the search walks every dependency. -/
theorem reach_edge (hg : GraphOK g) {root j : ℕ}
    (herr : ∀ i, ReflTransGen (Dfs.Edge (depEdges g)) root i → ∀ e, .error e ∉ depEdges g i)
    (h : ReflTransGen (DependsOn g) root j) : ReflTransGen (Dfs.Edge (depEdges g)) root j := by
  induction h with
  | refl => exact ReflTransGen.refl
  | @tail i j _ hij ih => exact ih.tail (edge_of_dependsOn hg (herr i ih) hij)

theorem edge_lt (hg : GraphOK g) : ∀ i ∈ Finset.range g.nodes.length, ∀ j, Dfs.Edge (depEdges g) i j →
    j ∈ Finset.range g.nodes.length := by
  intro i _ j h
  obtain ⟨node, hnode, c, hc, name, hn, hl⟩ := edge_dependsOn hg h
  exact Finset.mem_range.2 (depGraphLookup_lt hg hl)

/-! ## The resolver -/

/-- Every dependency reachable from the root leads to a node whose version it
accepts, and no cycle is reachable. -/
structure Sound (g : DepGraph) (root : ℕ) : Prop where
  leads : ∀ c, ReachableDep g root c → ∃ j, c.LeadsTo g j
  accepts : ∀ c, ReachableDep g root c → c.Accepts g
  acyclic : ∀ i, ReflTransGen (DependsOn g) root i → ¬TransGen (DependsOn g) i i

/-- `order` is the list of the nodes reachable from the root, each once and after
all the nodes its dependencies lead to, the root last. -/
structure IsOrder (g : DepGraph) (root : ℕ) (order : List ℕ) : Prop where
  nodup : order.Nodup
  mem : ∀ i, i ∈ order ↔ ReflTransGen (DependsOn g) root i
  after : ∀ i ∈ order, ∃ l₁ l₂, order = l₁ ++ i :: l₂ ∧ ∀ j, DependsOn g i j → j ∈ l₁
  last : order.getLast? = some root

/-- The search finds no failing edge and no cycle. -/
theorem sound_iff (hg : GraphOK g) (root : ℕ) :
    Sound g root ↔ (∀ i, ReflTransGen (Dfs.Edge (depEdges g)) root i → ∀ e, .error e ∉ depEdges g i) ∧
      ∀ i, ReflTransGen (Dfs.Edge (depEdges g)) root i → ¬TransGen (Dfs.Edge (depEdges g)) i i := by
  constructor
  · intro h
    refine ⟨?_, ?_⟩
    · intro i hi e he
      obtain ⟨node, hnode, c, hc, ht⟩ := mem_depEdges.1 he
      have hreach : ReachableDep g root c := ⟨i, node, reach_mono hg hi, hnode, hc⟩
      obtain ⟨j, hj⟩ := h.leads c hreach
      rw [(depTarget_ok_iff hg).2 ⟨hj, h.accepts c hreach⟩] at ht
      exact absurd ht (by simp)
    · intro i hi hcyc
      exact h.acyclic i (reach_mono hg hi) (TransGen.mono (fun _ _ => edge_dependsOn hg) _ _ hcyc)
  · rintro ⟨herr, hcyc⟩
    -- no edge fails, so every dependency has a target
    have htarget : ∀ c, ReachableDep g root c → ∃ j, c.LeadsTo g j ∧ c.Accepts g := by
      rintro c ⟨i, node, hi, hnode, hc⟩
      cases ht : depTarget g node.pkg c with
      | ok j => exact ⟨j, (depTarget_ok_iff hg).1 ht⟩
      | error e => exact absurd (mem_depEdges.2 ⟨node, hnode, c, hc, ht⟩) (herr i (reach_edge hg herr hi) e)
    refine ⟨?_, ?_, ?_⟩
    · intro c hc
      obtain ⟨j, hj, -⟩ := htarget c hc
      exact ⟨j, hj⟩
    · intro c hc
      obtain ⟨j, -, hacc⟩ := htarget c hc
      exact hacc
    · intro i hi hcyc'
      -- a cycle of dependencies is walked edge by edge
      have hwalk : ∀ j, TransGen (DependsOn g) i j → TransGen (Dfs.Edge (depEdges g)) i j := by
        intro j hj
        induction hj with
        | single hij => exact TransGen.single (edge_of_dependsOn hg (herr i (reach_edge hg herr hi)) hij)
        | @tail j k hij hjk ih =>
          have hj : ReflTransGen (DependsOn g) root j := hi.trans hij.to_reflTransGen
          exact ih.tail (edge_of_dependsOn hg (herr j (reach_edge hg herr hj)) hjk)
      exact hcyc i (reach_edge hg herr hi) (hwalk i hcyc')

theorem lookup_mem_range (hg : GraphOK g) {pkgName : CStr} {root : ℕ} (hl : depGraphLookup g pkgName = some root) :
    root ∈ Finset.range g.nodes.length := Finset.mem_range.2 (depGraphLookup_lt hg hl)

theorem dfs_ok_iff (hg : GraphOK g) {pkgName : CStr} {root : ℕ} (hl : depGraphLookup g pkgName = some root) :
    (∃ s, dfs g root .start = some (.ok, s)) ↔ Sound g root := by
  rw [sound_iff hg]
  exact Dfs.search_ok_iff (edge_lt hg) (lookup_mem_range hg hl) (by rw [Finset.card_range]; omega)

theorem dfs_order (hg : GraphOK g) {root : ℕ} {s : Dfs.St ℕ} (h : dfs g root .start = some (.ok, s)) :
    IsOrder g root s.order := by
  obtain ⟨hok, hext, hmem⟩ := Dfs.visit_ok _ _ _ s Dfs.start_ok h
  obtain ⟨l, hl, hreach⟩ := hext.order
  have hl' : s.order = l := hl
  have herr : ∀ i ∈ s.order, ∀ e, .error e ∉ depEdges g i := fun i hi e => hok.topo.no_error hi e
  refine ⟨hok.nodup, ?_, ?_, Dfs.visit_last rfl h⟩
  · intro i
    constructor
    · intro hi
      exact reach_mono hg (hreach i (hl' ▸ hi))
    · intro hi
      refine hok.topo.reach hmem (reach_edge hg ?_ hi)
      exact fun j hj => herr j (hok.topo.reach hmem hj)
  · intro i hi
    obtain ⟨l₁, l₂, he, hbefore⟩ := hok.topo.before i hi
    refine ⟨l₁, l₂, he, ?_⟩
    intro j hij
    obtain ⟨j', hj', hjj⟩ := hbefore _ (edge_of_dependsOn hg (herr i hi) hij)
    rw [Except.ok.injEq] at hjj
    rw [hjj]; exact hj'

/-- What a failed resolution says about the graph. -/
def Cause (g : DepGraph) (pkgName : CStr) : DepFail → Prop
  | .null => ∃ root c, depGraphLookup g pkgName = some root ∧ ReachableDep g root c ∧ c.name = none
  | .fail .cycle _ => ∃ root i, depGraphLookup g pkgName = some root ∧
      ReflTransGen (DependsOn g) root i ∧ TransGen (DependsOn g) i i
  | .fail .missing _ => depGraphLookup g pkgName = none ∨ ∃ root c name, depGraphLookup g pkgName = some root ∧
      ReachableDep g root c ∧ c.name = some name ∧ depGraphLookup g name = none
  | .fail .version _ => ∃ root c, depGraphLookup g pkgName = some root ∧ ReachableDep g root c ∧ ¬c.Accepts g
  | .fail _ _ => False

theorem dfs_stop (hg : GraphOK g) {pkgName : CStr} {root : ℕ} (hl : depGraphLookup g pkgName = some root)
    {o : Dfs.Out DepFail} {s : Dfs.St ℕ} (h : dfs g root .start = some (o, s)) :
    match o with
    | .ok => True
    | .cycle => Cause g pkgName (.fail .cycle none)
    | .err e => Cause g pkgName e := by
  have hstop := Dfs.visit_stop _ _ _ s o (by simp [Dfs.St.start]) h
  cases o with
  | ok => trivial
  | cycle =>
    obtain ⟨i, hi, hcyc⟩ := hstop (by simp)
    exact ⟨root, i, hl, reach_mono hg hi, TransGen.mono (fun _ _ => edge_dependsOn hg) _ _ hcyc⟩
  | err e =>
    obtain ⟨i, hi, he⟩ := hstop (by simp)
    obtain ⟨node, hnode, c, hc, ht⟩ := mem_depEdges.1 he
    have hreach : ReachableDep g root c := ⟨i, node, reach_mono hg hi, hnode, hc⟩
    obtain ⟨hn, rfl⟩ | ⟨⟨name, hn, hnone⟩, msg, rfl⟩ | ⟨hacc, msg, rfl⟩ := depTarget_error hg ht
    · exact ⟨root, c, hl, hreach, hn⟩
    · exact Or.inr ⟨root, c, name, hl, hreach, hn, hnone⟩
    · exact ⟨root, c, hl, hreach, hacc⟩

/-- A search from the start ends: there is fuel for every node. -/
theorem dfs_start (hg : GraphOK g) {pkgName : CStr} {root : ℕ} (hl : depGraphLookup g pkgName = some root) :
    ∃ o s, dfs g root .start = some (o, s) := by
  have hfuel : ((Finset.range g.nodes.length).filter
      fun i => (Dfs.St.start : Dfs.St ℕ).colour i = .white).card < g.nodes.length + 1 := by
    refine lt_of_le_of_lt (Finset.card_filter_le _ _) ?_
    rw [Finset.card_range]; omega
  obtain ⟨⟨o, s⟩, h⟩ := Option.isSome_iff_exists.1
    (Dfs.visit_isSome (edge_lt hg) _ root .start (lookup_mem_range hg hl) hfuel)
  exact ⟨o, s, h⟩

/-- What `dep_graph_resolve` returns. -/
theorem depGraphResolve_cases (hg : GraphOK g) (pkgName : CStr) :
    (∃ root order, depGraphLookup g pkgName = some root ∧ Sound g root ∧ IsOrder g root order ∧
      depGraphResolve g pkgName = some (.ok (order.map (nodeName g)))) ∨
    (∃ e, depGraphResolve g pkgName = some (.error e) ∧ Cause g pkgName e ∧
      ∀ root, depGraphLookup g pkgName = some root → ¬Sound g root) := by
  cases hl : depGraphLookup g pkgName with
  | none =>
    refine Or.inr ⟨.fail .missing none, ?_, Or.inl hl, by simp⟩
    unfold depGraphResolve; rw [hl]
  | some root =>
    obtain ⟨o, s, hdfs⟩ := dfs_start hg hl
    have hstop := dfs_stop hg hl hdfs
    have hsound : ∀ r, some root = some r → (¬∃ s, dfs g root .start = some (.ok, s)) → ¬Sound g r := by
      rintro r ⟨rfl⟩ hno hs
      exact hno ((dfs_ok_iff hg hl).2 hs)
    unfold depGraphResolve
    rw [hl]
    simp only [hdfs]
    match o with
    | .ok => exact Or.inl ⟨root, s.order, rfl, (dfs_ok_iff hg hl).1 ⟨s, hdfs⟩, dfs_order hg hdfs, rfl⟩
    | .cycle => exact Or.inr ⟨_, rfl, hstop, fun r hr => hsound r hr (by simp [hdfs])⟩
    | .err e => exact Or.inr ⟨e, rfl, hstop, fun r hr => hsound r hr (by simp [hdfs])⟩

/-- The names of distinct nodes are distinct. -/
theorem nodeName_inj (hg : GraphOK g) {i j : ℕ} (hi : i < g.nodes.length) (hj : j < g.nodes.length)
    (h : nodeName g i = nodeName g j) : i = j := by
  have h1 := (hg.find (nodeName g i) i).2 (by simp [nodeName, hi])
  have h2 := (hg.find (nodeName g j) j).2 (by simp [nodeName, hj])
  rw [h, h2, Option.some.injEq] at h1
  exact h1.symm

theorem nodeName_nodup (hg : GraphOK g) {order : List ℕ} (hnd : order.Nodup) (hlt : ∀ i ∈ order, i < g.nodes.length) :
    (order.map (nodeName g)).Nodup := by
  refine List.Nodup.map_on ?_ hnd
  intro i hi j hj hij
  exact nodeName_inj hg (hlt i hi) (hlt j hj) hij

theorem reach_lt (hg : GraphOK g) {pkgName : CStr} {root i : ℕ} (hl : depGraphLookup g pkgName = some root)
    (h : ReflTransGen (DependsOn g) root i) : i < g.nodes.length := by
  rcases h.cases_tail with rfl | ⟨j, -, node, -, c, -, name, -, hi⟩
  · exact depGraphLookup_lt hg hl
  · exact depGraphLookup_lt hg hi

/-- **`dep_graph_resolve` is a correct topological resolver.** On a built graph it
always returns. It returns an order exactly when the root resolves and everything
reachable from it is sound; the order then lists the names of the reachable
nodes, each once, after those they depend on, the root last. Every error has its
cause in what is reachable. -/
theorem depGraphResolve_correct (hb : Built g) (pkgName : CStr) :
    ((∃ order, depGraphResolve g pkgName = some (.ok order)) ↔
      ∃ root, depGraphLookup g pkgName = some root ∧ Sound g root) ∧
    (∀ order, depGraphResolve g pkgName = some (.ok order) →
      ∃ root idxOrder, depGraphLookup g pkgName = some root ∧ IsOrder g root idxOrder ∧
        order = idxOrder.map (nodeName g) ∧ order.Nodup) ∧
    (∀ e, depGraphResolve g pkgName = some (.error e) → Cause g pkgName e) ∧
    depGraphResolve g pkgName ≠ none := by
  have hg := built_ok hb
  obtain ⟨root, order, hl, hs, ho, h⟩ | ⟨e, h, hcause, hns⟩ := depGraphResolve_cases hg pkgName
  · refine ⟨?_, ?_, by simp [h], by simp [h]⟩
    · exact ⟨fun _ => ⟨root, hl, hs⟩, fun _ => ⟨_, h⟩⟩
    · intro order' h'
      rw [h, Option.some.injEq, Except.ok.injEq] at h'
      subst h'
      have hlt : ∀ i ∈ order, i < g.nodes.length := fun i hi => reach_lt hg hl ((ho.mem i).1 hi)
      exact ⟨root, order, hl, ho, rfl, nodeName_nodup hg ho.nodup hlt⟩
  · refine ⟨?_, by simp [h], ?_, by simp [h]⟩
    · constructor
      · rintro ⟨order, h'⟩
        rw [h] at h'; exact absurd h' (by simp)
      · rintro ⟨root, hl, hs⟩
        exact absurd hs (hns root hl)
    · intro e' h'
      rw [h, Option.some.injEq, Except.error.injEq] at h'
      rw [← h']; exact hcause

/-- A package that depends on an alias of another one added later. -/
theorem depGraphResolve_correct_pair :
    ∃ g, Built g ∧ depGraphResolve g (cstr "app") = some (.ok [cstr "libssl", cstr "app"]) ∧
      ∃ root, depGraphLookup g (cstr "app") = some root ∧ Sound g root := by
  have hrun : ((addNodes false [
      { name := some (cstr "app"), dependencies := [⟨some (cstr "ssl"), .ge, some (cstr "3")⟩] },
      { name := some (cstr "libssl"), version := some (cstr "3.1"), provides := [some (cstr "ssl")] }]
      depGraphNew).bind fun g => depGraphResolve g (cstr "app")) = some (.ok [cstr "libssl", cstr "app"]) := by
    decide
  obtain ⟨g, hg, horder⟩ := Option.bind_eq_some_iff.1 hrun
  have hb : Built g := addNodes_built _ Built.new hg
  exact ⟨g, hb, horder, (depGraphResolve_correct hb (cstr "app")).1.1 ⟨_, horder⟩⟩

/-! ## Several names -/

theorem firstErr_ok : ∀ {tasks : List (Except DepFail (List CStr))} {orders : List (List CStr)},
    firstErr tasks = .ok orders → tasks = orders.map .ok := by
  intro tasks
  induction tasks with
  | nil =>
    intro orders h
    simp only [firstErr, Except.ok.injEq] at h
    rw [← h, List.map_nil]
  | cons t tasks ih =>
    intro orders h
    cases t with
    | error e =>
      simp only [firstErr] at h
      split at h <;> exact absurd h (by simp)
    | ok order =>
      simp only [firstErr] at h
      cases hrest : firstErr tasks with
      | error e => rw [hrest] at h; exact absurd h (by simp [Except.map])
      | ok rest =>
        rw [hrest] at h
        simp only [Except.map, Except.ok.injEq] at h
        rw [← h, List.map_cons, ih hrest]

/-- The names seen are the names emitted. -/
structure Seen (acc : StrMap × List CStr) : Prop where
  ok : acc.1.OK
  mem : ∀ n, strMapGet acc.1 n ≠ none ↔ n ∈ acc.2

theorem seen_init : Seen (strMapInit, []) := ⟨strMapInit_ok, by simp⟩

theorem mergeStep_seen {acc : StrMap × List CStr} (h : Seen acc) (name : CStr) :
    Seen (mergeStep acc name) ∧ (mergeStep acc name).2 = if name ∈ acc.2 then acc.2 else acc.2 ++ [name] := by
  unfold mergeStep
  cases hget : strMapGet acc.1 name with
  | some v =>
    -- seen before, so emitted before
    have hin : name ∈ acc.2 := (h.mem name).1 (by simp [hget])
    exact ⟨h, by rw [if_pos hin]⟩
  | none =>
    have hout : name ∉ acc.2 := fun hin => (h.mem name).2 hin hget
    refine ⟨⟨strMapSet_ok h.ok _ _, ?_⟩, by rw [if_neg hout]⟩
    intro n
    simp only [strMapGet_set h.ok, List.mem_append, List.mem_singleton]
    by_cases hn : n = name
    · simp [hn]
    · simp [hn, h.mem n]

theorem foldl_mergeStep_mem : ∀ (names : List CStr) (acc : StrMap × List CStr), Seen acc →
    ∀ n, n ∈ (names.foldl mergeStep acc).2 ↔ n ∈ acc.2 ∨ n ∈ names := by
  intro names
  induction names with
  | nil => intro acc _ n; simp
  | cons name names ih =>
    intro acc h n
    obtain ⟨hseen, hstep⟩ := mergeStep_seen h name
    rw [List.foldl_cons, ih _ hseen, hstep, List.mem_cons]
    by_cases hin : name ∈ acc.2
    · rw [if_pos hin]
      constructor
      · rintro (h | h)
        · exact Or.inl h
        · exact Or.inr (Or.inr h)
      · rintro (h | rfl | h)
        · exact Or.inl h
        · exact Or.inl hin
        · exact Or.inr h
    · rw [if_neg hin, List.mem_append, List.mem_singleton, or_assoc]

theorem mem_merge (orders : List (List CStr)) (n : CStr) : n ∈ merge orders ↔ ∃ order ∈ orders, n ∈ order := by
  unfold merge
  rw [foldl_mergeStep_mem _ _ seen_init]
  simp

/-- The package is reachable from one of the names. -/
def NeededFrom (g : DepGraph) (names : List CStr) (n : CStr) : Prop :=
  ∃ name ∈ names, ∃ root i, depGraphLookup g name = some root ∧ ReflTransGen (DependsOn g) root i ∧ nodeName g i = n

theorem neededFrom_cons {name n : CStr} {names : List CStr} :
    NeededFrom g (name :: names) n ↔ NeededFrom g [name] n ∨ NeededFrom g names n := by
  unfold NeededFrom
  simp only [List.mem_cons, List.not_mem_nil, or_false, exists_eq_or_imp, exists_eq_left]

theorem depGraphResolve_ok (hg : GraphOK g) {name : CStr} {order : List CStr}
    (h : depGraphResolve g name = some (.ok order)) :
    (∃ root, depGraphLookup g name = some root ∧ Sound g root) ∧ ∀ n, n ∈ order ↔ NeededFrom g [name] n := by
  obtain ⟨root, idxs, hl, hs, ho, h'⟩ | ⟨e, h', -, -⟩ := depGraphResolve_cases hg name
  · rw [h, Option.some.injEq, Except.ok.injEq] at h'
    refine ⟨⟨root, hl, hs⟩, ?_⟩
    intro n
    rw [h', List.mem_map]
    constructor
    · rintro ⟨i, hi, rfl⟩
      exact ⟨name, List.mem_singleton_self _, root, i, hl, (ho.mem i).1 hi, rfl⟩
    · rintro ⟨name', hn, root', i, hl', hi, rfl⟩
      rw [List.mem_singleton.1 hn, hl, Option.some.injEq] at hl'
      subst hl'
      exact ⟨i, (ho.mem i).2 hi, rfl⟩
  · rw [h] at h'; exact absurd h' (by simp)

theorem mapM_depGraphResolve_ok (hg : GraphOK g) : ∀ (names : List CStr) (orders : List (List CStr)),
    names.mapM (depGraphResolve g) = some (orders.map Except.ok) →
    (∀ name ∈ names, ∃ root, depGraphLookup g name = some root ∧ Sound g root) ∧
      ∀ n, (∃ order ∈ orders, n ∈ order) ↔ NeededFrom g names n := by
  intro names
  induction names with
  | nil =>
    intro orders h
    simp only [List.mapM_nil, Option.pure_def, Option.some.injEq] at h
    have : orders = [] := List.map_eq_nil_iff.1 h.symm
    simp [this, NeededFrom]
  | cons name names ih =>
    intro orders h
    rw [List.mapM_cons] at h
    obtain ⟨r, hr, h⟩ := Option.bind_eq_some_iff.1 h
    obtain ⟨rs, hrs, h⟩ := Option.bind_eq_some_iff.1 h
    simp only [Option.pure_def, Option.some.injEq] at h
    obtain ⟨order, orders', rfl, rfl, rfl⟩ := List.map_eq_cons_iff.1 h.symm
    obtain ⟨h1, h2⟩ := depGraphResolve_ok hg hr
    obtain ⟨h3, h4⟩ := ih orders' hrs
    refine ⟨?_, ?_⟩
    · intro name' hn
      rcases List.mem_cons.1 hn with rfl | hn
      · exact h1
      · exact h3 name' hn
    · intro n
      rw [neededFrom_cons, ← h2 n, ← h4 n]
      simp only [List.mem_cons, exists_eq_or_imp]

/-- **What a resolution of several names returns**: everything one of them needs,
and all of that is sound. -/
theorem depGraphResolveParallel_ok (hg : GraphOK g) {names order : List CStr}
    (h : depGraphResolveParallel g names = some (.ok order)) :
    (∀ name ∈ names, ∃ root, depGraphLookup g name = some root ∧ Sound g root) ∧
      ∀ n, n ∈ order ↔ NeededFrom g names n := by
  match names, h with
  | [], h =>
    simp only [depGraphResolveParallel, Option.some.injEq, Except.ok.injEq] at h
    simp [← h, NeededFrom]
  | [name], h =>
    obtain ⟨h1, h2⟩ := depGraphResolve_ok hg h
    exact ⟨by simpa using h1, h2⟩
  | name :: name' :: names, h =>
    simp only [depGraphResolveParallel] at h
    obtain ⟨tasks, htasks, h⟩ := Option.map_eq_some_iff.1 h
    cases hfirst : firstErr tasks with
    | error e => rw [hfirst] at h; exact absurd h (by simp [Except.map])
    | ok orders =>
      rw [hfirst] at h
      simp only [Except.map, Except.ok.injEq] at h
      rw [firstErr_ok hfirst] at htasks
      obtain ⟨h1, h2⟩ := mapM_depGraphResolve_ok hg _ orders htasks
      refine ⟨h1, fun n => ?_⟩
      rw [← h, mem_merge, h2 n]

end Apg
