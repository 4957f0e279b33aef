import Apg.Proof.Resolve

/-!
# `dep_graph_has_cycle`

The function searches from every node over one array of states. A search that ends
with a missing package or an unsatisfied constraint leaves its path marked as being
visited, and what later searches make of that decides the answer.

* `depGraphHasCycle_cases`: **what the function returns**, from the graph alone.
* `depGraphHasCycle_exact_iff`: **when the answer is right.**
* `AllMet.hasCycleExact`: so it is when all dependencies are met.
-/

namespace Apg

open Relation

variable {g : DepGraph}

/-- The nodes that the dependencies of a node resolve to, whether or not their
versions satisfy it. -/
def depResolved (g : DepGraph) (u : ℕ) : List ℕ :=
  ((g.nodes[u]?.map (·.pkg.dependencies)).getD []).filterMap fun c => c.name.bind (depGraphLookup g)

def Resolves (g : DepGraph) (u v : ℕ) : Prop := v ∈ depResolved g u

/-- Some node depends on itself, directly or through others. -/
def Cyclic (g : DepGraph) : Prop := ∃ u, TransGen (Resolves g) u u

/-- The answer is given, and it is right. -/
def HasCycleExact (g : DepGraph) : Prop := ∃ b, depGraphHasCycle g = some (.ok b) ∧ (b = true ↔ Cyclic g)

/-- The search from node `j`, which no search from a node before has marked, walks
into such a mark or round a cycle. -/
def CaughtAt (g : DepGraph) (j : ℕ) : Prop :=
  (∀ i < j, ¬Dfs.Walk (depEdges g) i j) ∧
    ∃ v, Dfs.Walk (depEdges g) j v ∧
      (TransGen (Dfs.Leads (depEdges g)) v v ∨ ∃ i < j, Dfs.Walk (depEdges g) i v)

/-- The search from node `j` comes to a dependency without a name. -/
def NullAt (g : DepGraph) (j : ℕ) : Prop := ∃ u, Dfs.Walk (depEdges g) j u ∧ Dfs.Stops (depEdges g) u .null

theorem caught_range (j : ℕ) : Dfs.Caught (depEdges g) (List.range j) j ↔ CaughtAt g j := by
  unfold Dfs.Caught CaughtAt
  simp only [List.mem_range]

theorem endsFatal_iff (j : ℕ) : Dfs.EndsFatal (depEdges g) DepFail.isNull j ↔ NullAt g j := by
  constructor
  · rintro ⟨u, e, hu, hstop, he⟩
    cases e with
    | null => exact ⟨u, hu, hstop⟩
    | fail err msg => simp [DepFail.isNull] at he
  · rintro ⟨u, hu, hstop⟩
    exact ⟨u, .null, hu, hstop, rfl⟩

theorem range_split {n a : ℕ} {earlier later : List ℕ} (h : List.range n = earlier ++ a :: later) :
    a < n ∧ earlier = List.range a := by
  have hlen := congrArg List.length h
  simp only [List.length_range, List.length_append, List.length_cons] at hlen
  have hget : (List.range n)[earlier.length]? = some a := by
    rw [h, List.getElem?_append_right (le_refl _)]
    simp
  rw [List.getElem?_range (by omega), Option.some.injEq] at hget
  have htake : (List.range n).take earlier.length = earlier := by
    rw [h, List.take_left]
  rw [List.take_range, hget] at htake
  refine ⟨by omega, ?_⟩
  rw [← htake]
  congr 1
  omega

/-- No search from a node before `n` is caught, and none comes to a missing name. -/
theorem smooth_range {n : ℕ} : Dfs.Smooth (depEdges g) DepFail.isNull (List.range n) ↔
    ∀ j < n, ¬CaughtAt g j ∧ ¬NullAt g j := by
  constructor
  · intro h j hj
    have hsplit : List.range n = List.range j ++ j :: (List.range (n - j - 1)).map (j + 1 + ·) := by
      have hn : n = j + (1 + (n - j - 1)) := by omega
      rw [hn, List.range_add, List.range_add]
      simp [Function.comp_def, Nat.add_assoc, Nat.add_comm 1]
    have hj := h _ _ _ hsplit
    rwa [caught_range, endsFatal_iff] at hj
  · intro h earlier a later hsplit
    obtain ⟨ha, rfl⟩ := range_split hsplit
    rw [caught_range, endsFatal_iff]
    exact h a ha

/-- What the function returns. -/
inductive CycleAnswer (g : DepGraph) : Except DepFail Bool → Prop
  | no : (∀ j < g.nodes.length, ¬CaughtAt g j ∧ ¬NullAt g j) → CycleAnswer g (.ok false)
  | yes (j : ℕ) : j < g.nodes.length → CaughtAt g j → (∀ i ≤ j, ¬NullAt g i) → CycleAnswer g (.ok true)
  | null (j : ℕ) (e : DepFail) : j < g.nodes.length → NullAt g j → (∀ i ≤ j, ¬CaughtAt g i) → CycleAnswer g (.error e)

theorem depGraphHasCycle_cases (hg : GraphOK g) : ∃ r, depGraphHasCycle g = some r ∧ CycleAnswer g r := by
  have hfuel : (Finset.range g.nodes.length).card < g.nodes.length + 1 := by
    rw [Finset.card_range]; omega
  obtain ⟨o, ho⟩ : ∃ o, Dfs.sweep _ DepFail.isNull _ (List.range g.nodes.length) .start = some o :=
    Dfs.sweep_isSome (edge_lt hg) hfuel _ .start (fun a ha => by simpa using ha)
  have hend := Dfs.sweep_cases _ [] .start o Dfs.swept_start ho
  rw [List.nil_append] at hend
  unfold depGraphHasCycle
  rw [ho]
  refine ⟨_, rfl, ?_⟩
  cases hend with
  | ok hsmooth => exact CycleAnswer.no (smooth_range.1 hsmooth)
  | @cycle earlier a later hsplit hcaught hfree =>
    obtain ⟨ha, rfl⟩ := range_split hsplit
    refine CycleAnswer.yes a ha ((caught_range a).1 hcaught) ?_
    intro i hi
    rw [← endsFatal_iff]
    apply hfree
    rw [List.mem_append, List.mem_range, List.mem_singleton]
    omega
  | @fatal earlier a later e hsplit hfatal hsmooth hcaught =>
    obtain ⟨ha, rfl⟩ := range_split hsplit
    refine CycleAnswer.null a e ha ((endsFatal_iff a).1 hfatal) ?_
    intro i hi
    rcases Nat.lt_or_eq_of_le hi with hlt | rfl
    · exact (smooth_range.1 hsmooth i hlt).1
    · rwa [caught_range] at hcaught

/-- **When the answer is right.** A cycle is reported exactly if some search is caught
before any comes to a missing name; so with a cycle there has to be such a search, and
without one there must be none, nor one that comes to a missing name. -/
theorem depGraphHasCycle_exact_iff (hb : Built g) :
    HasCycleExact g ↔
      (Cyclic g → ∃ j < g.nodes.length, CaughtAt g j ∧ ∀ i ≤ j, ¬NullAt g i) ∧
      (¬Cyclic g → ∀ j < g.nodes.length, ¬CaughtAt g j ∧ ¬NullAt g j) := by
  obtain ⟨r, hr, hans⟩ := depGraphHasCycle_cases (built_ok hb)
  unfold HasCycleExact
  rw [hr]
  cases hans with
  | no hfree =>
    constructor
    · rintro ⟨b, hb, hiff⟩
      simp only [Option.some.injEq, Except.ok.injEq] at hb
      subst hb
      exact ⟨fun hc => absurd (hiff.2 hc) (by simp), fun _ => hfree⟩
    · rintro ⟨hcyc, -⟩
      refine ⟨false, rfl, by simp, ?_⟩
      intro hc
      obtain ⟨j, hj, hcaught, -⟩ := hcyc hc
      exact absurd hcaught (hfree j hj).1
  | yes j hj hcaught hnull =>
    constructor
    · rintro ⟨b, hb, hiff⟩
      simp only [Option.some.injEq, Except.ok.injEq] at hb
      subst hb
      exact ⟨fun _ => ⟨j, hj, hcaught, hnull⟩, fun hc => absurd (hiff.1 rfl) hc⟩
    · rintro ⟨-, hacyc⟩
      refine ⟨true, rfl, fun _ => ?_, fun _ => rfl⟩
      by_contra hc
      exact (hacyc hc j hj).1 hcaught
  | null j e hj hnull hcaught =>
    constructor
    · rintro ⟨b, hb, -⟩
      simp at hb
    · rintro ⟨hcyc, hacyc⟩
      exfalso
      by_cases hc : Cyclic g
      · obtain ⟨k, -, hk, hfree⟩ := hcyc hc
        rcases Nat.le_total j k with hjk | hkj
        · exact hfree j hjk hnull
        · exact hcaught k hkj hk
      · exact (hacyc hc j hj).2 hnull

/-! ## Graphs in which every dependency is met -/

/-- Every dependency leads to a node whose version it accepts. -/
def AllMet (g : DepGraph) : Prop := ∀ nd ∈ g.nodes, ∀ c ∈ nd.pkg.dependencies, ∃ v, depTarget g nd.pkg c = .ok v

theorem AllMet.no_error (h : AllMet g) (u : ℕ) (e : DepFail) : .error e ∉ depEdges g u := by
  unfold depEdges
  cases hnd : g.nodes[u]? with
  | none => simp
  | some nd =>
    simp only [List.mem_map, not_exists, not_and]
    intro c hc he
    obtain ⟨v, hv⟩ := h nd (List.mem_of_getElem? hnd) c hc
    rw [hv] at he
    cases he

theorem AllMet.edge_iff (h : AllMet g) (u v : ℕ) : Dfs.Edge (depEdges g) u v ↔ Resolves g u v := by
  have htarget : ∀ {pkg : Metadata} {c : DepConstraint} {v w : ℕ}, depTarget g pkg c = .ok v →
      (c.name.bind (depGraphLookup g) = some w ↔ v = w) := by
    intro pkg c v w hv
    unfold depTarget at hv
    cases hname : c.name with
    | none => rw [hname] at hv; cases hv
    | some name =>
      simp only [hname] at hv
      cases hlook : depGraphLookup g name with
      | none => rw [hlook] at hv; cases hv
      | some i =>
        have hi : i = v := by
          simp only [hlook] at hv
          split at hv
          · exact Except.ok.inj hv
          · split at hv
            · cases hv
            · exact Except.ok.inj hv
        simp [hlook, hi]
  unfold Dfs.Edge Resolves depEdges depResolved
  cases hnd : g.nodes[u]? with
  | none => simp
  | some nd =>
    simp only [List.mem_map, Option.map_some, Option.getD_some, List.mem_filterMap]
    refine exists_congr fun c => and_congr_right fun hc => ?_
    obtain ⟨w, hw⟩ := h nd (List.mem_of_getElem? hnd) c hc
    rw [htarget hw, hw, Except.ok.injEq]

/-- **In such a graph the answer is right.** -/
theorem AllMet.hasCycleExact (hb : Built g) (h : AllMet g) : HasCycleExact g := by
  have hedges : Dfs.Edge (depEdges g) = Resolves g := funext₂ fun u v => propext (h.edge_iff u v)
  have hclean : ¬Cyclic g → ∀ u, Dfs.Clean (depEdges g) u := by
    intro hacyc u v _
    refine ⟨h.no_error v, fun hround => hacyc ⟨v, ?_⟩⟩
    rwa [hedges] at hround
  have hcaught : Cyclic g → ∃ j < g.nodes.length, CaughtAt g j := by
    rintro ⟨u, hround⟩
    have hbad : ¬Dfs.Clean (depEdges g) u := fun hc => (hc u ReflTransGen.refl).2 (by rwa [hedges])
    -- the first node from which a cycle is reached
    classical
    have hsome : ∃ j, ¬Dfs.Clean (depEdges g) j := ⟨u, hbad⟩
    have hfirst := Nat.find_spec hsome
    have hlt : Nat.find hsome < g.nodes.length := by
      by_contra hge
      refine hfirst (Dfs.clean_of_edges fun x hx => ?_)
      rw [depEdges, List.getElem?_eq_none (by omega)] at hx
      cases hx
    obtain ⟨v, hv, hloop⟩ := Dfs.exists_loop (edge_lt (built_ok hb)) h.no_error (Finset.mem_range.2 hlt) hfirst
    exact ⟨_, hlt, fun i hi hwalk => Nat.find_min hsome hi fun hc => (hwalk.start_unclean hfirst) hc, v, hv, Or.inl hloop⟩
  have hnull : ∀ j, ¬NullAt g j := by
    rintro j ⟨u, -, hstop⟩
    obtain ⟨-, before, after, hsplit, -⟩ := Dfs.firstUnclean_split hstop
    exact h.no_error u .null (by rw [hsplit]; simp)
  obtain ⟨r, hr, hans⟩ := depGraphHasCycle_cases (built_ok hb)
  unfold HasCycleExact
  rw [hr]
  cases hans with
  | no hfree =>
    refine ⟨false, rfl, iff_of_false (by simp) fun hc => ?_⟩
    obtain ⟨j, hj, hat⟩ := hcaught hc
    exact (hfree j hj).1 hat
  | yes j hj hat =>
    refine ⟨true, rfl, iff_of_true rfl ?_⟩
    by_contra hacyc
    exact (hclean hacyc j).not_caught ((caught_range j).2 hat)
  | null j e hj hat => exact absurd hat (hnull j)

/-- A dependency on a name, whatever its version. -/
def onName (name : String) : DepConstraint := ⟨some (cstr name), .any, none⟩

/-- If every dependency resolves to an earlier node there is no cycle. -/
theorem not_cyclic_of_lt (h : ∀ u < g.nodes.length, ∀ v ∈ depResolved g u, v < u) : ¬Cyclic g := by
  have hlt : ∀ u v, Resolves g u v → v < u := by
    intro u v huv
    by_cases hu : u < g.nodes.length
    · exact h u hu v huv
    · unfold Resolves depResolved at huv
      rw [List.getElem?_eq_none (by omega)] at huv
      simp at huv
  rintro ⟨u, hu⟩
  have hdown : ∀ v, TransGen (Resolves g) u v → v < u := by
    intro v huv
    induction huv with
    | single huv => exact hlt _ _ huv
    | tail _ hvw ih => exact (hlt _ _ hvw).trans ih
  exact absurd (hdown u hu) (lt_irrefl u)

/-- `a` needs `x`, which there is not, and `b` needs `a`: a cycle is reported. `c` needs
`x` and itself: none is. -/
theorem depGraphHasCycle_exact_missing :
    (∃ g, Built g ∧ depGraphHasCycle g = some (.ok true) ∧ ¬Cyclic g) ∧
      ∃ g, Built g ∧ depGraphHasCycle g = some (.ok false) ∧ Cyclic g := by
  constructor
  · have hrun : ((addNodes false [
        { name := some (cstr "a"), dependencies := [onName "x"] },
        { name := some (cstr "b"), dependencies := [onName "a"] }] depGraphNew).map fun g =>
          (depGraphHasCycle g, g.nodes.length, depResolved g 0, depResolved g 1)) =
        some (some (.ok true), 2, [], [0]) := by
      decide
    obtain ⟨g, hg, hres⟩ := Option.map_eq_some_iff.1 hrun
    simp only [Prod.mk.injEq] at hres
    obtain ⟨hans, hlen, h0, h1⟩ := hres
    refine ⟨g, addNodes_built _ Built.new hg, hans, not_cyclic_of_lt ?_⟩
    intro u hu v hv
    rw [hlen] at hu
    interval_cases u
    · rw [h0] at hv; simp at hv
    · rw [h1, List.mem_singleton] at hv; omega
  · have hrun : ((addNodes false [
        { name := some (cstr "c"), dependencies := [onName "x", onName "c"] }] depGraphNew).map fun g =>
          (depGraphHasCycle g, depResolved g 0)) = some (some (.ok false), [0]) := by
      decide
    obtain ⟨g, hg, hres⟩ := Option.map_eq_some_iff.1 hrun
    simp only [Prod.mk.injEq] at hres
    obtain ⟨hans, h0⟩ := hres
    refine ⟨g, addNodes_built _ Built.new hg, hans, 0, TransGen.single ?_⟩
    unfold Resolves
    rw [h0]; simp

/-- `a` and `b` need each other. -/
theorem depGraphHasCycle_exact_pair :
    ∃ g, Built g ∧ depGraphHasCycle g = some (.ok true) ∧ Cyclic g ∧
      ∃ j < g.nodes.length, CaughtAt g j ∧ ∀ i ≤ j, ¬NullAt g i := by
  have hrun : ((addNodes false [
      { name := some (cstr "a"), dependencies := [onName "b"] },
      { name := some (cstr "b"), dependencies := [onName "a"] }] depGraphNew).map fun g =>
        (depGraphHasCycle g, depResolved g 0, depResolved g 1)) = some (some (.ok true), [1], [0]) := by
    decide
  obtain ⟨g, hg, hres⟩ := Option.map_eq_some_iff.1 hrun
  simp only [Prod.mk.injEq] at hres
  obtain ⟨hans, h0, h1⟩ := hres
  have hb : Built g := addNodes_built _ Built.new hg
  have hcyc : Cyclic g := by
    refine ⟨0, TransGen.head (b := 1) ?_ (TransGen.single ?_)⟩
    · unfold Resolves; rw [h0]; simp
    · unfold Resolves; rw [h1]; simp
  have hexact : HasCycleExact g := ⟨true, hans, fun _ => hcyc, fun _ => rfl⟩
  exact ⟨g, hb, hans, hcyc, ((depGraphHasCycle_exact_iff hb).1 hexact).1 hcyc⟩

end Apg
