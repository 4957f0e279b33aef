import Apg.Proof.Conflicts
import Apg.Proof.ResolveSat

/-!
# Two ways to resolve, two ways to find a conflict

The dependency graph and the clauses of the solver describe the same pool of
packages. Both know a package by its name and its `provides`; only the graph knows
it by its `replaces` as well, and only the clauses leave a package alone that
conflicts with itself.

* `depGraphResolveSat_agrees`: **what the graph resolves through names and `provides`
  is never unsatisfiable.**
* `depGraphFindBreaks_agrees_iff`: **the two conflict checks agree on every pair but
  a package that conflicts with itself.**
-/

namespace Apg

open Relation

variable {mem : Ptr → Metadata} {m m' : SatModel} {cs : CandidateSet} {p q : Ptr} {candidates : List Ptr}

/-! ## The conflict clauses of a model -/

/-- There is a conflict clause for the two packages, in this order. -/
def ConflictPair (m : SatModel) (p q : Ptr) : Prop :=
  ∃ v w : ℕ, IsVar m p v ∧ IsVar m q w ∧ ∃ c ∈ m.clauses, c.kind = .conflict ∧ c.lits = [-(v : ℤ), -(w : ℤ)]

/-- **There is a conflict clause on the variables of the two packages.** -/
def ConflictClause (m : SatModel) (p q : Ptr) : Prop := ConflictPair m p q ∨ ConflictPair m q p

/-- New variables and clauses of other kinds make no conflict. -/
theorem conflictPair_mono (hm : ModelOK m) (hpre : m.vars <+: m'.vars)
    (hcl : ∀ c : SatClause, c.kind = .conflict → (c ∈ m'.clauses ↔ c ∈ m.clauses)) :
    ConflictPair m' p q ↔ ConflictPair m p q := by
  constructor
  · rintro ⟨v, w, hv, hw, c, hc, hkind, hlits⟩
    have hc' := (hcl c hkind).1 hc
    have hle : ∀ l ∈ c.lits, l.natAbs ≤ m.varCount := fun l hl => (hm.inRange c hc' l hl).2
    have hvle : v ≤ m.varCount := by simpa using hle (-(v : ℤ)) (by rw [hlits]; simp)
    have hwle : w ≤ m.varCount := by simpa using hle (-(w : ℤ)) (by rw [hlits]; simp)
    exact ⟨v, w, (isVar_mono_iff hpre hvle).1 hv, (isVar_mono_iff hpre hwle).1 hw, c, hc', hkind, hlits⟩
  · rintro ⟨v, w, hv, hw, c, hc, hkind, hlits⟩
    exact ⟨v, w, hv.mono hpre, hw.mono hpre, c, (hcl c hkind).2 hc, hkind, hlits⟩

theorem conflictPair_var (hm : ModelOK m) (pkg : Ptr) : ConflictPair (satModelVar m pkg).1 p q ↔ ConflictPair m p q := by
  obtain ⟨-, -, hpre, hcl, -⟩ := satModelVar_spec hm pkg
  exact conflictPair_mono hm hpre (fun c _ => by rw [hcl])

theorem candLits_clauses (dep : DepConstraint) : ∀ (items : List Ptr) (m : SatModel) (lits : List ℤ),
    (candLits mem dep items (m, lits)).1.clauses = m.clauses := by
  intro items
  induction items with
  | nil => intro m lits; rfl
  | cons cand items ih =>
    intro m lits
    unfold candLits
    split
    · exact ih m lits
    · simp only
      rw [ih]
      unfold satModelVar
      split <;> rfl

theorem addDependencyLoop_conflicts {v : ℕ} : ∀ (deps : List DepConstraint) {m m' : SatModel},
    addDependencyLoop mem cs v deps m = some m' →
    ∀ c : SatClause, c.kind = .conflict → (c ∈ m'.clauses ↔ c ∈ m.clauses) := by
  intro deps
  induction deps with
  | nil =>
    intro m m' h c _
    simp only [addDependencyLoop, Option.some.injEq] at h
    rw [h]
  | cons dep deps ih =>
    intro m m' h c hc
    unfold addDependencyLoop at h
    cases hname : dep.name with
    | none => simp [hname] at h
    | some n =>
      simp only [hname] at h
      rw [ih h c hc]
      simp only [addClause, List.mem_append, List.mem_singleton, candLits_clauses]
      refine or_iff_left ?_
      rintro rfl
      exact absurd hc (by simp)

theorem conflictLoop_pairs {a b : Ptr} {v : ℕ} : ∀ (items : List Ptr) {m : SatModel}, ModelOK m → IsVar m p v →
    (ConflictPair (conflictLoop p v items m) a b ↔ ConflictPair m a b ∨ a = p ∧ b ∈ items ∧ b ≠ p) := by
  intro items
  induction items with
  | nil => intro m _ _; simp [conflictLoop]
  | cons other items ih =>
    intro m hm hv
    simp only [conflictLoop]
    split
    · rename_i heq
      rw [ih hm hv]
      refine or_congr_right (and_congr_right fun _ => ?_)
      rw [List.mem_cons]
      exact ⟨fun h => ⟨Or.inr h.1, h.2⟩, fun h => ⟨h.1.resolve_left fun e => h.2 (e.trans heq), h.2⟩⟩
    · rename_i hne
      have hvarPair := conflictPair_var (p := a) (q := b) hm other
      obtain ⟨hok, hvar, hpre, -, -⟩ := satModelVar_spec hm other
      generalize satModelVar m other = r at hvarPair hok hvar hpre ⊢
      obtain ⟨m₁, w⟩ := r
      simp only at hvarPair hok hvar hpre ⊢
      have hv₁ := hv.mono hpre
      -- the new clause is the pair of the package and the other one
      have hnew : ConflictPair (addClause m₁ [-(v : ℤ), -(w : ℤ)] .conflict none) a b ↔
          ConflictPair m₁ a b ∨ a = p ∧ b = other := by
        constructor
        · rintro ⟨v', w', hv', hw', c, hc, hkind, hlits⟩
          rcases List.mem_append.1 hc with hc | hc
          · exact Or.inl ⟨v', w', hv', hw', c, hc, hkind, hlits⟩
          · rw [List.mem_singleton.1 hc] at hlits
            simp only [List.cons.injEq, neg_inj, Nat.cast_inj, and_true] at hlits
            rw [← hlits.1] at hv'
            rw [← hlits.2] at hw'
            exact Or.inr ⟨isVar_pkg_unique hv' hv₁, isVar_pkg_unique hw' hvar⟩
        · rintro (⟨v', w', hv', hw', c, hc, hkind, hlits⟩ | ⟨rfl, rfl⟩)
          · exact ⟨v', w', hv', hw', c, List.mem_append_left _ hc, hkind, hlits⟩
          · exact ⟨v, w, hv₁, hvar, _, List.mem_append_right _ (List.mem_singleton_self _), rfl, rfl⟩
      have hin : LitsIn m₁ [-(v : ℤ), -(w : ℤ)] := by
        intro l hl
        rcases List.mem_cons.1 hl with rfl | hl
        · exact (isVar_litsIn hv₁).2 _ (by simp)
        · exact (isVar_litsIn hvar).2 l hl
      have hclause := addClause_adds (Q := fun _ => True) hok (by simp) hin .conflict none
      rw [ih hclause.ok (hv₁.mono hclause.vars), hnew, hvarPair, or_assoc]
      refine or_congr_right ?_
      rw [List.mem_cons]
      constructor
      · rintro (⟨rfl, rfl⟩ | ⟨rfl, hb, hbp⟩)
        · exact ⟨rfl, Or.inl rfl, hne⟩
        · exact ⟨rfl, Or.inr hb, hbp⟩
      · rintro ⟨rfl, rfl | hb, hbp⟩
        · exact Or.inl ⟨rfl, rfl⟩
        · exact Or.inr ⟨rfl, hb, hbp⟩

theorem addConflictLoop_pairs {a b : Ptr} {v : ℕ} : ∀ (names : List (Option CStr)) {m : SatModel}, ModelOK m →
    IsVar m p v → (ConflictPair (addConflictLoop cs p v names m) a b ↔
      ConflictPair m a b ∨ a = p ∧ b ≠ p ∧ ∃ n, some n ∈ names ∧ b ∈ answering cs n) := by
  intro names
  induction names with
  | nil => intro m _ _; simp [addConflictLoop]
  | cons o names ih =>
    intro m hm hv
    cases o with
    | none =>
      simp only [addConflictLoop, List.mem_cons, reduceCtorEq, false_or]
      exact ih hm hv
    | some n =>
      have hgroup := conflictLoop_spec (Q := fun _ => True) (answering cs n) (fun _ _ => trivial) hm hv
      have hpairs := conflictLoop_pairs (a := a) (b := b) (answering cs n) hm hv
      simp only [addConflictLoop]
      unfold answering at hgroup hpairs
      rw [ih hgroup.ok (hv.mono hgroup.vars), hpairs, or_assoc]
      refine or_congr_right ?_
      simp only [List.mem_cons, Option.some.injEq]
      constructor
      · rintro (⟨h1, h2, h3⟩ | ⟨h1, h2, n', h3, h4⟩)
        · exact ⟨h1, h3, n, Or.inl rfl, h2⟩
        · exact ⟨h1, h2, n', Or.inr h3, h4⟩
      · rintro ⟨h1, h2, n', rfl | h3, h4⟩
        · exact Or.inl ⟨h1, h4, h2⟩
        · exact Or.inr ⟨h1, h2, n', h3, h4⟩

/-- **The conflict clauses of a model**: one for every candidate and every other one
that answers to a name it conflicts with. -/
theorem satModelBuild_pairs {a b : Ptr} : ∀ (pkgs : List Ptr) {m m' : SatModel}, ModelOK m →
    satModelBuild mem cs pkgs m = some m' →
    (ConflictPair m' a b ↔
      ConflictPair m a b ∨ a ∈ pkgs ∧ b ≠ a ∧ ∃ n, some n ∈ (mem a).conflicts ∧ b ∈ answering cs n) := by
  intro pkgs
  induction pkgs with
  | nil =>
    intro m m' _ h
    simp only [satModelBuild, Option.some.injEq] at h
    simp [h]
  | cons p pkgs ih =>
    intro m m' hm h
    simp only [satModelBuild] at h
    split at h
    · exact absurd h (by simp)
    · rename_i m₁ hdeps
      obtain ⟨hok, hvar, -, -, -⟩ := satModelVar_spec hm p
      have hadds := addDependencyLoop_spec (Q := fun _ => True) (fun _ _ _ => trivial) _ hok hvar hdeps
      have hsame : ConflictPair m₁ a b ↔ ConflictPair m a b :=
        (conflictPair_mono hok hadds.vars (addDependencyLoop_conflicts _ hdeps)).trans (conflictPair_var hm p)
      obtain ⟨hok₁, hvar₁, -, -, -⟩ := satModelVar_spec hadds.ok p
      have hpairs : ConflictPair (addConflictLoop cs p _ (mem p).conflicts _) a b ↔ _ :=
        addConflictLoop_pairs (mem p).conflicts hok₁ hvar₁
      have hok₂ : ModelOK (addConflictLoop cs p _ (mem p).conflicts _) :=
        (addConflictLoop_spec (Q := fun _ => True) (fun _ _ _ => trivial) (mem p).conflicts hok₁ hvar₁).ok
      rw [ih hok₂ h]
      rw [hpairs, conflictPair_var hadds.ok p, hsame, or_assoc, List.mem_cons]
      refine or_congr_right ?_
      constructor
      · rintro (⟨rfl, h2, h3⟩ | ⟨h1, h2, h3⟩)
        · exact ⟨Or.inl rfl, h2, h3⟩
        · exact ⟨Or.inr h1, h2, h3⟩
      · rintro ⟨rfl | h1, h2, h3⟩
        · exact Or.inl ⟨rfl, h2, h3⟩
        · exact Or.inr ⟨h1, h2, h3⟩

/-! ## The pool and its graph -/

/-- The graph of a pool, with any preferences. -/
def poolGraph (mem : Ptr → Metadata) (candidates : List Ptr) (prefs : List (CStr × CStr)) : Option DepGraph :=
  (addNodes false (candidates.map mem) depGraphNew).map fun g =>
    prefs.foldl (fun g pref => depGraphPrefer g pref.1 pref.2) g

variable {prefs : List (CStr × CStr)} {g : DepGraph}

theorem poolGraph_spec (h : poolGraph mem candidates prefs = some g) : Built g ∧ NodesOf g (candidates.map mem) := by
  obtain ⟨g₀, h0, rfl⟩ := Option.map_eq_some_iff.1 h
  obtain ⟨hb, hnodes⟩ := foldl_prefer_spec prefs (addNodes_built _ Built.new h0)
  have hof := addNodes_nodesOf _ depGraphNew_ok nodesOf_new h0
  refine ⟨hb, ?_⟩
  unfold NodesOf
  rw [hnodes]
  rwa [List.nil_append] at hof

theorem find_candidate (hnames : (candidates.map fun p => (mem p).name).Nodup) (hp : p ∈ candidates) {n : CStr}
    (hn : (mem p).name = some n) : (candidates.map mem).find? (fun x => x.name = some n) = some (mem p) := by
  induction candidates with
  | nil => simp at hp
  | cons x xs ih =>
    obtain ⟨hx, hnd⟩ := List.nodup_cons.1 hnames
    rw [List.map_cons, List.find?_cons]
    rcases List.mem_cons.1 hp with rfl | hp
    · simp [hn]
    · have hne : (mem x).name ≠ some n := by
        intro e
        exact hx (List.mem_map.2 ⟨p, hp, hn.trans e.symm⟩)
      simp only [hne, decide_false]
      exact ih hnd hp

/-- The node of a candidate's name is the candidate's. -/
theorem candidate_node (h : poolGraph mem candidates prefs = some g)
    (hnames : (candidates.map fun p => (mem p).name).Nodup) (hp : p ∈ candidates) {n : CStr} (hn : (mem p).name = some n) :
    ∃ i nd, g.nodes[i]? = some nd ∧ nd.name = n ∧ nd.pkg = mem p ∧ depGraphLookup g n = some i := by
  obtain ⟨hb, hof⟩ := poolGraph_spec h
  obtain ⟨nd, hnd, hname, hpkg⟩ := (hof n (mem p)).2 (find_candidate hnames hp hn)
  obtain ⟨i, hi⟩ := List.getElem?_of_mem hnd
  exact ⟨i, nd, hi, hname, hpkg, depGraphLookup_of_find ((depGraphFind_iff (built_ok hb)).2 ⟨nd, hi, hname⟩)⟩

/-- And every node is a candidate's. -/
theorem node_candidate (h : poolGraph mem candidates prefs = some g) {nd : DepNode} (hnd : nd ∈ g.nodes) :
    ∃ q ∈ candidates, nd.pkg = mem q ∧ (mem q).name = some nd.name := by
  obtain ⟨hb, hof⟩ := poolGraph_spec h
  have hfind := (hof nd.name nd.pkg).1 ⟨nd, hnd, rfl, rfl⟩
  obtain ⟨q, hq, he⟩ := List.mem_map.1 (List.mem_of_find?_eq_some hfind)
  refine ⟨q, hq, he.symm, ?_⟩
  rw [he]; exact (built_ok hb).named nd hnd

/-! ## Resolving -/

/-- The candidates whose names are in an order. -/
def ordered (mem : Ptr → Metadata) (candidates : List Ptr) (order : List CStr) : Set Ptr :=
  {p | p ∈ candidates ∧ ∃ n ∈ order, (mem p).name = some n}

/-- Every dependency of these candidates leads the graph to a package that has the
name or provides it. -/
def FoundByName (mem : Ptr → Metadata) (g : DepGraph) (S : Set Ptr) : Prop :=
  ∀ p ∈ S, ∀ dep ∈ (mem p).dependencies, ∀ n, dep.name = some n → ∀ i nd, depGraphLookup g n = some i →
    g.nodes[i]? = some nd → nd.pkg.name = some n ∨ some n ∈ nd.pkg.provides

/-- An order without conflicts, found by names, is a selection. -/
theorem ordered_isSelection (h : poolGraph mem candidates prefs = some g)
    (hnames : (candidates.map fun p => (mem p).name).Nodup) {root : Ptr} (hroot : root ∈ candidates) {n : CStr}
    (hn : (mem root).name = some n) {order : List CStr} (hres : depGraphResolve g n = some (.ok order))
    (hconf : ∀ p ∈ ordered mem candidates order, ∀ q ∈ ordered mem candidates order, p ≠ q → ¬(mem p).Rejects (mem q))
    (hfound : FoundByName mem g (ordered mem candidates order)) :
    IsSelection mem candidates [root] (ordered mem candidates order) := by
  obtain ⟨hb, hof⟩ := poolGraph_spec h
  have hg := built_ok hb
  obtain ⟨r, idxs, hl, hsound, hidx, hres'⟩ | ⟨e, hres', -, -⟩ := depGraphResolve_cases hg n
  swap
  · rw [hres] at hres'; exact absurd hres' (by simp)
  rw [hres, Option.some.injEq, Except.ok.injEq] at hres'
  -- a name is in the order exactly when its node is reachable
  have hmem : ∀ i nd, g.nodes[i]? = some nd → (nd.name ∈ order ↔ ReflTransGen (DependsOn g) r i) := by
    intro i nd hi
    have hname : nodeName g i = nd.name := by simp [nodeName, hi]
    have hlt := (List.getElem?_eq_some_iff.1 hi).1
    rw [hres', List.mem_map, ← hname]
    constructor
    · rintro ⟨j, hj, hji⟩
      have hreach := (hidx.mem j).1 hj
      rw [← nodeName_inj hg (reach_lt hg hl hreach) hlt hji]; exact hreach
    · intro hi
      exact ⟨i, (hidx.mem i).2 hi, rfl⟩
  refine ⟨fun p hp => hp.1, ?_, ?_, ?_⟩
  · intro p hp
    rw [List.mem_singleton.1 hp]
    obtain ⟨i, nd, hi, hname, -, hli⟩ := candidate_node h hnames hroot hn
    rw [hl, Option.some.injEq] at hli
    refine ⟨hroot, n, ?_, hn⟩
    rw [← hname]
    exact (hmem i nd hi).2 (hli ▸ ReflTransGen.refl)
  · intro p hp dep hdep
    obtain ⟨hpc, k, hk, hpk⟩ := hp
    obtain ⟨i, nd, hi, hname, hpkg, -⟩ := candidate_node h hnames hpc hpk
    have hreach := (hmem i nd hi).1 (hname ▸ hk)
    have hdep' : ReachableDep g r dep := ⟨i, nd, hreach, hi, hpkg ▸ hdep⟩
    obtain ⟨j, k', hk', hlj⟩ := hsound.leads dep hdep'
    obtain ⟨ndj, hj⟩ : ∃ ndj, g.nodes[j]? = some ndj := ⟨_, List.getElem?_eq_getElem (depGraphLookup_lt hg hlj)⟩
    obtain ⟨q, hq, hqpkg, hqname⟩ := node_candidate h (List.mem_of_getElem? hj)
    refine ⟨k', q, hk', ⟨hq, ndj.name, ?_, hqname⟩, ?_, ?_⟩
    · exact (hmem j ndj hj).2 (hreach.tail ⟨nd, hi, dep, hpkg ▸ hdep, k', hk', hlj⟩)
    · have := hfound p ⟨hpc, k, hk, hpk⟩ dep hdep k' hk' j ndj hlj hj
      rwa [hqpkg] at this
    · have := hsound.accepts dep hdep' j ndj ⟨k', hk', hlj⟩ hj
      rwa [hqpkg] at this
  · intro p hp q hq hne k hk hans
    exact hconf p hp q hq (fun e => hne e.symm) ⟨k, hk, hans⟩

/-- **What the graph resolves through names and `provides` is never unsatisfiable.**
For a pool with distinct names, if the graph resolves the root to an order without
conflicts, and no dependency of the order was met through a `replaces` or a
preference for a package that does not have the name, then
`dep_graph_resolve_sat` does not return `UNSATISFIABLE`. -/
theorem depGraphResolveSat_agrees (hnames : (candidates.map fun p => (mem p).name).Nodup)
    (hg : poolGraph mem candidates prefs = some g) {root : Ptr} (hroot : root ∈ candidates) {n : CStr}
    (hn : (mem root).name = some n) {order : List CStr} (hres : depGraphResolve g n = some (.ok order))
    (hconf : ∀ p ∈ ordered mem candidates order, ∀ q ∈ ordered mem candidates order, p ≠ q → ¬(mem p).Rejects (mem q))
    (hfound : FoundByName mem g (ordered mem candidates order)) {budget : ℕ} {threadCount : ℤ}
    {sched : Schedule threadCount} {out : SelectOut}
    (h : depGraphResolveSat mem candidates [root] budget threadCount sched = some out) :
    out.result ≠ .unsatisfiable := by
  intro hunsat
  have hsel := ordered_isSelection hg hnames hroot hn hres hconf hfound
  exact (depGraphResolveSat_spec (by simpa using hroot) h).2 hunsat ⟨_, hsel⟩

/-- A package and the provider of what it needs. -/
theorem depGraphResolveSat_agrees_provided :
    ∃ (mem : Ptr → Metadata) (g : DepGraph) (sched : Schedule 1) (out : SelectOut),
      poolGraph mem [1, 2] [] = some g ∧ depGraphResolve g (cstr "app") = some (.ok [cstr "libssl", cstr "app"]) ∧
      depGraphResolveSat mem [1, 2] [1] 10 1 sched = some out ∧ out.result ≠ .unsatisfiable := by
  let mem : Ptr → Metadata := fun p =>
    if p = 1 then { name := some (cstr "app"), dependencies := [⟨some (cstr "ssl"), .any, none⟩] }
    else { name := some (cstr "libssl"), provides := [some (cstr "ssl")] }
  let sched : Schedule 1 := ⟨[0], fun _ _ => true, by decide⟩
  have hrun : (poolGraph mem [1, 2] []).bind (fun g => (depGraphResolve g (cstr "app")).bind fun r =>
      ((depGraphLookup g (cstr "ssl")).bind (g.nodes[·]?)).map fun nd => (r, nd.pkg.provides)) =
      some (.ok [cstr "libssl", cstr "app"], [some (cstr "ssl")]) := by decide
  obtain ⟨g, hg, hrun⟩ := Option.bind_eq_some_iff.1 hrun
  obtain ⟨r, hr, hrun⟩ := Option.bind_eq_some_iff.1 hrun
  obtain ⟨nd, hnd, hval⟩ := Option.map_eq_some_iff.1 hrun
  rw [Prod.mk.injEq] at hval
  obtain ⟨rfl, hprov⟩ := hval
  have hcand : ∀ p ∈ ([1, 2] : List Ptr), p = 1 ∨ p = 2 := by simp
  -- nobody lists a conflict, and the one dependency leads to the provider
  have hnone : ∀ p, (mem p).conflicts = [] := by
    intro p
    simp only [mem]
    split <;> rfl
  have hfound : FoundByName mem g (ordered mem [1, 2] [cstr "libssl", cstr "app"]) := by
    intro p hp dep hdep n hn i nd' hl hi
    have hdep' : dep = ⟨some (cstr "ssl"), .any, none⟩ := by
      rcases hcand p hp.1 with rfl | rfl
      · exact List.mem_singleton.1 hdep
      · exact absurd hdep (by simp [mem])
    rw [hdep', Option.some.injEq] at hn
    rw [← hn] at hl ⊢
    rw [hl, Option.bind_some, hi, Option.some.injEq] at hnd
    rw [hnd, hprov]
    exact Or.inr (List.mem_singleton_self _)
  obtain ⟨out, hout⟩ : ∃ out, depGraphResolveSat mem [1, 2] [1] 10 1 sched = some out :=
    Option.isSome_iff_exists.1 (by decide)
  refine ⟨mem, g, sched, out, hg, hr, hout, ?_⟩
  refine depGraphResolveSat_agrees (by decide) hg (by simp) rfl hr ?_ hfound hout
  rintro p - q - - ⟨x, hx, -⟩
  rw [hnone p] at hx
  exact absurd hx (by simp)

/-- **A package that is found through `replaces` is none for the solver.** -/
theorem depGraphResolveSat_agrees_replaced :
    ∃ (mem : Ptr → Metadata) (g : DepGraph) (sched : Schedule 1) (out : SelectOut),
      ([1, 2].map fun p => (mem p).name).Nodup ∧ poolGraph mem [1, 2] [] = some g ∧
      depGraphResolve g (cstr "app") = some (.ok [cstr "new", cstr "app"]) ∧
      (∀ p ∈ ordered mem [1, 2] [cstr "new", cstr "app"], ∀ q ∈ ordered mem [1, 2] [cstr "new", cstr "app"], p ≠ q →
        ¬(mem p).Rejects (mem q)) ∧
      depGraphResolveSat mem [1, 2] [1] 10 1 sched = some out ∧ out.result = .unsatisfiable := by
  let mem : Ptr → Metadata := fun p =>
    if p = 1 then { name := some (cstr "app"), dependencies := [⟨some (cstr "old"), .any, none⟩] }
    else { name := some (cstr "new"), replaces := [some (cstr "old")] }
  let sched : Schedule 1 := ⟨[0], fun _ _ => true, by decide⟩
  have hrun : (poolGraph mem [1, 2] []).bind (fun g => depGraphResolve g (cstr "app")) =
      some (.ok [cstr "new", cstr "app"]) := by decide
  obtain ⟨g, hg, hr⟩ := Option.bind_eq_some_iff.1 hrun
  have hsat : (depGraphResolveSat mem [1, 2] [1] 10 1 sched).map (·.result) = some .unsatisfiable := by decide
  obtain ⟨out, hout, hval⟩ := Option.map_eq_some_iff.1 hsat
  have hnone : ∀ p, (mem p).conflicts = [] := by
    intro p
    simp only [mem]
    split <;> rfl
  refine ⟨mem, g, sched, out, by decide, hg, hr, ?_, hout, hval⟩
  rintro p - q - - ⟨x, hx, -⟩
  rw [hnone p] at hx
  exact absurd hx (by simp)

/-! ## Finding conflicts -/

/-- No string of the package that one of the two checks reads is `NULL`. -/
structure Metadata.NoNull (p : Metadata) : Prop where
  name : p.name ≠ none
  dependencies : ∀ dep ∈ p.dependencies, dep.name ≠ none
  provides : none ∉ p.provides
  replaces : none ∉ p.replaces
  conflicts : none ∉ p.conflicts

theorem addProvides_isSome (idx : ℕ) : ∀ (as : List (Option CStr)) (g : DepGraph), none ∉ as →
    (addProvides idx as g).isSome := by
  intro as
  induction as with
  | nil => intro g _; rfl
  | cons o as ih =>
    intro g h
    cases o with
    | none => simp at h
    | some a => exact ih _ fun hn => h (List.mem_cons_of_mem _ hn)

theorem addReplaces_isSome (idx : ℕ) : ∀ (as : List (Option CStr)) (g : DepGraph), none ∉ as →
    (addReplaces idx as g).isSome := by
  intro as
  induction as with
  | nil => intro g _; rfl
  | cons o as ih =>
    intro g h
    cases o with
    | none => simp at h
    | some a => exact ih _ fun hn => h (List.mem_cons_of_mem _ hn)

theorem addNode_isSome (g : DepGraph) {pkg : Metadata} (h : pkg.NoNull) (installed : Bool) :
    (addNode g pkg installed).isSome := by
  unfold addNode
  cases pkg.name with
  | none => rfl
  | some name =>
    simp only
    cases depGraphFind g name with
    | some idx =>
      simp only
      split <;> rfl
    | none =>
      simp only [Option.isSome_map]
      have hprov := addProvides_isSome g.nodes.length pkg.provides { g with
        nodes := g.nodes ++ [(⟨name, pkg, installed⟩ : DepNode)]
        nodeMap := strMapSet g.nodeMap name g.nodes.length } h.provides
      obtain ⟨g₁, h1⟩ := Option.isSome_iff_exists.1 hprov
      rw [h1, Option.bind_some]
      exact addReplaces_isSome _ _ g₁ h.replaces

theorem addNodes_isSome {installed : Bool} : ∀ (pkgs : List Metadata) (g : DepGraph), (∀ p ∈ pkgs, p.NoNull) →
    (addNodes installed pkgs g).isSome := by
  intro pkgs
  induction pkgs with
  | nil => intro g _; rfl
  | cons pkg pkgs ih =>
    intro g h
    obtain ⟨⟨e, g'⟩, hg'⟩ := Option.isSome_iff_exists.1 (addNode_isSome g (h pkg List.mem_cons_self) installed)
    unfold addNodes
    rw [hg']
    exact ih g' fun p hp => h p (List.mem_cons_of_mem _ hp)

theorem strListContains_isSome (s : CStr) : ∀ (list : List (Option CStr)), none ∉ list →
    (strListContains (some s) list).isSome := by
  intro list
  induction list with
  | nil => intro _; rfl
  | cons o list ih =>
    intro h
    cases o with
    | none => simp at h
    | some x =>
      simp only [strListContains]
      split
      · rfl
      · exact ih fun hn => h (List.mem_cons_of_mem _ hn)

theorem anyContains_isSome {list : List (Option CStr)} (hlist : none ∉ list) : ∀ (strs : List (Option CStr)),
    none ∉ strs → (anyContains list strs).isSome := by
  intro strs
  induction strs with
  | nil => intro _; rfl
  | cons o strs ih =>
    intro h
    cases o with
    | none => simp at h
    | some s =>
      obtain ⟨b, hb⟩ := Option.isSome_iff_exists.1 (strListContains_isSome s list hlist)
      unfold anyContains
      rw [hb]
      cases b with
      | true => rfl
      | false => exact ih fun hn => h (List.mem_cons_of_mem _ hn)

theorem orElse_isSome {a b : Option Bool} (ha : a.isSome) (hb : b.isSome) : (orElse a b).isSome := by
  unfold orElse
  split
  · exact hb
  · exact ha

/-- Without a `NULL` in a list the check of a pair returns. -/
theorem breaksWith_isSome {g : DepGraph} (hall : ∀ nd ∈ g.nodes, nd.pkg.NoNull) {pkg : Metadata} (hpkg : pkg.NoNull)
    (k : CStr) : (breaksWith g pkg k).isSome := by
  obtain ⟨name, hname⟩ := Option.ne_none_iff_exists'.1 hpkg.name
  unfold breaksWith
  rw [hname]
  refine orElse_isSome (strListContains_isSome k _ hpkg.conflicts) ?_
  cases hnd : (depGraphLookup g k).bind (g.nodes[·]?) with
  | none => rfl
  | some inst =>
    obtain ⟨i, -, hi⟩ := Option.bind_eq_some_iff.1 hnd
    have hinst := hall inst (List.mem_of_getElem? hi)
    refine orElse_isSome (strListContains_isSome name _ hinst.conflicts) ?_
    exact orElse_isSome (anyContains_isSome hinst.conflicts _ hpkg.provides)
      (anyContains_isSome hpkg.conflicts _ hinst.provides)

/-- **What `dep_graph_find_breaks` reports of one installed package.** -/
theorem depGraphFindBreaks_single (h : poolGraph mem candidates prefs = some g)
    (hnames : (candidates.map fun p => (mem p).name).Nodup) (hp : p ∈ candidates) (hq : q ∈ candidates) {np nq : CStr}
    (hnp : (mem p).name = some np) (hnq : (mem q).name = some nq) {r : Except DepError (List CStr)}
    (hr : depGraphFindBreaks g np [nq] = some r) :
    ∃ breaks, r = .ok breaks ∧ (nq ∈ breaks ↔ (mem p).Rejects (mem q) ∨ (mem q).Rejects (mem p)) := by
  have hg := built_ok (poolGraph_spec h).1
  obtain ⟨i, nd, hi, -, hpkg, hl⟩ := candidate_node h hnames hp hnp
  obtain ⟨j, nd', hj, hname', hpkg', -⟩ := candidate_node h hnames hq hnq
  unfold depGraphFindBreaks at hr
  rw [hl, Option.bind_some, hi] at hr
  simp only [findBreaksLoop, hpkg] at hr
  cases hb : breaksWith g (mem p) nq with
  | none => rw [hb] at hr; exact absurd hr (by simp)
  | some b =>
    have hiff := breaksWith_iff hg hnp hb (List.mem_of_getElem? hj) hname'
    rw [hpkg'] at hiff
    rw [hb] at hr
    simp only [Option.map_some, Option.some.injEq] at hr
    refine ⟨_, hr.symm, ?_⟩
    rw [← hiff]
    cases b <;> simp

/-- The conflict clauses between two candidates. -/
theorem conflictClause_iff (hm : selectionModel mem candidates [] = some m) (hp : p ∈ candidates) (hq : q ∈ candidates) :
    ConflictClause m p q ↔ p ≠ q ∧ ((mem p).Rejects (mem q) ∨ (mem q).Rejects (mem p)) := by
  unfold selectionModel at hm
  cases hcs : candidateSetAddPackages mem candidates candidateSetInit with
  | none => rw [hcs] at hm; exact absurd hm (by simp)
  | some cs =>
    rw [hcs] at hm
    obtain ⟨m₁, hbuild, rfl⟩ := Option.map_eq_some_iff.1 hm
    obtain ⟨-, hans⟩ := candidateSetAddPackages_spec mem candidates candidateSetInit_ok hcs
    -- one direction of the pair, and the other by symmetry
    have hpair : ∀ a ∈ candidates, ∀ b ∈ candidates, ConflictPair m₁ a b ↔ b ≠ a ∧ (mem a).Rejects (mem b) := by
      intro a ha b hb
      have hinit : ¬ConflictPair satModelInit a b := by
        rintro ⟨v, w, -, -, c, hc, -⟩
        simp [satModelInit] at hc
      rw [satModelBuild_pairs candidates satModelInit_ok hbuild]
      simp only [hinit, false_or, ha, true_and]
      refine and_congr_right fun _ => exists_congr fun n => and_congr_right fun _ => ?_
      rw [hans]
      have hno : b ∉ answering candidateSetInit n := by
        simp [answering, candidateSetLookup, candidateSetInit, groupItems]
      simp only [hno, false_or, hb, true_and]
      exact Iff.rfl
    unfold ConflictClause
    simp only [List.foldl_nil]
    rw [hpair p hp q hq, hpair q hq p hp]
    constructor
    · rintro (⟨hne, h⟩ | ⟨hne, h⟩)
      · exact ⟨fun e => hne e.symm, Or.inl h⟩
      · exact ⟨hne, Or.inr h⟩
    · rintro ⟨hne, h | h⟩
      · exact Or.inl ⟨fun e => hne e.symm, h⟩
      · exact Or.inr ⟨hne, h⟩

/-- **The two conflict checks agree on every pair but a package that conflicts with
itself.** For a pool with distinct names and two candidates of it, both checks
return unless a string is `NULL`, and `dep_graph_find_breaks` reports the second for
the first iff `sat_model_build` makes a conflict clause of the two, exactly when they
are different packages or the package does not list its own name or one of its
`provides` as a conflict. -/
theorem depGraphFindBreaks_agrees_iff (hnames : (candidates.map fun p => (mem p).name).Nodup) (hp : p ∈ candidates)
    (hq : q ∈ candidates) {np nq : CStr} (hnp : (mem p).name = some np) (hnq : (mem q).name = some nq)
    (prefs : List (CStr × CStr)) :
    ((∀ x ∈ candidates, (mem x).NoNull) → ∃ g m r, poolGraph mem candidates prefs = some g ∧
      selectionModel mem candidates [] = some m ∧ depGraphFindBreaks g np [nq] = some r) ∧
    ∀ g m r, poolGraph mem candidates prefs = some g → selectionModel mem candidates [] = some m →
      depGraphFindBreaks g np [nq] = some r →
      ((∃ breaks, r = .ok breaks ∧ (nq ∈ breaks ↔ ConflictClause m p q)) ↔ (p = q → ¬(mem p).Rejects (mem p))) := by
  refine ⟨?_, ?_⟩
  · intro hnull
    have hadd : (addNodes false (candidates.map mem) depGraphNew).isSome := by
      refine addNodes_isSome _ _ ?_
      intro x hx
      obtain ⟨y, hy, rfl⟩ := List.mem_map.1 hx
      exact hnull y hy
    obtain ⟨g, hg⟩ : ∃ g, poolGraph mem candidates prefs = some g :=
      Option.isSome_iff_exists.1 (by unfold poolGraph; rwa [Option.isSome_map])
    have hhash : ∀ x ∈ candidates, Hashable (mem x) :=
      fun x hx => ⟨(hnull x hx).name, (hnull x hx).provides, (hnull x hx).dependencies⟩
    obtain ⟨m, hm⟩ := Option.isSome_iff_exists.1 (selectionModel_isSome [] hhash)
    obtain ⟨i, nd, hi, -, hpkg, hl⟩ := candidate_node hg hnames hp hnp
    have hall : ∀ nd ∈ g.nodes, nd.pkg.NoNull := by
      intro nd hnd
      obtain ⟨x, hx, he, -⟩ := node_candidate hg hnd
      rw [he]; exact hnull x hx
    obtain ⟨b, hb⟩ := Option.isSome_iff_exists.1 (breaksWith_isSome hall (hnull p hp) nq)
    refine ⟨g, m, .ok (if b then [nq] else []), hg, hm, ?_⟩
    unfold depGraphFindBreaks
    rw [hl, Option.bind_some, hi]
    simp only [findBreaksLoop, hpkg, hb, Option.map_some]
  · intro g m r hg hm hr
    obtain ⟨breaks, rfl, hbreaks⟩ := depGraphFindBreaks_single hg hnames hp hq hnp hnq hr
    have hclause := conflictClause_iff hm hp hq
    constructor
    · rintro ⟨breaks', he, hagree⟩ rfl hself
      -- the package is reported, and there is no clause
      rw [Except.ok.injEq] at he
      subst he
      exact (hclause.1 (hagree.1 (hbreaks.2 (Or.inl hself)))).1 rfl
    · intro hself
      refine ⟨breaks, rfl, ?_⟩
      rw [hbreaks, hclause]
      refine ⟨fun h => ⟨?_, h⟩, And.right⟩
      rintro rfl
      exact h.elim (hself rfl) (hself rfl)

/-- Two mail servers that each provide what the first one conflicts with. -/
theorem depGraphFindBreaks_agrees_provided :
    ∃ (mem : Ptr → Metadata) (g : DepGraph) (m : SatModel), poolGraph mem [1, 2] [] = some g ∧
      selectionModel mem [1, 2] [] = some m ∧
      depGraphFindBreaks g (cstr "postfix") [cstr "exim"] = some (.ok [cstr "exim"]) ∧ ConflictClause m 1 2 := by
  let mem : Ptr → Metadata := fun p =>
    if p = 1 then { name := some (cstr "postfix"), provides := [some (cstr "mta")], conflicts := [some (cstr "mta")] }
    else { name := some (cstr "exim"), provides := [some (cstr "mta")] }
  have hrun : (poolGraph mem [1, 2] []).bind (fun g => depGraphFindBreaks g (cstr "postfix") [cstr "exim"]) =
      some (.ok [cstr "exim"]) := by decide
  obtain ⟨g, hg, hr⟩ := Option.bind_eq_some_iff.1 hrun
  obtain ⟨m, hm⟩ : ∃ m, selectionModel mem [1, 2] [] = some m := Option.isSome_iff_exists.1 (by decide)
  refine ⟨mem, g, m, hg, hm, hr, ?_⟩
  have hnames : (([1, 2] : List Ptr).map fun p => (mem p).name).Nodup := by decide
  have hagree := (depGraphFindBreaks_agrees_iff (p := 1) (q := 2) hnames (by simp) (by simp) rfl rfl []).2 g m _ hg hm hr
  obtain ⟨breaks, he, hiff⟩ := hagree.2 fun h => absurd h (by decide)
  rw [Except.ok.injEq] at he
  subst he
  exact hiff.1 (List.mem_singleton_self _)

/-- **A package that conflicts with what it provides is reported as its own
conflict**, while there is no clause for it. -/
theorem depGraphFindBreaks_agrees_self :
    ∃ (mem : Ptr → Metadata) (g : DepGraph) (m : SatModel), poolGraph mem [1] [] = some g ∧
      selectionModel mem [1] [] = some m ∧
      depGraphFindBreaks g (cstr "postfix") [cstr "postfix"] = some (.ok [cstr "postfix"]) ∧ ¬ConflictClause m 1 1 := by
  let mem : Ptr → Metadata := fun _ =>
    { name := some (cstr "postfix"), provides := [some (cstr "mta")], conflicts := [some (cstr "mta")] }
  have hrun : (poolGraph mem [1] []).bind (fun g => depGraphFindBreaks g (cstr "postfix") [cstr "postfix"]) =
      some (.ok [cstr "postfix"]) := by decide
  obtain ⟨g, hg, hr⟩ := Option.bind_eq_some_iff.1 hrun
  obtain ⟨m, hm⟩ : ∃ m, selectionModel mem [1] [] = some m := Option.isSome_iff_exists.1 (by decide)
  refine ⟨mem, g, m, hg, hm, hr, ?_⟩
  rw [conflictClause_iff hm (by simp) (by simp)]
  exact fun h => h.1 rfl

end Apg
