import Apg.Proof.SatModel

/-!
# The solver and the selection of packages

* `solveCore_correct`: **the search decides every built model.**
* `depGraphResolveSat_correct`: **a selection of packages is found or excluded**,
  whatever the number of threads and the way they run.
* `depGraphResolveSat_neededPart`: what the roots need of a selection is one itself.
-/

namespace Apg

open Cnf Relation

variable {mem : Ptr → Metadata} {m : SatModel} {S : Set Ptr}

/-! ## Built models -/

theorem satBuilt_ok (h : SatBuilt mem m) : ModelOK m := by
  induction h with
  | init => exact satModelInit_ok
  | var p _ ih => exact (satModelVar_spec ih p).1
  | force p _ ih => exact (satModelForce_spec (Q := fun _ => True) ih trivial).ok
  | build cs pkgs _ h ih =>
    exact (satModelBuild_spec (Q := fun _ => True) (fun _ _ _ => trivial) pkgs (fun _ _ => trivial) ih h).ok

theorem clauses_of_varCount (hm : ModelOK m) (h0 : m.varCount = 0) : m.clauses = [] := by
  by_contra hne
  obtain ⟨c, hc⟩ := List.exists_mem_of_ne_nil _ hne
  obtain ⟨l, hl⟩ := List.exists_mem_of_ne_nil _ (hm.nonempty c hc)
  have := hm.inRange c hc l hl
  omega

/-- What a solver may return: a satisfying assignment (no array if there are no
variables), or `UNSATISFIABLE` for clauses without one. -/
structure Decides (m : SatModel) (r : SolveOut) : Prop where
  sat : r.result = .satisfiable → ∃ assign,
    (r.assignment = some assign ∨ m.varCount = 0 ∧ r.assignment = none) ∧
      Total m.varCount assign ∧ Models assign m.cnf
  unsat : r.result = .unsatisfiable → ¬∃ τ, Total m.varCount τ ∧ Models τ m.cnf

/-- **The search decides every built model**: without cancellation `solve_core`
returns a total satisfying assignment, or `UNSATISFIABLE` only where there is
none, and `2 ^ n - 1` decisions are enough for `n` variables. -/
theorem solveCore_correct (hb : SatBuilt mem m) (budget : ℕ) (reverseOrder preferFalse : Bool) :
    ∃ r, solveCore mem ⟨m, budget, none, reverseOrder, preferFalse⟩ = some r ∧ Decides m r ∧
      (2 ^ m.varCount - 1 ≤ budget → r.result ≠ .budgetExceeded) ∧ r.result ≠ .error := by
  have hm := satBuilt_ok hb
  obtain ⟨r, hr, hsat, hunsat, herr, hbudget⟩ := solveCore_spec mem
    (a := ⟨m, budget, none, reverseOrder, preferFalse⟩) hm.inRange (clauses_of_varCount hm)
  exact ⟨r, hr, ⟨hsat, hunsat⟩, hbudget rfl, herr rfl⟩

/-- A model of two variables, one of them forced. -/
theorem solveCore_correct_forced :
    SatBuilt (fun _ => {}) (satModelForce (satModelVar satModelInit 7).1 9) ∧
      (∃ r, solveCore (fun _ => {}) ⟨satModelForce (satModelVar satModelInit 7).1 9, 3, none, true, true⟩ = some r ∧
        Decides (satModelForce (satModelVar satModelInit 7).1 9) r ∧
        (2 ^ (satModelForce (satModelVar satModelInit 7).1 9).varCount - 1 ≤ 3 → r.result ≠ .budgetExceeded) ∧
        r.result ≠ .error) ∧
      (solveCore (fun _ => {}) ⟨satModelForce (satModelVar satModelInit 7).1 9, 3, none, true, true⟩).map (·.result) =
        some .satisfiable := by
  have hb : SatBuilt (fun _ => {}) (satModelForce (satModelVar satModelInit 7).1 9) :=
    SatBuilt.force 9 (SatBuilt.var 7 SatBuilt.init)
  exact ⟨hb, solveCore_correct hb 3 true true, by decide⟩

/-! ## The portfolio -/

/-- A worker decides the model, whatever it reads from the cancel flag. -/
theorem solveCore_decides (mem : Ptr → Metadata) (hm : ModelOK m) (budget : ℕ) (cancel : Option (ℕ → Bool)) (rev pf : Bool) :
    ∃ r, solveCore mem ⟨m, budget, cancel, rev, pf⟩ = some r ∧ Decides m r := by
  obtain ⟨r, hr, hsat, hunsat, -, -⟩ := solveCore_spec mem
    (a := ⟨m, budget, cancel, rev, pf⟩) hm.inRange (clauses_of_varCount hm)
  exact ⟨r, hr, hsat, hunsat⟩

/-- What has been published decides the model, after every worker. -/
theorem satWorkers_decides (mem : Ptr → Metadata) (hm : ModelOK m) (budget : ℕ) (reads : ℕ → ℕ → Bool) :
    ∀ (order : List ℕ) (final : Option SolveOut), (∀ r ∈ final, Decides m r) →
    ∃ final', satWorkers mem m budget reads order final = some final' ∧ ∀ r ∈ final', Decides m r := by
  intro order
  induction order with
  | nil => intro final h; exact ⟨final, rfl, h⟩
  | cons i order ih =>
    intro final h
    obtain ⟨r, hr, hdec⟩ := solveCore_decides mem hm budget
      (some (if final.isSome then reads i else fun _ => false)) (i % 2 = 1) (i / 2 % 2 = 1)
    have hstep : ∃ final', satWorker mem m budget reads i final = some final' ∧ ∀ r ∈ final', Decides m r := by
      unfold satWorker
      simp only [hr]
      split
      · refine ⟨_, rfl, ?_⟩
        intro r' hr'
        cases final with
        | none => simp only [Option.getD_none, Option.mem_some_iff] at hr'; rw [← hr']; exact hdec
        | some r₀ => simp only [Option.getD_some, Option.mem_some_iff] at hr'; rw [← hr']; exact h r₀ rfl
      · exact ⟨final, rfl, h⟩
    obtain ⟨final', hf, hdec'⟩ := hstep
    obtain ⟨final'', hf', hdec''⟩ := ih final' hdec'
    exact ⟨final'', by simp only [satWorkers, hf, hf'], hdec''⟩

/-- **The portfolio decides the model** for every number of threads and every way
they run. -/
theorem satSolveParallel_decides (mem : Ptr → Metadata) (hm : ModelOK m) (budget : ℕ) (threadCount : ℤ)
    (sched : Schedule threadCount) :
    ∃ r, satSolveParallel mem m budget threadCount sched = some r ∧ Decides m r := by
  unfold satSolveParallel satSolve
  split
  · exact solveCore_decides mem hm budget none false false
  · obtain ⟨final, hf, hdec⟩ := satWorkers_decides mem hm budget sched.reads sched.order none (by simp)
    rw [hf]
    cases final with
    | none => exact ⟨_, rfl, by simp, by simp⟩
    | some r => exact ⟨r, rfl, hdec r rfl⟩

/-! ## Assignments and sets of packages -/

/-- The packages of the variables that are true. -/
def trueSet (m : SatModel) (assign : ℕ → ℤ) : Set Ptr := fun p => ∃ v, IsVar m p v ∧ assign v = 1

theorem exists_isVar {v : ℕ} (h1 : 1 ≤ v) (hv : v ≤ m.varCount) : ∃ p, IsVar m p v := by
  have hlt : v - 1 < m.vars.length := by unfold SatModel.varCount at hv; omega
  exact ⟨_, h1, List.getElem?_eq_getElem hlt⟩

theorem meets_of_models (hm : ModelOK m) {assign : ℕ → ℤ} (hmod : Models assign m.cnf) :
    Meets m (trueSet m assign) := by
  intro c hc
  obtain ⟨l, hl, hh⟩ := hmod c.lits (List.mem_map_of_mem hc)
  obtain ⟨hne, hle⟩ := hm.inRange c hc l hl
  obtain ⟨p, hp⟩ := exists_isVar (show 1 ≤ l.natAbs by omega) hle
  refine ⟨l, hl, p, hp, ?_⟩
  rcases hh with ⟨hpos, h1⟩ | ⟨hneg, h1⟩
  · exact Or.inl ⟨hpos, _, hp, h1⟩
  · refine Or.inr ⟨hneg, ?_⟩
    rintro ⟨w, hw, hw1⟩
    rw [isVar_unique hm hw hp, h1] at hw1
    omega

open Classical in
theorem models_of_meets (hmeets : Meets m S) : ∃ τ, Total m.varCount τ ∧ Models τ m.cnf := by
  refine ⟨fun v => if ∃ p, IsVar m p v ∧ p ∈ S then 1 else -1, ?_, ?_⟩
  · intro v _ _
    simp only
    split
    · exact Or.inl rfl
    · exact Or.inr rfl
  · intro c hc
    obtain ⟨clause, hclause, rfl⟩ := List.mem_map.1 hc
    obtain ⟨l, hl, q, hq, hS⟩ := hmeets clause hclause
    refine ⟨l, hl, ?_⟩
    rcases hS with ⟨hpos, hS⟩ | ⟨hneg, hS⟩
    · exact Or.inl ⟨hpos, if_pos ⟨q, hq, hS⟩⟩
    · refine Or.inr ⟨hneg, if_neg ?_⟩
      rintro ⟨p, hp, hpS⟩
      rw [isVar_pkg_unique hp hq] at hpS
      exact hS hpS

theorem mem_selectedVars {assign : ℕ → ℤ} (p : Ptr) : p ∈ selectedVars m (some assign) ↔ p ∈ trueSet m assign := by
  unfold selectedVars trueSet
  simp only [List.mem_filterMap, List.mem_filter, List.mem_range, decide_eq_true_eq]
  constructor
  · rintro ⟨i, ⟨hi, h1⟩, hp⟩
    exact ⟨i + 1, ⟨by omega, by simpa using hp⟩, h1⟩
  · rintro ⟨v, hv, h1⟩
    have hle := hv.le
    refine ⟨v - 1, ⟨by have := hv.1; omega, ?_⟩, hv.2⟩
    rw [Nat.sub_add_cancel hv.1]; exact h1

/-! ## Selections -/

/-- **A selection**: a set of candidates with all roots, in which every dependency
is met and no two members conflict. -/
structure IsSelection (mem : Ptr → Metadata) (candidates roots : List Ptr) (S : Set Ptr) : Prop where
  candidates : ∀ p ∈ S, p ∈ candidates
  roots : ∀ r ∈ roots, r ∈ S
  deps : ∀ p ∈ S, ∀ dep ∈ (mem p).dependencies,
    ∃ n q, dep.name = some n ∧ q ∈ S ∧ AnswersTo mem q n ∧ Accepted mem dep q
  conflicts : ∀ p ∈ S, ∀ q ∈ S, q ≠ p → ∀ n, some n ∈ (mem p).conflicts → ¬AnswersTo mem q n

variable {candidates roots : List Ptr}

/-- **The model of a selection problem says what a selection is.** -/
theorem selectionModel_meets (hroots : ∀ r ∈ roots, r ∈ candidates) (h : selectionModel mem candidates roots = some m) :
    ModelOK m ∧ (∀ q ∈ m.vars, q ∈ candidates) ∧
      ∀ S : Set Ptr, (∀ p ∈ S, p ∈ candidates) → (Meets m S ↔ IsSelection mem candidates roots S) := by
  unfold selectionModel at h
  split at h
  · exact absurd h (by simp)
  · rename_i cs hcs
    obtain ⟨m₁, hbuild, rfl⟩ := Option.map_eq_some_iff.1 h
    obtain ⟨-, hans⟩ := candidateSetAddPackages_spec mem candidates candidateSetInit_ok hcs
    -- the index started empty
    have hans' : ∀ n q, q ∈ answering cs n ↔ q ∈ candidates ∧ AnswersTo mem q n := by
      intro n q
      rw [hans]
      have : q ∉ answering candidateSetInit n := by simp [answering, candidateSetLookup, candidateSetInit, groupItems]
      simp [this]
    have hb := satModelBuild_spec (Q := fun q => q ∈ candidates) (fun n q hq => ((hans' n q).1 hq).1) candidates
      (fun _ hq => hq) satModelInit_ok hbuild
    have hall := hb.trans (satModelForce_all roots hroots hb.ok)
    refine ⟨hall.ok, ?_, ?_⟩
    · intro q hq
      rcases hall.new q hq with hq | hq
      · simp [satModelInit] at hq
      · exact hq
    · intro S hS
      rw [hall.meets S]
      -- what is asked of a set of packages is only what the clauses added
      have hinit : Meets satModelInit S := by intro c hc; simp [satModelInit] at hc
      constructor
      · rintro ⟨-, hpkg, hr⟩
        refine ⟨hS, hr, ?_, ?_⟩
        · intro p hp dep hdep
          obtain ⟨n, hn, q, hq, hacc, hqS⟩ := (hpkg p (hS p hp) hp).deps dep hdep
          exact ⟨n, q, hn, hqS, ((hans' n q).1 hq).2, hacc⟩
        · intro p hp q hq hne n hn hanswer
          exact (hpkg p (hS p hp) hp).conflicts n hn q ((hans' n q).2 ⟨hS q hq, hanswer⟩) hne hq
      · intro hsel
        refine ⟨hinit, ?_, hsel.roots⟩
        intro p _ hp
        refine ⟨?_, ?_⟩
        · intro dep hdep
          obtain ⟨n, q, hn, hq, hanswer, hacc⟩ := hsel.deps p hp dep hdep
          exact ⟨n, hn, q, (hans' n q).2 ⟨hS q hq, hanswer⟩, hacc, hq⟩
        · intro n hn q hq hne hqS
          exact hsel.conflicts p hp q hqS hne n hn ((hans' n q).1 hq).2

/-- No string of the package that the encoding hands to the hash is `NULL`. -/
def Hashable (p : Metadata) : Prop :=
  p.name ≠ none ∧ none ∉ p.provides ∧ ∀ dep ∈ p.dependencies, dep.name ≠ none

theorem candidateSetAddAll_isSome (pkg : Ptr) : ∀ (names : List (Option CStr)) (cs : CandidateSet), none ∉ names →
    (candidateSetAddAll pkg names cs).isSome := by
  intro names
  induction names with
  | nil => intro cs _; rfl
  | cons o names ih =>
    intro cs hn
    cases o with
    | none => simp at hn
    | some n => exact ih _ fun h => hn (List.mem_cons_of_mem _ h)

theorem candidateSetAddPackages_isSome : ∀ (pkgs : List Ptr) (cs : CandidateSet),
    (∀ p ∈ pkgs, Hashable (mem p)) → (candidateSetAddPackages mem pkgs cs).isSome := by
  intro pkgs
  induction pkgs with
  | nil => intro cs _; rfl
  | cons p pkgs ih =>
    intro cs h
    obtain ⟨h1, h2, -⟩ := h p List.mem_cons_self
    have hnone : none ∉ (mem p).name :: (mem p).provides := by
      rw [List.mem_cons, not_or]; exact ⟨h1.symm, h2⟩
    obtain ⟨cs', hcs'⟩ := Option.isSome_iff_exists.1 (candidateSetAddAll_isSome p _ cs hnone)
    unfold candidateSetAddPackages candidateSetAddPackage
    rw [hcs']
    exact ih cs' fun q hq => h q (List.mem_cons_of_mem _ hq)

theorem addDependencyLoop_isSome (mem : Ptr → Metadata) (cs : CandidateSet) (v : ℕ) : ∀ (deps : List DepConstraint)
    (m : SatModel), (addDependencyLoop mem cs v deps m).isSome ↔ ∀ dep ∈ deps, dep.name ≠ none := by
  intro deps
  induction deps with
  | nil => intro m; simp [addDependencyLoop]
  | cons dep deps ih =>
    intro m
    rw [List.forall_mem_cons]
    cases hn : dep.name with
    | none => simp [addDependencyLoop, hn]
    | some n => simp [addDependencyLoop, hn, ih]

theorem satModelBuild_isSome {cs : CandidateSet} : ∀ (pkgs : List Ptr) (m : SatModel),
    (satModelBuild mem cs pkgs m).isSome ↔ ∀ p ∈ pkgs, ∀ dep ∈ (mem p).dependencies, dep.name ≠ none := by
  intro pkgs
  induction pkgs with
  | nil => intro m; simp [satModelBuild]
  | cons p pkgs ih =>
    intro m
    rw [List.forall_mem_cons, ← addDependencyLoop_isSome mem cs (satModelVar m p).2 _ (satModelVar m p).1]
    unfold satModelBuild addDependencyClauses
    cases hdeps : addDependencyLoop mem cs (satModelVar m p).2 (mem p).dependencies (satModelVar m p).1 with
    | none => simp [hdeps]
    | some m₁ => simp [hdeps, ih]

theorem selectionModel_isSome (roots : List Ptr) (h : ∀ p ∈ candidates, Hashable (mem p)) :
    (selectionModel mem candidates roots).isSome := by
  obtain ⟨cs, hcs⟩ := Option.isSome_iff_exists.1 (candidateSetAddPackages_isSome candidates candidateSetInit h)
  unfold selectionModel
  simp only [hcs, Option.isSome_map]
  exact (satModelBuild_isSome candidates satModelInit).2 fun p hp => (h p hp).2.2

/-- What `dep_graph_resolve_sat` says when it returns. -/
theorem depGraphResolveSat_spec (hroots : ∀ r ∈ roots, r ∈ candidates) {budget : ℕ} {threadCount : ℤ}
    {sched : Schedule threadCount} {out : SelectOut}
    (h : depGraphResolveSat mem candidates roots budget threadCount sched = some out) :
    (out.result = .satisfiable → IsSelection mem candidates roots {p | p ∈ out.selected}) ∧
      (out.result = .unsatisfiable → ¬∃ S, IsSelection mem candidates roots S) := by
  unfold depGraphResolveSat at h
  cases hsel : selectionModel mem candidates roots with
  | none => rw [hsel] at h; exact absurd h (by simp)
  | some m =>
    obtain ⟨hm, hvars, hmeets⟩ := selectionModel_meets hroots hsel
    obtain ⟨r, hr, hdec⟩ := satSolveParallel_decides mem hm budget threadCount sched
    simp only [hsel, hr] at h
    by_cases hres : r.result = .satisfiable
    · rw [if_pos hres, Option.some.injEq] at h
      subst h
      refine ⟨fun _ => ?_, by simp⟩
      obtain ⟨assign, hassign, -, hmod⟩ := hdec.sat hres
      -- the packages handed out are those of the true variables
      have hset : {p | p ∈ selectedVars m r.assignment} = trueSet m assign := by
        ext p
        rcases hassign with h | ⟨h0, h⟩
        · rw [h]; exact mem_selectedVars p
        · -- no variables: both are empty
          rw [h]
          refine ⟨fun hp => absurd hp (by simp [selectedVars]), ?_⟩
          rintro ⟨v, hv, -⟩
          have h1 := hv.1
          have h2 := hv.le
          omega
      have hsub : ∀ p ∈ trueSet m assign, p ∈ candidates := by
        rintro p ⟨v, hv, -⟩
        exact hvars p (List.mem_of_getElem? hv.2)
      simp only [hset]
      exact (hmeets _ hsub).1 (meets_of_models hm hmod)
    · rw [if_neg hres, Option.some.injEq] at h
      subst h
      refine ⟨fun h => absurd h hres, ?_⟩
      -- a selection would be a model
      rintro hunsat ⟨S, hS⟩
      exact hdec.unsat hunsat (models_of_meets ((hmeets S hS.candidates).2 hS))

theorem depGraphResolveSat_isSome (h : ∀ p ∈ candidates, Hashable (mem p)) (hroots : ∀ r ∈ roots, r ∈ candidates)
    (budget : ℕ) (threadCount : ℤ) (sched : Schedule threadCount) :
    ∃ r, depGraphResolveSat mem candidates roots budget threadCount sched = some r := by
  obtain ⟨m, hsel⟩ := Option.isSome_iff_exists.1 (selectionModel_isSome roots h)
  obtain ⟨hm, -, -⟩ := selectionModel_meets hroots hsel
  obtain ⟨r, hr, -⟩ := satSolveParallel_decides mem hm budget threadCount sched
  unfold depGraphResolveSat
  simp only [hsel, hr]
  split
  · exact ⟨_, rfl⟩
  · exact ⟨_, rfl⟩

/-- **A selection of packages is found or excluded.** For every pool, roots of the
pool, budget, thread count and way the threads run, `dep_graph_resolve_sat`
returns (unless a candidate has a `NULL` string); `SATISFIABLE` comes with a
selection, and `UNSATISFIABLE` only where there is none. -/
theorem depGraphResolveSat_correct (mem : Ptr → Metadata) {candidates roots : List Ptr}
    (hroots : ∀ r ∈ roots, r ∈ candidates) (budget : ℕ) (threadCount : ℤ) (sched : Schedule threadCount) :
    ((∀ p ∈ candidates, Hashable (mem p)) →
      ∃ r, depGraphResolveSat mem candidates roots budget threadCount sched = some r) ∧
    ∀ r, depGraphResolveSat mem candidates roots budget threadCount sched = some r →
      (r.result = .satisfiable → IsSelection mem candidates roots {p | p ∈ r.selected}) ∧
      (r.result = .unsatisfiable → ¬∃ S, IsSelection mem candidates roots S) :=
  ⟨fun h => depGraphResolveSat_isSome h hroots budget threadCount sched, fun _ hr => depGraphResolveSat_spec hroots hr⟩

/-- Two threads, a candidate that depends on an alias of the other one. -/
theorem depGraphResolveSat_correct_pair :
    ∃ mem : Ptr → Metadata, ∃ sched : Schedule 2, ∃ r, depGraphResolveSat mem [1, 2] [1] 10 2 sched = some r ∧
      r.result = .satisfiable ∧ r.selected = [1, 2] ∧ IsSelection mem [1, 2] [1] {p | p ∈ r.selected} := by
  let mem : Ptr → Metadata := fun p =>
    if p = 1 then { name := some (cstr "app"), dependencies := [⟨some (cstr "ssl"), .any, none⟩] }
    else { name := some (cstr "libssl"), provides := [some (cstr "ssl")] }
  let sched : Schedule 2 := ⟨[1, 0], fun _ _ => true, by decide⟩
  have hrun : (depGraphResolveSat mem [1, 2] [1] 10 2 sched).map (fun r => (r.result, r.selected)) =
      some (.satisfiable, [1, 2]) := by decide
  obtain ⟨r, hr, hout⟩ := Option.map_eq_some_iff.1 hrun
  rw [Prod.mk.injEq] at hout
  exact ⟨mem, sched, r, hr, hout.1, hout.2,
    ((depGraphResolveSat_correct mem (by simp) 10 2 sched).2 r hr).1 hout.1⟩

/-! ## The needed part of a selection -/

/-- `q` meets a dependency of `p`. -/
def NeededBy (mem : Ptr → Metadata) (p q : Ptr) : Prop :=
  ∃ dep ∈ (mem p).dependencies, ∃ n, dep.name = some n ∧ AnswersTo mem q n ∧ Accepted mem dep q

/-- The members of a set that the roots need, through members of the set. -/
def neededPart (mem : Ptr → Metadata) (roots : List Ptr) (S : Set Ptr) : Set Ptr :=
  {p | ∃ r ∈ roots, ReflTransGen (fun p q => q ∈ S ∧ NeededBy mem p q) r p}

theorem neededPart_subset (h : IsSelection mem candidates roots S) : neededPart mem roots S ⊆ S := by
  rintro p ⟨r, hr, hreach⟩
  rcases hreach.cases_tail with rfl | ⟨q, -, hp, -⟩
  · exact h.roots p hr
  · exact hp

/-- What the roots need of a selection is a selection of its own. -/
theorem neededPart_isSelection (h : IsSelection mem candidates roots S) :
    IsSelection mem candidates roots (neededPart mem roots S) := by
  have hsub := neededPart_subset h
  refine ⟨fun p hp => h.candidates p (hsub hp), fun r hr => ⟨r, hr, ReflTransGen.refl⟩, ?_, ?_⟩
  · intro p hp dep hdep
    obtain ⟨n, q, hn, hq, hans, hacc⟩ := h.deps p (hsub hp) dep hdep
    obtain ⟨r, hr, hreach⟩ := hp
    exact ⟨n, q, hn, ⟨r, hr, hreach.tail ⟨hq, dep, hdep, n, hn, hans, hacc⟩⟩, hans, hacc⟩
  · intro p hp q hq
    exact h.conflicts p (hsub hp) q (hsub hq)

/-- Whoever is there and is no root is needed by another one. -/
theorem neededPart_needed {p : Ptr} (hp : p ∈ neededPart mem roots S) :
    p ∈ roots ∨ ∃ q ∈ neededPart mem roots S, q ≠ p ∧ NeededBy mem q p := by
  obtain ⟨r, hr, hreach⟩ := hp
  -- the last step of the way that comes from somewhere else
  induction hreach with
  | refl => exact Or.inl hr
  | @tail q p hrq hstep ih =>
    by_cases hqp : q = p
    · rw [← hqp]; exact ih
    · exact Or.inr ⟨q, ⟨r, hr, hrq⟩, hqp, hstep.2⟩

/-- **What a selection promises of names and needs.** Of two selected candidates of
the same name neither lists the name among its conflicts. The part of the
selection that the roots need is a selection itself, and each of its members is a
root or meets a dependency of another member. -/
theorem depGraphResolveSat_neededPart (hroots : ∀ r ∈ roots, r ∈ candidates) {budget : ℕ} {threadCount : ℤ}
    {sched : Schedule threadCount} {out : SelectOut}
    (h : depGraphResolveSat mem candidates roots budget threadCount sched = some out)
    (hsat : out.result = .satisfiable) :
    (∀ p ∈ out.selected, ∀ q ∈ out.selected, p ≠ q → ∀ n, (mem p).name = some n → (mem q).name = some n →
      some n ∉ (mem p).conflicts) ∧
    neededPart mem roots {p | p ∈ out.selected} ⊆ {p | p ∈ out.selected} ∧
    IsSelection mem candidates roots (neededPart mem roots {p | p ∈ out.selected}) ∧
    ∀ p ∈ neededPart mem roots {p | p ∈ out.selected}, p ∈ roots ∨
      ∃ q ∈ neededPart mem roots {p | p ∈ out.selected}, q ≠ p ∧ NeededBy mem q p := by
  have hsel := (depGraphResolveSat_spec hroots h).1 hsat
  refine ⟨?_, neededPart_subset hsel, neededPart_isSelection hsel, fun p hp => neededPart_needed hp⟩
  intro p hp q hq hne n _ hqn hconf
  exact hsel.conflicts p hp q hq (fun e => hne e.symm) n hconf (Or.inl hqn)

/-- A root and the package it needs. -/
theorem depGraphResolveSat_neededPart_pair :
    ∃ mem : Ptr → Metadata, ∃ sched : Schedule 1, ∃ out, depGraphResolveSat mem [1, 2] [1] 10 1 sched = some out ∧
      out.result = .satisfiable ∧ 2 ∈ neededPart mem [1] {p | p ∈ out.selected} ∧
      IsSelection mem [1, 2] [1] (neededPart mem [1] {p | p ∈ out.selected}) := by
  let mem : Ptr → Metadata := fun p =>
    if p = 1 then { name := some (cstr "app"), dependencies := [⟨some (cstr "ssl"), .any, none⟩] }
    else { name := some (cstr "libssl"), provides := [some (cstr "ssl")] }
  let sched : Schedule 1 := ⟨[0], fun _ _ => true, by decide⟩
  have hrun : (depGraphResolveSat mem [1, 2] [1] 10 1 sched).map (fun r => (r.result, r.selected)) =
      some (.satisfiable, [1, 2]) := by decide
  obtain ⟨out, hout, hval⟩ := Option.map_eq_some_iff.1 hrun
  rw [Prod.mk.injEq] at hval
  obtain ⟨-, -, hpart, -⟩ := depGraphResolveSat_neededPart (by simp) hout hval.1
  refine ⟨mem, sched, out, hout, hval.1, ?_, hpart⟩
  have hanswers : AnswersTo mem 2 (cstr "ssl") := Or.inr (by decide)
  have haccepted : Accepted mem ⟨some (cstr "ssl"), .any, none⟩ 2 := by unfold Accepted; decide
  have hsel : (2 : Ptr) ∈ out.selected := by rw [hval.2]; decide
  exact ⟨1, by simp, ReflTransGen.single ⟨hsel, _, by decide, cstr "ssl", rfl, hanswers, haccepted⟩⟩

/-- **Two versions of one package are selected, and one of them is not needed**: no
clause keeps candidates of one name apart, and a candidate nobody asks for is tried
with `true` first. -/
theorem depGraphResolveSat_neededPart_versions :
    ∃ mem : Ptr → Metadata, ∃ sched : Schedule 1, ∃ out, depGraphResolveSat mem [1, 2] [1] 10 1 sched = some out ∧
      out.result = .satisfiable ∧ out.selected = [1, 2] ∧ (mem 1).name = some (cstr "lib") ∧
      (mem 2).name = some (cstr "lib") ∧ ∀ q ∈ out.selected, ¬NeededBy mem q 2 := by
  let mem : Ptr → Metadata := fun p =>
    { name := some (cstr "lib"), version := some (if p = 1 then cstr "1.0.0" else cstr "2.0.0") }
  let sched : Schedule 1 := ⟨[0], fun _ _ => true, by decide⟩
  have hrun : (depGraphResolveSat mem [1, 2] [1] 10 1 sched).map (fun r => (r.result, r.selected)) =
      some (.satisfiable, [1, 2]) := by decide
  obtain ⟨out, hout, hval⟩ := Option.map_eq_some_iff.1 hrun
  rw [Prod.mk.injEq] at hval
  refine ⟨mem, sched, out, hout, hval.1, hval.2, rfl, rfl, ?_⟩
  rintro q - ⟨dep, hdep, -⟩
  exact absurd hdep (by simp [mem])

end Apg
