import Apg.Proof.ResolveSat

/-!
# Packages and their variables

What any sequence of calls on a new model makes of its variables. `VarRun` keeps the log
of the `sat_model_var` calls that were made, by whomever: each with the package asked for
and the variable returned. `ModelCall.uses` says of the calls alone for which packages
they ask, and in which order.

* `modelAfter_numbered`: **packages and variables are in bijection**, in the order of first use.
-/

namespace Apg

variable {mem : Ptr → Metadata} {m m' m'' : SatModel} {log log' : List (Ptr × ℕ)}

/-! ## Sequences of calls -/

/-- A call of the interface. -/
inductive ModelCall
  | var (pkg : Ptr)
  | force (pkg : Ptr)
  | build (cs : CandidateSet) (pkgs : List Ptr)

def ModelCall.run (mem : Ptr → Metadata) (m : SatModel) : ModelCall → Option SatModel
  | .var pkg => some (satModelVar m pkg).1
  | .force pkg => some (satModelForce m pkg)
  | .build cs pkgs => satModelBuild mem cs pkgs m

/-- The model after a sequence of calls on a new one, unless a dependency's name is `NULL`. -/
def modelAfter (mem : Ptr → Metadata) (calls : List ModelCall) : Option SatModel :=
  calls.foldlM (ModelCall.run mem) satModelInit

/-- The candidates of a dependency that a clause names. -/
def depUses (mem : Ptr → Metadata) (cs : CandidateSet) (dep : DepConstraint) : List Ptr :=
  dep.name.elim [] fun name => (groupItems (candidateSetLookup cs name)).filter fun q =>
    dep.op = .any ∨ verSatisfies (mem q).version dep.op dep.version = true

/-- The candidates that a conflict keeps out. -/
def conflictUses (cs : CandidateSet) (pkg : Ptr) (name : Option CStr) : List Ptr :=
  name.elim [] fun name => (groupItems (candidateSetLookup cs name)).filter fun q => q ≠ pkg

/-- The packages whose variables the clauses of a package ask for, one after the other. -/
def pkgUses (mem : Ptr → Metadata) (cs : CandidateSet) (pkg : Ptr) : List Ptr :=
  (pkg :: (mem pkg).dependencies.flatMap (depUses mem cs)) ++
    (pkg :: (mem pkg).conflicts.flatMap (conflictUses cs pkg))

def ModelCall.uses (mem : Ptr → Metadata) : ModelCall → List Ptr
  | .var pkg => [pkg]
  | .force pkg => [pkg]
  | .build cs pkgs => pkgs.flatMap (pkgUses mem cs)

/-- No dependency of a package to build has a `NULL` name. -/
def ModelCall.Named (mem : Ptr → Metadata) : ModelCall → Prop
  | .var _ => True
  | .force _ => True
  | .build _ pkgs => ∀ p ∈ pkgs, ∀ dep ∈ (mem p).dependencies, dep.name ≠ none

/-! ## The log of a run -/

/-- From `m` the model becomes `m'` by calls of `sat_model_var`, which the log keeps, and
by new clauses, of which the conflicts have two literals. -/
inductive VarRun (m : SatModel) : List (Ptr × ℕ) → SatModel → Prop
  | nil : VarRun m [] m
  | var {log : List (Ptr × ℕ)} {m' : SatModel} (pkg : Ptr) :
      VarRun m log m' → VarRun m (log ++ [(pkg, (satModelVar m' pkg).2)]) (satModelVar m' pkg).1
  | clause {log : List (Ptr × ℕ)} {m' : SatModel} {lits : List ℤ} (kind : SatClauseKind) (depName : Option CStr) :
      VarRun m log m' → lits ≠ [] → LitsIn m' lits → (kind = .conflict → lits.length = 2) →
      VarRun m log (addClause m' lits kind depName)

theorem VarRun.trans (h : VarRun m log m') (h' : VarRun m' log' m'') : VarRun m (log ++ log') m'' := by
  induction h' with
  | nil => rwa [List.append_nil]
  | var pkg _ ih => rw [← List.append_assoc]; exact .var pkg ih
  | clause kind depName _ hne hin hpair ih => exact .clause kind depName ih hne hin hpair

theorem VarRun.one (m : SatModel) (pkg : Ptr) : VarRun m [(pkg, (satModelVar m pkg).2)] (satModelVar m pkg).1 :=
  .var pkg .nil

theorem VarRun.ok (h : VarRun m log m') (hm : ModelOK m) : ModelOK m' := by
  induction h with
  | nil => exact hm
  | var pkg _ ih => exact (satModelVar_spec ih pkg).1
  | clause kind depName _ hne hin _ ih => exact (addClause_adds (Q := fun _ => True) ih hne hin kind depName).ok

theorem VarRun.vars_prefix (h : VarRun m log m') (hm : ModelOK m) : m.vars <+: m'.vars := by
  induction h with
  | nil => exact List.prefix_rfl
  | var pkg h ih => exact ih.trans (satModelVar_spec (h.ok hm) pkg).2.2.1
  | clause kind depName _ _ _ _ ih => exact ih

/-- A variable that was returned is the variable of its package from then on. -/
theorem VarRun.isVar (h : VarRun m log m') (hm : ModelOK m) : ∀ x ∈ log, IsVar m' x.1 x.2 := by
  induction h with
  | nil => simp
  | var pkg h ih =>
    obtain ⟨-, hvar, hpre, -, -⟩ := satModelVar_spec (h.ok hm) pkg
    intro x hx
    rcases List.mem_append.1 hx with hx | hx
    · exact (ih x hx).mono hpre
    · rw [List.mem_singleton.1 hx]; exact hvar
  | clause kind depName _ _ _ _ ih => exact ih

/-- A conflict has two literals. -/
def SatModel.Pairs (m : SatModel) : Prop := ∀ c ∈ m.clauses, c.kind = .conflict → c.lits.length = 2

theorem VarRun.pairs (h : VarRun m log m') (hm : ModelOK m) (hp : m.Pairs) : m'.Pairs := by
  induction h with
  | nil => exact hp
  | var pkg h ih => unfold SatModel.Pairs; rw [(satModelVar_spec (h.ok hm) pkg).2.2.2.1]; exact ih
  | clause kind depName _ _ _ hpair ih =>
    intro c hc
    rcases List.mem_append.1 hc with hc | hc
    · exact ih c hc
    · rw [List.mem_singleton.1 hc]; exact hpair

/-- A package without a variable gets the next one. -/
theorem satModelVar_vars (hm : ModelOK m) (p : Ptr) :
    (satModelVar m p).1.vars = if p ∈ m.vars then m.vars else m.vars ++ [p] := by
  have hindex : (∃ v, varIndexGet m p = some v) ↔ p ∈ m.vars := by
    rw [List.mem_iff_getElem?]
    constructor
    · rintro ⟨v, hv⟩; exact ⟨_, ((hm.index p v).1 hv).2⟩
    · rintro ⟨i, hi⟩; exact ⟨i + 1, (hm.index p (i + 1)).2 ⟨by omega, hi⟩⟩
  unfold satModelVar
  cases hget : varIndexGet m p with
  | some v => simp only; rw [if_pos (hindex.1 ⟨v, hget⟩)]
  | none =>
    have hnone : p ∉ m.vars := by rw [← hindex, hget]; simp
    simp only
    rw [if_neg hnone]

/-- The packages with a variable are those asked for, in the order of the first times. -/
theorem VarRun.vars (h : VarRun m log m') (hm : ModelOK m) (hvars : m.vars = []) :
    m'.vars = (log.map Prod.fst).eraseDups := by
  induction h with
  | nil => simpa using hvars
  | var pkg h ih =>
    rw [satModelVar_vars (h.ok hm), ih, List.map_append, List.map_singleton, eraseDups_concat]
    simp only [List.mem_eraseDups]
  | clause kind depName _ _ _ _ ih => exact ih

/-! ## What the calls ask for -/

/-- There is a run from `m` to `m'` in which just these packages are asked for. -/
def Asks (m m' : SatModel) (pkgs : List Ptr) : Prop := ∃ log, VarRun m log m' ∧ log.map Prod.fst = pkgs

theorem Asks.refl (m : SatModel) : Asks m m [] := ⟨[], .nil, rfl⟩

theorem Asks.one (m : SatModel) (pkg : Ptr) : Asks m (satModelVar m pkg).1 [pkg] := ⟨_, .one m pkg, rfl⟩

theorem Asks.trans {ps qs : List Ptr} (h : Asks m m' ps) (h' : Asks m' m'' qs) : Asks m m'' (ps ++ qs) := by
  obtain ⟨log, hrun, rfl⟩ := h
  obtain ⟨log', hrun', rfl⟩ := h'
  exact ⟨log ++ log', hrun.trans hrun', List.map_append⟩

theorem Asks.ok {ps : List Ptr} (h : Asks m m' ps) (hm : ModelOK m) : ModelOK m' := by
  obtain ⟨log, hrun, -⟩ := h
  exact hrun.ok hm

theorem Asks.vars_prefix {ps : List Ptr} (h : Asks m m' ps) (hm : ModelOK m) : m.vars <+: m'.vars := by
  obtain ⟨log, hrun, -⟩ := h
  exact hrun.vars_prefix hm

theorem Asks.clause {ps : List Ptr} (h : Asks m m' ps) {lits : List ℤ} (hne : lits ≠ []) (hin : LitsIn m' lits)
    (kind : SatClauseKind) (hpair : kind = .conflict → lits.length = 2) (depName : Option CStr) :
    Asks m (addClause m' lits kind depName) ps := by
  obtain ⟨log, hrun, hlog⟩ := h
  exact ⟨log, .clause kind depName hrun hne hin hpair, hlog⟩

theorem candLits_asks (mem : Ptr → Metadata) (dep : DepConstraint) : ∀ (items : List Ptr) (m : SatModel) (lits : List ℤ),
    Asks m (candLits mem dep items (m, lits)).1
      (items.filter fun q => dep.op = .any ∨ verSatisfies (mem q).version dep.op dep.version = true) := by
  intro items
  induction items with
  | nil => intro m lits; exact Asks.refl m
  | cons cand items ih =>
    intro m lits
    simp only [candLits]
    split
    · rename_i hskip
      rw [List.filter_cons_of_neg (by simpa [hskip.2] using hskip.1)]
      exact ih m lits
    · rename_i hkeep
      have hacc : dep.op = .any ∨ verSatisfies (mem cand).version dep.op dep.version = true := by
        by_cases hop : dep.op = .any
        · exact Or.inl hop
        · exact Or.inr (by simpa [hop] using hkeep)
      rw [List.filter_cons_of_pos (by simpa using hacc)]
      exact (Asks.one m cand).trans (ih _ _)

theorem candLits_litsIn (mem : Ptr → Metadata) (dep : DepConstraint) (items : List Ptr) (hm : ModelOK m)
    {lits : List ℤ} (hin : LitsIn m lits) (hne : lits ≠ []) :
    LitsIn (candLits mem dep items (m, lits)).1 (candLits mem dep items (m, lits)).2 ∧
      (candLits mem dep items (m, lits)).2 ≠ [] := by
  obtain ⟨-, h1, h2, -⟩ := candLits_spec (Q := fun _ => True) dep items m lits (fun _ _ => trivial) hm hin hne
  exact ⟨h1, h2⟩

theorem addDependencyLoop_asks {cs : CandidateSet} {p : Ptr} {v : ℕ} : ∀ (deps : List DepConstraint)
    {m m' : SatModel}, ModelOK m → IsVar m p v → addDependencyLoop mem cs v deps m = some m' →
    Asks m m' (deps.flatMap (depUses mem cs)) := by
  intro deps
  induction deps with
  | nil =>
    intro m m' _ _ h
    obtain rfl : m = m' := Option.some.inj h
    exact Asks.refl m
  | cons dep deps ih =>
    intro m m' hm hv h
    simp only [addDependencyLoop] at h
    cases hname : dep.name with
    | none => simp [hname] at h
    | some name =>
      simp only [hname] at h
      have hasks := candLits_asks mem dep (groupItems (candidateSetLookup cs name)) m [-(v : ℤ)]
      obtain ⟨hin, hne⟩ := candLits_litsIn mem dep (groupItems (candidateSetLookup cs name)) hm
        (isVar_litsIn hv).2 (by simp)
      have hclause := hasks.clause hne hin .dependency (by simp) (some name)
      have hrest := ih (hclause.ok hm) (hv.mono (hclause.vars_prefix hm)) h
      rw [List.flatMap_cons]
      have huses : depUses mem cs dep = (groupItems (candidateSetLookup cs name)).filter fun q =>
          dep.op = .any ∨ verSatisfies (mem q).version dep.op dep.version = true := by
        unfold depUses; rw [hname]; rfl
      rw [huses]
      exact hclause.trans hrest

theorem conflictLoop_asks {p : Ptr} {v : ℕ} : ∀ (items : List Ptr) {m : SatModel}, ModelOK m → IsVar m p v →
    Asks m (conflictLoop p v items m) (items.filter fun q => q ≠ p) := by
  intro items
  induction items with
  | nil => intro m _ _; exact Asks.refl m
  | cons other items ih =>
    intro m hm hv
    simp only [conflictLoop]
    split
    · rename_i heq
      rw [List.filter_cons_of_neg (by simpa using heq)]
      exact ih hm hv
    · rename_i hne
      rw [List.filter_cons_of_pos (by simpa using hne)]
      obtain ⟨-, hvar, hpre, -, -⟩ := satModelVar_spec hm other
      have hv₁ := hv.mono hpre
      have hin : LitsIn (satModelVar m other).1 [-(v : ℤ), -((satModelVar m other).2 : ℤ)] := by
        intro l hl
        rcases List.mem_cons.1 hl with rfl | hl
        · exact (isVar_litsIn hv₁).2 _ (by simp)
        · exact (isVar_litsIn hvar).2 l hl
      have hclause := (Asks.one m other).clause (by simp) hin .conflict (fun _ => rfl) none
      exact hclause.trans (ih (hclause.ok hm) (hv.mono (hclause.vars_prefix hm)))

theorem addConflictLoop_asks (cs : CandidateSet) {p : Ptr} {v : ℕ} : ∀ (names : List (Option CStr)) {m : SatModel},
    ModelOK m → IsVar m p v → Asks m (addConflictLoop cs p v names m) (names.flatMap (conflictUses cs p)) := by
  intro names
  induction names with
  | nil => intro m _ _; exact Asks.refl m
  | cons o names ih =>
    intro m hm hv
    cases o with
    | none => exact ih hm hv
    | some name =>
      have hgroup := conflictLoop_asks (groupItems (candidateSetLookup cs name)) hm hv
      rw [List.flatMap_cons]
      exact hgroup.trans (ih (hgroup.ok hm) (hv.mono (hgroup.vars_prefix hm)))

/-- **What the clauses of the candidates ask for.** -/
theorem satModelBuild_asks {cs : CandidateSet} : ∀ (pkgs : List Ptr) {m m' : SatModel}, ModelOK m →
    satModelBuild mem cs pkgs m = some m' → Asks m m' (pkgs.flatMap (pkgUses mem cs)) := by
  intro pkgs
  induction pkgs with
  | nil =>
    intro m m' _ h
    obtain rfl : m = m' := Option.some.inj h
    exact Asks.refl m
  | cons p pkgs ih =>
    intro m m' hm h
    simp only [satModelBuild] at h
    split at h
    · cases h
    · rename_i m₁ hdeps
      have hpkg := Asks.one m p
      have h1 := hpkg.trans (addDependencyLoop_asks _ (hpkg.ok hm) (satModelVar_spec hm p).2.1 hdeps)
      have hm₁ := h1.ok hm
      have hagain := Asks.one m₁ p
      have h2 := hagain.trans (addConflictLoop_asks cs (mem p).conflicts (hagain.ok hm₁)
        (satModelVar_spec hm₁ p).2.1)
      rw [List.flatMap_cons]
      exact (h1.trans h2).trans (ih (h2.ok hm₁) h)

theorem satModelForce_asks (hm : ModelOK m) (p : Ptr) : Asks m (satModelForce m p) [p] :=
  (Asks.one m p).clause (by simp) (isVar_litsIn (satModelVar_spec hm p).2.1).1 .forced (by simp) none

theorem ModelCall.run_asks (hm : ModelOK m) {call : ModelCall} (h : call.run mem m = some m') :
    Asks m m' (call.uses mem) := by
  cases call with
  | var pkg =>
    obtain rfl := Option.some.inj h
    exact Asks.one m pkg
  | force pkg =>
    obtain rfl := Option.some.inj h
    exact satModelForce_asks hm pkg
  | build cs pkgs => exact satModelBuild_asks pkgs hm h

/-- A built model comes from a new one by a run. -/
theorem satBuilt_asks (h : SatBuilt mem m) : ∃ pkgs, Asks satModelInit m pkgs := by
  induction h with
  | init => exact ⟨[], Asks.refl _⟩
  | var p _ ih =>
    obtain ⟨pkgs, hasks⟩ := ih
    exact ⟨_, hasks.trans (Asks.one _ p)⟩
  | force p _ ih =>
    obtain ⟨pkgs, hasks⟩ := ih
    exact ⟨_, hasks.trans (satModelForce_asks (hasks.ok satModelInit_ok) p)⟩
  | build cs pkgs _ hbuild ih =>
    obtain ⟨pkgs', hasks⟩ := ih
    exact ⟨_, hasks.trans (satModelBuild_asks pkgs (hasks.ok satModelInit_ok) hbuild)⟩

theorem satBuilt_pairs (h : SatBuilt mem m) : m.Pairs := by
  obtain ⟨pkgs, log, hrun, -⟩ := satBuilt_asks h
  exact hrun.pairs satModelInit_ok (by simp [SatModel.Pairs, satModelInit])

theorem runCalls_asks : ∀ (calls : List ModelCall) {m m' : SatModel}, ModelOK m →
    calls.foldlM (ModelCall.run mem) m = some m' → Asks m m' (calls.flatMap (ModelCall.uses mem)) := by
  intro calls
  induction calls with
  | nil =>
    intro m m' _ h
    obtain rfl : m = m' := Option.some.inj h
    exact Asks.refl m
  | cons call calls ih =>
    intro m m' hm h
    obtain ⟨m₁, hcall, hrest⟩ := Option.bind_eq_some_iff.1 h
    have hstep := ModelCall.run_asks hm hcall
    rw [List.flatMap_cons]
    exact hstep.trans (ih (hstep.ok hm) hrest)

/-! ## Runs that end -/

theorem runCalls_isSome : ∀ (calls : List ModelCall) (m : SatModel),
    (calls.foldlM (ModelCall.run mem) m).isSome ↔ ∀ call ∈ calls, call.Named mem := by
  intro calls
  induction calls with
  | nil => intro m; simp
  | cons call calls ih =>
    intro m
    rw [List.forall_mem_cons]
    have hcall : (call.run mem m).isSome ↔ call.Named mem := by
      cases call with
      | var pkg => simp [ModelCall.run, ModelCall.Named]
      | force pkg => simp [ModelCall.run, ModelCall.Named]
      | build cs pkgs => exact satModelBuild_isSome pkgs m
    rw [← hcall, List.foldlM_cons]
    cases call.run mem m with
    | none => simp
    | some m₁ => simp [ih]

/-! ## The numbering -/

/-- **The numbering of the packages that were asked for.** -/
structure Numbered (m : SatModel) (log : List (Ptr × ℕ)) : Prop where
  /-- the variables go by first use -/
  order : m.vars = (log.map Prod.fst).eraseDups
  range : ∀ x ∈ log, 1 ≤ x.2 ∧ x.2 ≤ m.varCount
  pkg : ∀ x ∈ log, m.vars[x.2 - 1]? = some x.1
  /-- one variable for each package, one package for each variable -/
  same : ∀ x ∈ log, ∀ y ∈ log, x.1 = y.1 ↔ x.2 = y.2
  onto : ∀ v, 1 ≤ v → v ≤ m.varCount → ∃ x ∈ log, x.2 = v

theorem VarRun.numbered (h : VarRun satModelInit log m) : Numbered m log := by
  have hm := h.ok satModelInit_ok
  have hvar := h.isVar satModelInit_ok
  have hvars := h.vars satModelInit_ok rfl
  refine ⟨hvars, fun x hx => ⟨(hvar x hx).1, (hvar x hx).le⟩, fun x hx => (hvar x hx).2, ?_, ?_⟩
  · intro x hx y hy
    constructor
    · intro hxy
      have hy' := hvar y hy
      rw [← hxy] at hy'
      exact isVar_unique hm (hvar x hx) hy'
    · intro hxy
      have hy' := hvar y hy
      rw [← hxy] at hy'
      exact isVar_pkg_unique (hvar x hx) hy'
  · intro v h1 hv
    obtain ⟨p, hp⟩ := exists_isVar h1 hv
    -- the package of `v` was asked for
    have hmem : p ∈ log.map Prod.fst := by
      have := List.mem_of_getElem? hp.2
      rwa [hvars, List.mem_eraseDups] at this
    obtain ⟨x, hx, rfl⟩ := List.mem_map.1 hmem
    exact ⟨x, hx, isVar_unique hm (hvar x hx) hp⟩

/-- **Packages and variables are in bijection.** For every sequence of calls on a new model
(it ends unless a dependency to encode has a `NULL` name), the calls of `sat_model_var`
made on the way are those the sequence asks for. The variables they returned number the
distinct packages from 1 on, by first use; calls for one package all returned one variable,
however often the index grew between them; and every literal of a clause is one of a
variable of the model. -/
theorem modelAfter_numbered (mem : Ptr → Metadata) (calls : List ModelCall) :
    ((modelAfter mem calls).isSome ↔ ∀ call ∈ calls, call.Named mem) ∧
    ∀ m, modelAfter mem calls = some m →
      (∃ log, VarRun satModelInit log m ∧ log.map Prod.fst = calls.flatMap (ModelCall.uses mem) ∧ Numbered m log) ∧
      ∀ c ∈ m.clauses, ∀ l ∈ c.lits, l ≠ 0 ∧ l.natAbs ≤ m.varCount := by
  refine ⟨runCalls_isSome calls satModelInit, ?_⟩
  intro m h
  obtain ⟨log, hrun, hlog⟩ := runCalls_asks calls satModelInit_ok h
  exact ⟨⟨log, hrun, hlog, hrun.numbered⟩, (hrun.ok satModelInit_ok).inRange⟩

end Apg
