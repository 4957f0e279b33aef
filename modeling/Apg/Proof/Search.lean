import Apg.Lib.Trace
import Apg.Proof.Variables

/-!
# The states of a search

What holds all through a search, and not only of its result. `SearchStep` are the updates
of the search state that the source makes, with what it checked before each of them;
`dpllStates` lists the states a call goes through, one after every update.

* `SearchOK.step`: every update keeps the invariant of the search state.
* `dpll_searched`: a call goes through the states listed, none with less on the trail than
  at its start, and takes everything back when it fails.
* `solveCore_explained`: **the state of the solver stays in bounds, and a failure is explained.**
-/

namespace Apg

variable {m : SatModel} {a : SolveArgs} {ctx ctx' s s' : SolveCtx}

/-! ## Updates -/

/-- The latest variable taken off the trail. -/
def popVar (ctx : SolveCtx) (var : ℕ) (trail : List ℕ) : SolveCtx :=
  { ctx with
    assign := Function.update ctx.assign var 0
    antecedent := Function.update ctx.antecedent var none
    trail := trail }

def recordConflict (m : SatModel) (ctx : SolveCtx) (c : ℕ) (lits : List ℤ) : SolveCtx :=
  { ctx with hasConflict := true, conflictClause := bestClause m ctx c lits }

/-- An update of the search state. -/
inductive SearchStep (a : SolveArgs) : SolveCtx → SolveCtx → Prop
  | abort {ctx : SolveCtx} : cancelled a ctx = true →
      SearchStep a ctx { ctx with aborted := true, polls := ctx.polls + 1 }
  | poll {ctx : SolveCtx} : cancelled a ctx = false → SearchStep a ctx { ctx with polls := ctx.polls + 1 }
  | unit {ctx : SolveCtx} {clause : SatClause} {lit : ℤ} (c : ℕ) : a.model.clauses[c]? = some clause →
      scanClause ctx.assign clause.lits (0, 0) = some (1, lit) → SearchStep a ctx (assignUnit ctx lit c)
  | conflict {ctx : SolveCtx} {clause : SatClause} {lit : ℤ} (c : ℕ) : a.model.clauses[c]? = some clause →
      scanClause ctx.assign clause.lits (0, 0) = some (0, lit) →
      SearchStep a ctx (recordConflict a.model ctx c clause.lits)
  | timeout {ctx : SolveCtx} : a.budget ≤ ctx.decisions → SearchStep a ctx { ctx with timedOut := true }
  | count {ctx : SolveCtx} : ctx.decisions < a.budget → SearchStep a ctx { ctx with decisions := ctx.decisions + 1 }
  | decide {ctx : SolveCtx} {var : ℕ} {val : ℤ} : ctx.assign var = 0 → 1 ≤ var → var ≤ a.model.varCount →
      val = 1 ∨ val = -1 → SearchStep a ctx (decideVar ctx var val)
  | pop {ctx : SolveCtx} {var : ℕ} {trail : List ℕ} : ctx.trail = var :: trail →
      SearchStep a ctx (popVar ctx var trail)

/-- **The invariant of the search state**: an antecedent is a clause that contains the
variable, an open variable has none, and a recorded conflict is a clause. -/
structure SearchOK (m : SatModel) (ctx : SolveCtx) : Prop extends CtxOK m.varCount ctx where
  antecedent : ∀ v c, ctx.antecedent v = some c →
    ∃ clause, m.clauses[c]? = some clause ∧ ∃ l ∈ clause.lits, l.natAbs = v
  openVar : ∀ v, ctx.assign v = 0 → ctx.antecedent v = none
  conflict : ctx.hasConflict = true → ctx.conflictClause < m.clauses.length

theorem initCtx_searchOK : SearchOK m initCtx :=
  ⟨initCtx_ok, by simp [initCtx], by simp [initCtx], by simp [initCtx]⟩

/-- Counters and flags do not matter to the invariant. -/
theorem SearchOK.congr (h : SearchOK m ctx) (ht : ctx'.trail = ctx.trail) (ha : ctx'.assign = ctx.assign)
    (hante : ctx'.antecedent = ctx.antecedent) (hc : ctx'.hasConflict = true → ctx'.conflictClause < m.clauses.length) :
    SearchOK m ctx' :=
  ⟨h.toCtxOK.congr ht ha, by rw [hante]; exact h.antecedent, by rw [hante, ha]; exact h.openVar, hc⟩

theorem CtxOK.pop {n v : ℕ} {trail : List ℕ} (h : CtxOK n ctx) (ht : ctx.trail = v :: trail) :
    CtxOK n (popVar ctx v trail) := by
  have hnodup := h.nodup
  rw [ht] at hnodup
  obtain ⟨hv, htail⟩ := List.nodup_cons.1 hnodup
  refine ⟨?_, ?_, htail, ?_⟩
  · intro w
    simp only [popVar]
    by_cases hw : w = v
    · subst hw; rw [Function.update_self]; exact Or.inl rfl
    · rw [Function.update_of_ne hw]; exact h.vals w
  · intro w
    simp only [popVar]
    by_cases hw : w = v
    · subst hw; rw [Function.update_self]; simp [hv]
    · rw [Function.update_of_ne hw, ← h.trail, ht, List.mem_cons]
      simp [hw]
  · intro w hw
    exact h.range w (by rw [ht]; exact List.mem_cons_of_mem _ hw)

/-- The clause a conflict is blamed on is a clause. -/
theorem SearchOK.bestClause_lt (h : SearchOK m ctx) {c : ℕ} (hc : c < m.clauses.length) (lits : List ℤ) :
    bestClause m ctx c lits < m.clauses.length := by
  unfold bestClause
  cases hfind : lits.findSome? (usefulAntecedent m ctx) with
  | none => exact hc
  | some ante =>
    obtain ⟨lit, -, hlit⟩ := List.exists_of_findSome?_eq_some hfind
    -- the antecedent of one of its literals
    have hante : ctx.antecedent lit.natAbs = some ante := by
      unfold usefulAntecedent at hlit
      cases hval : ctx.antecedent lit.natAbs with
      | none => simp [hval] at hlit
      | some ante' =>
        simp only [hval] at hlit
        split at hlit
        · exact hlit
        · cases hlit
    obtain ⟨clause, hclause, -⟩ := h.antecedent _ _ hante
    exact (List.getElem?_eq_some_iff.1 hclause).1

/-- One variable changes, and its antecedent with it. -/
theorem SearchOK.assigned (h : SearchOK m ctx) (hok : CtxOK m.varCount ctx') {v : ℕ} {x : ℤ} {o : Option ℕ}
    (ha : ctx'.assign = Function.update ctx.assign v x) (hante : ctx'.antecedent = Function.update ctx.antecedent v o)
    (hopen : x = 0 → o = none)
    (ho : ∀ c, o = some c → ∃ clause, m.clauses[c]? = some clause ∧ ∃ l ∈ clause.lits, l.natAbs = v)
    (hc : ctx'.hasConflict = true → ctx'.conflictClause < m.clauses.length) : SearchOK m ctx' := by
  refine ⟨hok, ?_, ?_, hc⟩
  · intro w c hw
    rw [hante] at hw
    by_cases hwv : w = v
    · subst hwv; rw [Function.update_self] at hw; exact ho c hw
    · rw [Function.update_of_ne hwv] at hw; exact h.antecedent w c hw
  · intro w hw
    rw [ha] at hw
    rw [hante]
    by_cases hwv : w = v
    · subst hwv; rw [Function.update_self] at hw ⊢; exact hopen hw
    · rw [Function.update_of_ne hwv] at hw ⊢; exact h.openVar w hw

/-- **Every update keeps the invariant.** -/
theorem SearchOK.step (hm : a.model.InRange) (h : SearchOK a.model s) (hstep : SearchStep a s s') :
    SearchOK a.model s' := by
  cases hstep with
  | abort _ => exact h.congr rfl rfl rfl h.conflict
  | poll _ => exact h.congr rfl rfl rfl h.conflict
  | timeout _ => exact h.congr rfl rfl rfl h.conflict
  | count _ => exact h.congr rfl rfl rfl h.conflict
  | conflict c hclause _ =>
    exact h.congr rfl rfl rfl fun _ => h.bestClause_lt (List.getElem?_eq_some_iff.1 hclause).1 _
  | @unit clause lit c hclause hscan =>
    obtain ⟨hmem, -, -⟩ := scan_one hscan
    have hok := (assignUnit_grows hm h.toCtxOK (List.mem_of_getElem? hclause) hscan c).1
    refine h.assigned hok rfl rfl ?_ ?_ h.conflict
    · intro hx
      split at hx <;> cases hx
    · intro c' hc'
      obtain rfl := Option.some.inj hc'
      exact ⟨clause, hclause, lit, hmem, rfl⟩
  | @decide var val hopen h1 hn hval =>
    -- a decision has no antecedent, as an open variable has none
    have hnone : (decideVar s var val).antecedent = Function.update s.antecedent var none := by
      rw [← h.openVar var hopen, Function.update_eq_self]
      rfl
    exact h.assigned (decideVar_ok h.toCtxOK hopen h1 hn hval) rfl hnone (fun _ => rfl) (by simp) h.conflict
  | @pop var trail ht => exact h.assigned (h.toCtxOK.pop ht) rfl rfl (fun _ => rfl) (by simp) h.conflict

/-! ## What stays below a mark -/

/-- `ctx'` has the trail of `ctx` below its own, and differs only in the variables above. -/
structure Upon (ctx ctx' : SolveCtx) : Prop where
  trail : ∃ new, ctx'.trail = new ++ ctx.trail ∧
    ∀ v, v ∉ new → ctx'.assign v = ctx.assign v ∧ ctx'.antecedent v = ctx.antecedent v

theorem Upon.refl (ctx : SolveCtx) : Upon ctx ctx := ⟨[], rfl, fun _ _ => ⟨rfl, rfl⟩⟩

theorem Upon.above (h : Upon ctx ctx') : Above ctx ctx' := by
  obtain ⟨new, ht, hrest⟩ := h.trail
  exact ⟨new, ht, fun v hv => (hrest v hv).1⟩

theorem Upon.congr (h : Upon ctx s) (ht : s'.trail = s.trail) (ha : s'.assign = s.assign)
    (hante : s'.antecedent = s.antecedent) : Upon ctx s' := by
  obtain ⟨new, htrail, hrest⟩ := h.trail
  exact ⟨new, ht.trans htrail, by rw [ha, hante]; exact hrest⟩

/-- An update of one variable, which is on the trail afterwards. -/
theorem Upon.push (h : Upon ctx s) {v : ℕ} (ht : s'.trail = v :: s.trail)
    (hrest : ∀ w, w ≠ v → s'.assign w = s.assign w ∧ s'.antecedent w = s.antecedent w) : Upon ctx s' := by
  obtain ⟨new, htrail, hnew⟩ := h.trail
  refine ⟨v :: new, by rw [ht, htrail, List.cons_append], ?_⟩
  intro w hw
  rw [List.mem_cons, not_or] at hw
  obtain ⟨h1, h2⟩ := hrest w hw.1
  obtain ⟨h3, h4⟩ := hnew w hw.2
  exact ⟨h1.trans h3, h2.trans h4⟩

/-- What is taken off above the mark was open below it. -/
theorem Upon.pop (h₀ : SearchOK m ctx) (h : SearchOK m s) (hu : Upon ctx s) {v : ℕ} {trail : List ℕ}
    (ht : s.trail = v :: trail) (hlen : ctx.trail.length ≤ trail.length) : Upon ctx (popVar s v trail) := by
  obtain ⟨new, htrail, hnew⟩ := hu.trail
  have hsplit : v :: trail = new ++ ctx.trail := ht.symm.trans htrail
  cases new with
  | nil =>
    have := congrArg List.length hsplit
    simp only [List.nil_append, List.length_cons] at this
    omega
  | cons w new =>
    simp only [List.cons_append, List.cons.injEq] at hsplit
    obtain ⟨rfl, rfl⟩ := hsplit
    have hnodup := h.nodup
    rw [ht] at hnodup
    have hv : ctx.assign v = 0 := by
      have hnot : v ∉ ctx.trail := fun hv => (List.nodup_cons.1 hnodup).1 (List.mem_append_right _ hv)
      rwa [h₀.trail, not_not] at hnot
    refine ⟨new, rfl, ?_⟩
    intro w hw
    simp only [popVar]
    by_cases hwv : w = v
    · subst hwv
      rw [Function.update_self, Function.update_self]
      exact ⟨hv.symm, (h₀.openVar w hv).symm⟩
    · rw [Function.update_of_ne hwv, Function.update_of_ne hwv]
      exact hnew w (by simp [hw, hwv])

theorem Upon.step (h₀ : SearchOK a.model ctx) (h : SearchOK a.model s) (hu : Upon ctx s) (hstep : SearchStep a s s')
    (hlen : ctx.trail.length ≤ s'.trail.length) : Upon ctx s' := by
  cases hstep with
  | abort _ => exact hu.congr rfl rfl rfl
  | poll _ => exact hu.congr rfl rfl rfl
  | timeout _ => exact hu.congr rfl rfl rfl
  | count _ => exact hu.congr rfl rfl rfl
  | conflict _ _ _ => exact hu.congr rfl rfl rfl
  | unit c _ _ =>
    exact hu.push rfl fun w hw => ⟨Function.update_of_ne hw _ _, Function.update_of_ne hw _ _⟩
  | decide _ _ _ _ =>
    exact hu.push rfl fun w hw => ⟨Function.update_of_ne hw _ _, rfl⟩
  | pop ht => exact hu.pop h₀ h ht hlen

/-- An update that leaves at least `mark` variables on the trail. -/
def StepOver (a : SolveArgs) (mark : ℕ) (s s' : SolveCtx) : Prop := SearchStep a s s' ∧ mark ≤ s'.trail.length

/-- **All along a trace above the mark of `ctx`** the invariant holds, and nothing below
the mark has changed. -/
theorem trace_upon (hm : a.model.InRange) (h₀ : SearchOK a.model ctx) (h : SearchOK a.model s) (hu : Upon ctx s)
    {states : List SolveCtx} (htrace : Trace (StepOver a ctx.trail.length) s states s') :
    (∀ t ∈ states, SearchOK a.model t ∧ Upon ctx t) ∧ SearchOK a.model s' ∧ Upon ctx s' :=
  htrace.keeps (I := fun t => SearchOK a.model t ∧ Upon ctx t)
    (fun _ _ ht hstep => ⟨ht.1.step hm hstep.1, ht.2.step h₀ ht.1 hstep.1 hstep.2⟩) ⟨h, hu⟩

/-! ## The states of a call -/

/-- The states of one pass over the clauses. -/
def passStates (m : SatModel) : ℕ → List SatClause → SolveCtx → List SolveCtx
  | _, [], _ => []
  | c, clause :: rest, ctx =>
    match scanClause ctx.assign clause.lits (0, 0) with
    | none => passStates m (c + 1) rest ctx
    | some (0, _) => [recordConflict m ctx c clause.lits]
    | some (1, lit) => assignUnit ctx lit c :: passStates m (c + 1) rest (assignUnit ctx lit c)
    | some _ => passStates m (c + 1) rest ctx

def propagateStates (m : SatModel) : ℕ → SolveCtx → List SolveCtx
  | 0, _ => []
  | n + 1, ctx =>
    passStates m 0 m.clauses ctx ++
      match propagatePass m 0 m.clauses (false, ctx) with
      | .ok (true, ctx) => propagateStates m n ctx
      | _ => []

def undoStates (mark : ℕ) : List ℕ → SolveCtx → List SolveCtx
  | [], _ => []
  | var :: trail, ctx =>
    if trail.length + 1 > mark then popVar ctx var trail :: undoStates mark trail (popVar ctx var trail) else []

/-- One value of a variable, which is taken back if the search below it fails. -/
def tryStates (search : SolveCtx → Option (Bool × SolveCtx)) (states : SolveCtx → List SolveCtx) (mark chosen : ℕ)
    (val : ℤ) (ctx : SolveCtx) : List SolveCtx :=
  decideVar ctx chosen val :: (states (decideVar ctx chosen val) ++
    match search (decideVar ctx chosen val) with
    | some (false, ctx) => undoStates mark ctx.trail ctx
    | _ => [])

def tryBothStates (search : SolveCtx → Option (Bool × SolveCtx)) (states : SolveCtx → List SolveCtx) (mark chosen : ℕ)
    (firstVal : ℤ) (ctx : SolveCtx) : List SolveCtx :=
  tryStates search states mark chosen firstVal ctx ++
    match search (decideVar ctx chosen firstVal) with
    | some (false, ctx) =>
      if (undoTo mark ctx).timedOut || (undoTo mark ctx).aborted then []
      else tryStates search states mark chosen (-firstVal) (undoTo mark ctx)
    | _ => []

/-- **The states of a call of `dpll`**, one after every update. -/
def dpllStates (a : SolveArgs) : ℕ → SolveCtx → List SolveCtx
  | 0, _ => []
  | n + 1, ctx =>
    if cancelled a ctx then [{ ctx with aborted := true, polls := ctx.polls + 1 }]
    else
      let mark := ctx.trail.length
      let ctx := { ctx with polls := ctx.polls + 1 }
      ctx :: (propagateStates a.model (a.model.varCount + 1) ctx ++
        match propagate a.model (a.model.varCount + 1) ctx with
        | none => []
        | some (false, ctx) => undoStates mark ctx.trail ctx
        | some (true, ctx) =>
          match pickVar a ctx with
          | none => []
          | some chosen =>
            if ctx.decisions ≥ a.budget then
              { ctx with timedOut := true } :: undoStates mark ctx.trail { ctx with timedOut := true }
            else
              let ctx := { ctx with decisions := ctx.decisions + 1 }
              ctx :: tryBothStates (dpll a n) (dpllStates a n) mark chosen (if a.preferFalse then -1 else 1) ctx)

/-! ## The listing is the run -/

/-- The state a pass ends in. -/
def passEnd : Except SolveCtx (Bool × SolveCtx) → SolveCtx
  | .error ctx => ctx
  | .ok (_, ctx) => ctx

theorem passStates_trace {mark : ℕ} : ∀ (rest : List SatClause) (c : ℕ) (changed : Bool) (ctx : SolveCtx),
    a.model.clauses.drop c = rest → mark ≤ ctx.trail.length →
    Trace (StepOver a mark) ctx (passStates a.model c rest ctx) (passEnd (propagatePass a.model c rest (changed, ctx))) := by
  intro rest
  induction rest with
  | nil => intro c changed ctx _ _; exact .nil ctx
  | cons clause rest ih =>
    intro c changed ctx hdrop hmark
    have hclause : a.model.clauses[c]? = some clause := by
      rw [← List.head?_drop, hdrop]; rfl
    have hrest : a.model.clauses.drop (c + 1) = rest := by
      rw [← List.tail_drop, hdrop]; rfl
    unfold passStates propagatePass
    -- satisfied; no literal open, one, or more
    rcases hscan : scanClause ctx.assign clause.lits (0, 0) with _ | ⟨_ | _ | k, lit⟩
    · exact ih (c + 1) changed ctx hrest hmark
    · exact .one ⟨.conflict c hclause hscan, hmark⟩
    · have hlen : mark ≤ (assignUnit ctx lit c).trail.length := by
        simp only [assignUnit, List.length_cons]; omega
      exact .cons ⟨.unit c hclause hscan, hlen⟩ (ih (c + 1) true _ hrest hlen)
    · exact ih (c + 1) changed ctx hrest hmark

/-- A pass fails with a conflict. -/
theorem propagatePass_conflict (m : SatModel) : ∀ (rest : List SatClause) (c : ℕ) (changed : Bool) (ctx ctx' : SolveCtx),
    propagatePass m c rest (changed, ctx) = .error ctx' → ctx'.hasConflict = true := by
  intro rest
  induction rest with
  | nil => intro c changed ctx ctx' h; cases h
  | cons clause rest ih =>
    intro c changed ctx ctx' h
    unfold propagatePass at h
    rcases hscan : scanClause ctx.assign clause.lits (0, 0) with _ | ⟨_ | _ | k, lit⟩
    · rw [hscan] at h; exact ih _ _ _ _ h
    · rw [hscan] at h
      simp only [Except.error.injEq] at h
      rw [← h]
    · rw [hscan] at h; exact ih _ _ _ _ h
    · rw [hscan] at h; exact ih _ _ _ _ h

/-- A trace above a mark ends above it. -/
theorem trace_mark {mark : ℕ} {states : List SolveCtx} (h : Trace (StepOver a mark) s states s')
    (hs : mark ≤ s.trail.length) : mark ≤ s'.trail.length :=
  (h.keeps (I := fun t => mark ≤ t.trail.length) (fun _ _ _ hstep => hstep.2) hs).2

theorem propagateStates_trace {mark : ℕ} : ∀ (fuel : ℕ) {ctx ctx' : SolveCtx} {b : Bool}, mark ≤ ctx.trail.length →
    propagate a.model fuel ctx = some (b, ctx') →
    Trace (StepOver a mark) ctx (propagateStates a.model fuel ctx) ctx' ∧ (b = false → ctx'.hasConflict = true) := by
  intro fuel
  induction fuel with
  | zero => intro ctx ctx' b _ h; cases h
  | succ fuel ih =>
    intro ctx ctx' b hmark h
    have hpass := passStates_trace (a := a) a.model.clauses 0 false ctx rfl hmark
    have hconf := propagatePass_conflict a.model a.model.clauses 0 false ctx
    unfold propagate at h
    unfold propagateStates
    rcases hres : propagatePass a.model 0 a.model.clauses (false, ctx) with ctx₁ | ⟨_ | _, ctx₁⟩
    · rw [hres] at h hpass
      simp only [Option.some.injEq, Prod.mk.injEq] at h
      obtain ⟨rfl, rfl⟩ := h
      exact ⟨by simpa [passEnd] using hpass, fun _ => hconf ctx₁ hres⟩
    · rw [hres] at h hpass
      simp only [Option.some.injEq, Prod.mk.injEq] at h
      obtain ⟨rfl, rfl⟩ := h
      exact ⟨by simpa [passEnd] using hpass, by simp⟩
    -- something changed: there is another pass
    · rw [hres] at h hpass
      obtain ⟨htrace, hend⟩ := ih (trace_mark hpass hmark) h
      exact ⟨hpass.append htrace, hend⟩

theorem undoStates_trace (mark : ℕ) : ∀ (trail : List ℕ) {ctx : SolveCtx}, ctx.trail = trail →
    Trace (StepOver a mark) ctx (undoStates mark trail ctx) (undoLoop mark trail ctx) := by
  intro trail
  induction trail with
  | nil => intro ctx _; exact .nil ctx
  | cons var trail ih =>
    intro ctx ht
    unfold undoStates undoLoop
    split
    · rename_i hlen
      exact .cons ⟨.pop ht, Nat.lt_succ_iff.1 hlen⟩ (ih rfl)
    · exact .nil ctx

theorem undoLoop_flags (mark : ℕ) : ∀ (trail : List ℕ) (ctx : SolveCtx),
    (undoLoop mark trail ctx).timedOut = ctx.timedOut ∧ (undoLoop mark trail ctx).aborted = ctx.aborted ∧
      (undoLoop mark trail ctx).hasConflict = ctx.hasConflict := by
  intro trail
  induction trail with
  | nil => intro ctx; exact ⟨rfl, rfl, rfl⟩
  | cons var trail ih =>
    intro ctx
    unfold undoLoop
    split
    · exact ih _
    · exact ⟨rfl, rfl, rfl⟩

/-- The trail, the assignment and the antecedents are those of `ctx` again. -/
structure Restored (ctx ctx' : SolveCtx) : Prop where
  trail : ctx'.trail = ctx.trail
  assign : ctx'.assign = ctx.assign
  antecedent : ctx'.antecedent = ctx.antecedent

/-- **`undo_to` restores what was there at the mark.** -/
theorem undoTo_restores (hm : a.model.InRange) (h₀ : SearchOK a.model ctx) (h : SearchOK a.model s) (hu : Upon ctx s) :
    Restored ctx (undoTo ctx.trail.length s) := by
  obtain ⟨htrail, hassign, -⟩ := undoTo_above h₀.toCtxOK h.toCtxOK hu.above
  refine ⟨htrail, hassign, ?_⟩
  obtain ⟨-, -, new, ht, hrest⟩ := trace_upon hm h₀ h hu (undoStates_trace ctx.trail.length s.trail rfl)
  have hnil : new = [] := List.self_eq_append_left.1 (htrail.symm.trans ht)
  funext v
  exact (hrest v (by rw [hnil]; simp)).2

/-- Why a call failed. -/
def Explained (ctx : SolveCtx) : Prop := ctx.timedOut = true ∨ ctx.aborted = true ∨ ctx.hasConflict = true

theorem Explained.undoTo (h : Explained ctx) (mark : ℕ) : Explained (undoTo mark ctx) := by
  obtain ⟨h1, h2, h3⟩ := undoLoop_flags mark ctx.trail ctx
  unfold Explained Apg.undoTo
  rw [h1, h2, h3]; exact h

/-- What a call that started in `ctx` hands back when it fails. -/
structure GaveUp (ctx ctx' : SolveCtx) : Prop where
  restored : Restored ctx ctx'
  explained : Explained ctx'

/-- A call that started in `ctx`: the states it goes through, and what it hands back. -/
structure Searched (a : SolveArgs) (ctx : SolveCtx) (states : List SolveCtx) (b : Bool) (ctx' : SolveCtx) : Prop where
  trace : Trace (StepOver a ctx.trail.length) ctx states ctx'
  failed : b = false → GaveUp ctx ctx'

section Branches

variable {search : SolveCtx → Option (Bool × SolveCtx)} {states : SolveCtx → List SolveCtx}
  {ctx₀ ctx₁ ctx₂ : SolveCtx} {v : ℕ} {x : ℤ}

/-- One value of a variable is tried: the run continues from the model found, or from the
state at the mark. -/
theorem tryStates_trace (hm : a.model.InRange)
    (hsearch : ∀ ctx b ctx', SearchOK a.model ctx → search ctx = some (b, ctx') → Searched a ctx (states ctx) b ctx')
    (h₀ : SearchOK a.model ctx₀) (h₁ : SearchOK a.model ctx₁) (hu : Upon ctx₀ ctx₁) (hopen : ctx₁.assign v = 0)
    (h1 : 1 ≤ v) (hn : v ≤ a.model.varCount) (hx : x = 1 ∨ x = -1) {b : Bool}
    (hrun : search (decideVar ctx₁ v x) = some (b, ctx₂)) :
    (b = true → Trace (StepOver a ctx₀.trail.length) ctx₁ (tryStates search states ctx₀.trail.length v x ctx₁) ctx₂) ∧
      (b = false → Trace (StepOver a ctx₀.trail.length) ctx₁ (tryStates search states ctx₀.trail.length v x ctx₁)
        (undoTo ctx₀.trail.length ctx₂) ∧ GaveUp ctx₀ (undoTo ctx₀.trail.length ctx₂)) := by
  have hstep : SearchStep a ctx₁ (decideVar ctx₁ v x) := .decide hopen h1 hn hx
  have hspec := hsearch _ _ _ (h₁.step hm hstep) hrun
  have hmark : ctx₀.trail.length ≤ (decideVar ctx₁ v x).trail.length := by
    have := hu.above.length_le
    simp only [decideVar, List.length_cons]
    omega
  have hbelow : Trace (StepOver a ctx₀.trail.length) (decideVar ctx₁ v x) (states (decideVar ctx₁ v x)) ctx₂ :=
    hspec.trace.mono fun _ _ h => ⟨h.1, hmark.trans h.2⟩
  have htrace := Trace.cons ⟨hstep, hmark⟩ hbelow
  unfold tryStates
  rw [hrun]
  constructor
  · rintro rfl
    simpa using htrace
  · rintro rfl
    obtain ⟨-, h₂, hu₂⟩ := trace_upon hm h₀ h₁ hu htrace
    exact ⟨htrace.append (undoStates_trace _ _ rfl), undoTo_restores hm h₀ h₂ hu₂,
      (hspec.failed rfl).explained.undoTo _⟩

theorem tryBothStates_trace (hm : a.model.InRange)
    (hsearch : ∀ ctx b ctx', SearchOK a.model ctx → search ctx = some (b, ctx') → Searched a ctx (states ctx) b ctx')
    (h₀ : SearchOK a.model ctx₀) (h₁ : SearchOK a.model ctx₁) (hu : Upon ctx₀ ctx₁) (hopen : ctx₁.assign v = 0)
    (h1 : 1 ≤ v) (hn : v ≤ a.model.varCount) (hx : x = 1 ∨ x = -1) {b : Bool}
    (hrun : tryBoth search ctx₀.trail.length v x ctx₁ = some (b, ctx')) :
    Trace (StepOver a ctx₀.trail.length) ctx₁ (tryBothStates search states ctx₀.trail.length v x ctx₁) ctx' ∧
      (b = false → GaveUp ctx₀ ctx') := by
  unfold tryBoth at hrun
  unfold tryBothStates
  match hfirst : search (decideVar ctx₁ v x) with
  | none => rw [hfirst] at hrun; cases hrun
  | some (true, ctx₂) =>
    rw [hfirst] at hrun
    simp only [Option.some.injEq, Prod.mk.injEq] at hrun
    obtain ⟨rfl, rfl⟩ := hrun
    obtain ⟨htrace, -⟩ := tryStates_trace hm hsearch h₀ h₁ hu hopen h1 hn hx hfirst
    exact ⟨by simpa using htrace rfl, by simp⟩
  | some (false, ctx₂) =>
    rw [hfirst] at hrun
    simp only at hrun ⊢
    obtain ⟨-, hfalse⟩ := tryStates_trace hm hsearch h₀ h₁ hu hopen h1 hn hx hfirst
    obtain ⟨htrace, hfailed⟩ := hfalse rfl
    split at hrun
    -- no verdict: the other value is not tried
    · rename_i hflag
      simp only [Option.some.injEq, Prod.mk.injEq] at hrun
      obtain ⟨rfl, rfl⟩ := hrun
      rw [if_pos hflag]
      exact ⟨by simpa using htrace, fun _ => hfailed⟩
    · rename_i hflag
      rw [if_neg hflag]
      obtain ⟨-, h₃, hu₃⟩ := trace_upon hm h₀ h₁ hu htrace
      have hopen₃ : (undoTo ctx₀.trail.length ctx₂).assign v = 0 := by
        rw [hfailed.restored.assign]; exact hu.above.open_below h₁.toCtxOK hopen
      match hsecond : search (decideVar (undoTo ctx₀.trail.length ctx₂) v (-x)) with
      | none => rw [hsecond] at hrun; cases hrun
      | some (true, ctx₄) =>
        rw [hsecond] at hrun
        simp only [Option.some.injEq, Prod.mk.injEq] at hrun
        obtain ⟨rfl, rfl⟩ := hrun
        obtain ⟨htrue, -⟩ := tryStates_trace hm hsearch h₀ h₃ hu₃ hopen₃ h1 hn (by omega) hsecond
        exact ⟨htrace.append (htrue rfl), by simp⟩
      | some (false, ctx₄) =>
        rw [hsecond] at hrun
        simp only [Option.some.injEq, Prod.mk.injEq] at hrun
        obtain ⟨rfl, rfl⟩ := hrun
        obtain ⟨-, hfalse'⟩ := tryStates_trace hm hsearch h₀ h₃ hu₃ hopen₃ h1 hn (by omega) hsecond
        obtain ⟨htrace', hfailed'⟩ := hfalse' rfl
        exact ⟨htrace.append htrace', fun _ => hfailed'⟩

end Branches

/-- **The listing is the run of the call**, and a call that fails takes everything back
and has a reason. -/
theorem dpll_searched (hm : a.model.InRange) : ∀ (n : ℕ) (ctx : SolveCtx) (b : Bool) (ctx' : SolveCtx),
    SearchOK a.model ctx → dpll a n ctx = some (b, ctx') → Searched a ctx (dpllStates a n ctx) b ctx' := by
  intro n
  induction n with
  | zero => intro ctx b ctx' _ h; cases h
  | succ n ih =>
    intro ctx b ctx' h hrun
    unfold dpll at hrun
    unfold dpllStates
    by_cases hcancel : cancelled a ctx = true
    · rw [if_pos hcancel] at hrun ⊢
      simp only [Option.some.injEq, Prod.mk.injEq] at hrun
      obtain ⟨rfl, rfl⟩ := hrun
      exact ⟨.one ⟨.abort hcancel, le_rfl⟩, fun _ => ⟨⟨rfl, rfl, rfl⟩, Or.inr (Or.inl rfl)⟩⟩
    · rw [if_neg hcancel] at hrun ⊢
      simp only at hrun ⊢
      have hpoll : StepOver a ctx.trail.length ctx { ctx with polls := ctx.polls + 1 } :=
        ⟨.poll (by simpa using hcancel), le_rfl⟩
      have h₀ : SearchOK a.model { ctx with polls := ctx.polls + 1 } := h.step hm hpoll.1
      have hu₀ : Upon ctx { ctx with polls := ctx.polls + 1 } := (Upon.refl ctx).congr rfl rfl rfl
      generalize ({ ctx with polls := ctx.polls + 1 } : SolveCtx) = ctx₀ at hrun hpoll h₀ hu₀ ⊢
      rcases hprop : propagate a.model (a.model.varCount + 1) ctx₀ with _ | ⟨_ | _, ctx₁⟩
      · rw [hprop] at hrun; cases hrun
      -- a conflict
      · rw [hprop] at hrun
        simp only [Option.some.injEq, Prod.mk.injEq] at hrun
        obtain ⟨rfl, rfl⟩ := hrun
        obtain ⟨htrace, hconf⟩ := propagateStates_trace _ hpoll.2 hprop
        obtain ⟨-, h₁, hu₁⟩ := trace_upon hm h h₀ hu₀ htrace
        exact ⟨.cons hpoll (htrace.append (undoStates_trace _ _ rfl)), fun _ =>
          ⟨undoTo_restores hm h h₁ hu₁, Explained.undoTo (Or.inr (Or.inr (hconf rfl))) _⟩⟩
      · rw [hprop] at hrun
        simp only at hrun ⊢
        obtain ⟨htrace, -⟩ := propagateStates_trace _ hpoll.2 hprop
        have hstart := Trace.cons hpoll htrace
        obtain ⟨-, h₁, hu₁⟩ := trace_upon hm h h₀ hu₀ htrace
        cases hpick : pickVar a ctx₁ with
        | none =>
          rw [hpick] at hrun
          simp only [Option.some.injEq, Prod.mk.injEq] at hrun
          obtain ⟨rfl, rfl⟩ := hrun
          exact ⟨by simpa using hstart, by simp⟩
        | some v =>
          rw [hpick] at hrun
          simp only at hrun ⊢
          obtain ⟨hopen, h1, hn⟩ := pickVar_some hpick
          have hmark := hu₁.above.length_le
          by_cases hbudget : ctx₁.decisions ≥ a.budget
          · rw [if_pos hbudget] at hrun ⊢
            simp only [Option.some.injEq, Prod.mk.injEq] at hrun
            obtain ⟨rfl, rfl⟩ := hrun
            have hlate : SearchStep a ctx₁ { ctx₁ with timedOut := true } := .timeout hbudget
            have hundo : Trace (StepOver a ctx.trail.length) { ctx₁ with timedOut := true }
                (undoStates ctx.trail.length ctx₁.trail { ctx₁ with timedOut := true })
                (undoTo ctx.trail.length { ctx₁ with timedOut := true }) := undoStates_trace _ _ rfl
            exact ⟨hstart.append (.cons ⟨hlate, hmark⟩ hundo), fun _ =>
              ⟨undoTo_restores hm h (h₁.step hm hlate) (hu₁.congr rfl rfl rfl), Explained.undoTo (Or.inl rfl) _⟩⟩
          · rw [if_neg hbudget] at hrun ⊢
            have hcount : SearchStep a ctx₁ { ctx₁ with decisions := ctx₁.decisions + 1 } :=
              .count (not_le.1 hbudget)
            have hx : (if a.preferFalse then -1 else 1 : ℤ) = 1 ∨ (if a.preferFalse then -1 else 1 : ℤ) = -1 := by
              split <;> simp
            obtain ⟨hboth, hfailed⟩ := tryBothStates_trace hm ih h (h₁.step hm hcount) (hu₁.congr rfl rfl rfl)
              hopen h1 hn hx hrun
            exact ⟨hstart.append (.cons ⟨hcount, hmark⟩ hboth), hfailed⟩

/-! ## The solver -/

/-- A state of the solver: the invariant, which leaves room on the trail, and marks that can
be returned to: at any point of a call from here, `undo_to` to its mark restores what the
call found, as it has done when the call fails. -/
structure SoundState (a : SolveArgs) (s : SolveCtx) : Prop where
  ok : SearchOK a.model s
  room : s.trail.length ≤ a.model.varCount
  marks : ∀ n b s', dpll a n s = some (b, s') →
    (∀ t ∈ dpllStates a n s, Restored s (undoTo s.trail.length t)) ∧ (b = false → Restored s s')

theorem SearchOK.sound (hm : a.model.InRange) (h : SearchOK a.model s) : SoundState a s := by
  refine ⟨h, h.length_le, ?_⟩
  intro n b s' hrun
  have hspec := dpll_searched hm n s b s' h hrun
  obtain ⟨hall, -⟩ := trace_upon hm h h (Upon.refl s) hspec.trace
  exact ⟨fun t ht => undoTo_restores hm h (hall t ht).1 (hall t ht).2, fun hb => (hspec.failed hb).restored⟩

/-- The conflict that `solve_core` explains: a clause of the model that is not empty, and
has two literals if it is a conflict of packages. -/
structure ExplainedBy (mem : Ptr → Metadata) (m : SatModel) (ctx : SolveCtx) (r : SolveOut) : Prop where
  recorded : ctx.hasConflict = true
  clause : ∃ clause, m.clauses[ctx.conflictClause]? = some clause ∧ clause.lits ≠ [] ∧
    (clause.kind = .conflict → clause.lits.length = 2)
  message : r.conflict = some (explainConflict mem m ctx.conflictClause)

/-- `UNSATISFIABLE` is a search that failed, and neither for the budget nor for the flag. -/
theorem solveCore_unsat {mem : Ptr → Metadata} {b : Bool} {r : SolveOut}
    (hrun : dpll a (a.model.varCount + 1) initCtx = some (b, ctx)) (hr : solveCore mem a = some r)
    (hunsat : r.result = .unsatisfiable) : b = false ∧ ¬ctx.timedOut = true ∧ ¬ctx.aborted = true ∧
      r.conflict = if ctx.hasConflict then some (explainConflict mem a.model ctx.conflictClause) else none := by
  unfold solveCore at hr
  rw [hrun] at hr
  simp only at hr
  by_cases h0 : a.model.varCount = 0
  · rw [if_pos h0] at hr
    obtain rfl := Option.some.inj hr
    cases hunsat
  · rw [if_neg h0] at hr
    by_cases hab : ctx.aborted = true
    · rw [if_pos hab] at hr
      obtain rfl := Option.some.inj hr
      cases hunsat
    · rw [if_neg hab] at hr
      by_cases hto : ctx.timedOut = true
      · rw [if_pos hto] at hr
        obtain rfl := Option.some.inj hr
        cases hunsat
      · rw [if_neg hto] at hr
        cases b with
        | true =>
          obtain rfl := Option.some.inj hr
          cases hunsat
        | false =>
          obtain rfl := Option.some.inj hr
          exact ⟨rfl, hto, hab, rfl⟩

/-- **The state of the solver stays in bounds, and a failure is explained.** For every model
that was built, every strategy, budget and cancel flag, the search of `solve_core` goes
through states in each of which the trail holds the assigned variables, each once, and an
antecedent is a clause with its variable. Returning to a mark restores what was there, and
`UNSATISFIABLE` comes with a recorded conflict. -/
theorem solveCore_explained {mem : Ptr → Metadata} {a : SolveArgs} (hb : SatBuilt mem a.model) :
    ∃ b ctx, dpll a (a.model.varCount + 1) initCtx = some (b, ctx) ∧
      Trace (SearchStep a) initCtx (dpllStates a (a.model.varCount + 1) initCtx) ctx ∧
      (∀ s ∈ initCtx :: dpllStates a (a.model.varCount + 1) initCtx, SoundState a s) ∧
      ∀ r, solveCore mem a = some r → r.result = .unsatisfiable → ExplainedBy mem a.model ctx r := by
  have hm := satBuilt_ok hb
  obtain ⟨b, ctx, hrun, -⟩ := dpll_spec hm.inRange (a.model.varCount + 1) initCtx initCtx_ok rfl rfl (by omega)
  have hspec := dpll_searched hm.inRange _ _ _ _ initCtx_searchOK hrun
  obtain ⟨hall, hend, -⟩ := trace_upon hm.inRange initCtx_searchOK initCtx_searchOK (Upon.refl initCtx) hspec.trace
  refine ⟨b, ctx, hrun, hspec.trace.mono fun _ _ h => h.1, ?_, ?_⟩
  · intro s hs
    rcases List.mem_cons.1 hs with rfl | hs
    · exact initCtx_searchOK.sound hm.inRange
    · exact (hall s hs).1.sound hm.inRange
  · intro r hr hunsat
    obtain ⟨hfalse, hto, hab, hmsg⟩ := solveCore_unsat hrun hr hunsat
    have hconf : ctx.hasConflict = true := by
      rcases (hspec.failed hfalse).explained with h | h | h
      · exact absurd h hto
      · exact absurd h hab
      · exact h
    have hclause := List.getElem?_eq_getElem (hend.conflict hconf)
    have hmem := List.mem_of_getElem? hclause
    exact ⟨hconf, ⟨_, hclause, hm.nonempty _ hmem, satBuilt_pairs hb _ hmem⟩, by rw [hmsg, if_pos hconf]⟩

/-- Two packages that conflict and are both forced. -/
theorem solveCore_explained_pair :
    ∃ (mem : Ptr → Metadata) (m : SatModel) (r : SolveOut) (ctx : SolveCtx), SatBuilt mem m ∧
      solveCore mem ⟨m, 10, none, true, false⟩ = some r ∧ r.result = .unsatisfiable ∧
      ExplainedBy mem m ctx r ∧
      r.conflict = some (cstr "package \"mda\" conflicts with package \"mdb\", but both were required") := by
  let mem : Ptr → Metadata := fun p =>
    if p = 1 then { name := some (cstr "mda"), conflicts := [some (cstr "mdb")] } else { name := some (cstr "mdb") }
  let cs := candidateSetAdd (candidateSetAdd candidateSetInit (cstr "mda") 1) (cstr "mdb") 2
  have hrun : ((satModelBuild mem cs [1, 2] satModelInit).bind fun m =>
      (solveCore mem ⟨satModelForce (satModelForce m 1) 2, 10, none, true, false⟩).map fun r => (r.result, r.conflict)) =
      some (.unsatisfiable,
        some (cstr "package \"mda\" conflicts with package \"mdb\", but both were required")) := by decide
  obtain ⟨m, hm, hsolve⟩ := Option.bind_eq_some_iff.1 hrun
  obtain ⟨r, hr, hval⟩ := Option.map_eq_some_iff.1 hsolve
  rw [Prod.mk.injEq] at hval
  have hb : SatBuilt mem (satModelForce (satModelForce m 1) 2) := .force 2 (.force 1 (.build cs [1, 2] .init hm))
  obtain ⟨b, ctx, -, -, -, hexplained⟩ :=
    solveCore_explained (a := ⟨satModelForce (satModelForce m 1) 2, 10, none, true, false⟩) hb
  exact ⟨mem, _, r, ctx, hb, hr, hval.1, hexplained r hr hval.1, hval.2⟩

end Apg
