import Apg.Proof.ResolveSat
import Apg.Spec.Portfolio

/-!
# Every interleaving of the portfolio

The invariant `PortfolioOK` says what the threads share at any moment: as long as
nothing is published nobody has seen the cancel flag set, so whoever has finished
ran out of budget. It is kept by every step, and every step uses up a bounded
amount of work.

* `portfolio_returns`: **every run can be completed**, and none goes on for ever.
* `portfolio_refines`: what a run returns is what `satSolveParallel` returns for the
  order in which the workers finished.
* `portfolio_agrees`: **whatever the interleaving, the first verdict is published,
  once, and returned**; without one every worker ran out of budget.
-/

namespace Apg

open Relation

variable {mem : Ptr → Metadata} {m : SatModel} {a : SolveArgs} {decisionBudget threads : ℕ}

/-! ## How often the flag is read -/

theorem propagatePass_polls (m : SatModel) : ∀ (clauses : List SatClause) (c : ℕ) (changed : Bool)
    (ctx ctx' : SolveCtx), (propagatePass m c clauses (changed, ctx) = .error ctx' ∨
      ∃ b, propagatePass m c clauses (changed, ctx) = .ok (b, ctx')) → ctx'.polls = ctx.polls := by
  intro clauses
  induction clauses with
  | nil =>
    intro c changed ctx ctx' h
    simp only [propagatePass, reduceCtorEq, Except.ok.injEq, Prod.mk.injEq, exists_eq_left', false_or] at h
    rw [h]
  | cons clause clauses ih =>
    intro c changed ctx ctx' h
    unfold propagatePass at h
    split at h
    · exact ih (c + 1) changed ctx ctx' h
    · simp only [Except.error.injEq, reduceCtorEq, exists_false, or_false] at h
      rw [← h]
    · rename_i lit _
      exact ih (c + 1) true (assignUnit ctx lit c) ctx' h
    · exact ih (c + 1) changed ctx ctx' h

theorem propagate_polls (m : SatModel) : ∀ (n : ℕ) (ctx ctx' : SolveCtx) (b : Bool),
    propagate m n ctx = some (b, ctx') → ctx'.polls = ctx.polls := by
  intro n
  induction n with
  | zero => intro ctx ctx' b h; simp [propagate] at h
  | succ n ih =>
    intro ctx ctx' b h
    have hpass := propagatePass_polls m m.clauses 0 false ctx
    unfold propagate at h
    split at h
    · rename_i ctx₁ he
      simp only [Option.some.injEq, Prod.mk.injEq] at h
      rw [← h.2]; exact hpass ctx₁ (Or.inl he)
    · rename_i ctx₁ he
      rw [ih ctx₁ ctx' b h]; exact hpass ctx₁ (Or.inr ⟨true, he⟩)
    · rename_i ctx₁ he
      simp only [Option.some.injEq, Prod.mk.injEq] at h
      rw [← h.2]; exact hpass ctx₁ (Or.inr ⟨false, he⟩)

theorem undoLoop_polls (mark : ℕ) : ∀ (trail : List ℕ) (ctx : SolveCtx), (undoLoop mark trail ctx).polls = ctx.polls := by
  intro trail
  induction trail with
  | nil => intro ctx; rfl
  | cons v trail ih =>
    intro ctx
    unfold undoLoop
    split
    · exact ih _
    · rfl

theorem undoTo_polls (mark : ℕ) (ctx : SolveCtx) : (undoTo mark ctx).polls = ctx.polls := undoLoop_polls mark ctx.trail ctx

theorem tryBoth_polls {search : SolveCtx → Option (Bool × SolveCtx)} {k : ℕ}
    (hsearch : ∀ ctx ctx' b, search ctx = some (b, ctx') → ctx'.polls ≤ ctx.polls + k) {mark chosen : ℕ} {x : ℤ}
    {ctx ctx' : SolveCtx} {b : Bool} (h : tryBoth search mark chosen x ctx = some (b, ctx')) :
    ctx'.polls ≤ ctx.polls + (k + k) := by
  unfold tryBoth at h
  cases h1 : search (decideVar ctx chosen x) with
  | none => simp [h1] at h
  | some r₁ =>
    obtain ⟨b₁, ctx₁⟩ := r₁
    have hfirst : ctx₁.polls ≤ ctx.polls + k := hsearch (decideVar ctx chosen x) ctx₁ b₁ h1
    rw [h1] at h
    cases b₁ with
    | true =>
      simp only [Option.some.injEq, Prod.mk.injEq] at h
      rw [← h.2]; omega
    | false =>
      have hundo := undoTo_polls mark ctx₁
      simp only at h
      split at h
      · simp only [Option.some.injEq, Prod.mk.injEq] at h
        rw [← h.2]; omega
      · cases h2 : search (decideVar (undoTo mark ctx₁) chosen (-x)) with
        | none => simp [h2] at h
        | some r₂ =>
          obtain ⟨b₂, ctx₂⟩ := r₂
          have hsecond : ctx₂.polls ≤ (undoTo mark ctx₁).polls + k := hsearch (decideVar (undoTo mark ctx₁) chosen (-x)) ctx₂ b₂ h2
          have hundo₂ := undoTo_polls mark ctx₂
          rw [h2] at h
          cases b₂ with
          | true =>
            simp only [Option.some.injEq, Prod.mk.injEq] at h
            rw [← h.2]; omega
          | false =>
            simp only [Option.some.injEq, Prod.mk.injEq] at h
            rw [← h.2]; omega

/-- The flag is read once per call, and the calls form a binary tree. -/
theorem dpll_polls (a : SolveArgs) : ∀ (n : ℕ) (ctx ctx' : SolveCtx) (b : Bool), dpll a n ctx = some (b, ctx') →
    ctx'.polls ≤ ctx.polls + (2 ^ n - 1) := by
  intro n
  induction n with
  | zero => intro ctx ctx' b h; simp [dpll] at h
  | succ n ih =>
    intro ctx ctx' b h
    have hpos : 0 < 2 ^ n := Nat.two_pow_pos n
    have hpow : 2 ^ (n + 1) = 2 ^ n + 2 ^ n := by rw [pow_succ]; omega
    unfold dpll at h
    split at h
    · simp only [Option.some.injEq, Prod.mk.injEq] at h
      rw [← h.2]; simp only; omega
    · cases hprop : propagate a.model (a.model.varCount + 1) { ctx with polls := ctx.polls + 1 } with
      | none => simp [hprop] at h
      | some r =>
        obtain ⟨b₁, ctx₁⟩ := r
        have hp : ctx₁.polls = ctx.polls + 1 := propagate_polls _ _ _ _ _ hprop
        rw [hprop] at h
        cases b₁ with
        | false =>
          simp only [Option.some.injEq, Prod.mk.injEq] at h
          have := undoTo_polls ctx.trail.length ctx₁
          rw [← h.2]; omega
        | true =>
          cases hpick : pickVar a ctx₁ with
          | none =>
            simp only [hpick, Option.some.injEq, Prod.mk.injEq] at h
            rw [← h.2]; omega
          | some chosen =>
            simp only [hpick] at h
            split at h
            · simp only [Option.some.injEq, Prod.mk.injEq] at h
              have := undoTo_polls ctx.trail.length { ctx₁ with timedOut := true }
              rw [← h.2]; simp only at this; omega
            · have := tryBoth_polls (fun c c' b hc => ih c c' b hc) h
              simp only at this
              omega

/-- A search calls itself at most that often. -/
def pollBound (m : SatModel) : ℕ := 2 ^ (m.varCount + 1)

theorem pollCount_le (a : SolveArgs) : pollCount a ≤ pollBound a.model := by
  unfold pollCount pollBound
  split
  · exact Nat.zero_le _
  · cases hrun : dpll a (a.model.varCount + 1) initCtx with
    | none => simp
    | some r =>
      have := dpll_polls a _ initCtx r.2 r.1 hrun
      simp only [initCtx] at this
      simp only [Option.map_some, Option.getD_some]
      exact this.trans (by rw [zero_add]; exact Nat.sub_le _ _)

/-! ## A flag that reads as `false` -/

theorem dpll_unread (m : SatModel) (budget : ℕ) (rev pf : Bool) : ∀ (n : ℕ) (ctx : SolveCtx),
    dpll ⟨m, budget, some fun _ => false, rev, pf⟩ n ctx = dpll ⟨m, budget, none, rev, pf⟩ n ctx := by
  intro n
  induction n with
  | zero => intro ctx; rfl
  | succ n ih =>
    intro ctx
    have hsearch : dpll ⟨m, budget, some fun _ => false, rev, pf⟩ n = dpll ⟨m, budget, none, rev, pf⟩ n := funext ih
    unfold dpll
    rw [hsearch]
    rfl

/-- A search that never sees the flag set is one without a flag. -/
theorem solveCore_unread (mem : Ptr → Metadata) (m : SatModel) (budget : ℕ) (rev pf : Bool) :
    solveCore mem ⟨m, budget, some fun _ => false, rev, pf⟩ = solveCore mem ⟨m, budget, none, rev, pf⟩ := by
  unfold solveCore
  rw [dpll_unread]

theorem getD_false {reads : List Bool} (h : true ∉ reads) : (fun k => reads.getD k false) = fun _ => false := by
  funext k
  rw [List.getD_eq_getElem?_getD]
  cases hk : reads[k]? with
  | none => rfl
  | some v =>
    cases v with
    | false => rfl
    | true => exact absurd (List.mem_of_getElem? hk) h

/-! ## The invariant -/

/-- **What holds between any two steps.** -/
structure PortfolioOK (mem : Ptr → Metadata) (m : SatModel) (decisionBudget threads : ℕ) (s : Portfolio) : Prop where
  waiting : ∀ i, s.workers i = .waiting ↔ s.created ≤ i
  created : s.created ≤ threads
  inlined : ∀ i, s.inlined = some i → i < s.created
  cancel : s.cancel = s.final.isSome
  reads : ∀ i reads, s.workers i = .searching reads →
    reads.length ≤ pollBound m ∧ (s.final = none → true ∉ reads)
  outcome : ∀ i reads r, s.workers i = .finished reads r → solveCore mem (workerArgs m decisionBudget i reads) = some r
  unset : s.final = none → s.published = [] ∧ ∀ i reads r, s.workers i = .finished reads r → r.result = .budgetExceeded
  set : ∀ r, s.final = some r → (r.result = .satisfiable ∨ r.result = .unsatisfiable) ∧
    ∃ i reads, s.published = [(i, r)] ∧ s.workers i = .finished reads r

theorem portfolioOK_start : PortfolioOK mem m decisionBudget threads {} :=
  ⟨by simp, by simp, by simp, rfl, by simp, by simp, by simp, by simp⟩

variable {s s' : Portfolio} {i : ℕ} {reads : List Bool} {r : SolveOut}

/-- A worker that is there is one of the threads. -/
theorem PortfolioOK.lt (h : PortfolioOK mem m decisionBudget threads s) (hi : s.workers i ≠ .waiting) : i < threads := by
  have hc : ¬s.created ≤ i := fun hle => hi ((h.waiting i).2 hle)
  have := h.created
  omega

theorem PortfolioOK.create (h : PortfolioOK mem m decisionBudget threads s) (hlt : s.created < threads)
    {inlined : Option ℕ} (hin : ∀ i, inlined = some i → i = s.created) :
    PortfolioOK mem m decisionBudget threads { s.create with inlined := inlined } := by
  -- only the worker at `created` is touched, and it has read nothing
  have hw : ∀ i, s.create.workers i = if i = s.created then .searching [] else s.workers i := by
    intro i
    simp only [Portfolio.create, Portfolio.setWorker, Function.update_apply]
  refine ⟨?_, hlt, ?_, h.cancel, ?_, ?_, ?_, ?_⟩
  · intro i
    simp only [hw]
    have := h.waiting i
    by_cases hi : i = s.created
    · simp [hi, Portfolio.create]
    · rw [if_neg hi, this]
      simp only [Portfolio.create]
      omega
  · intro i hi
    rw [hin i hi]
    exact Nat.lt_succ_self _
  · intro i reads hi
    simp only [hw] at hi
    split at hi
    · rw [← Worker.searching.inj hi]; simp
    · exact h.reads i reads hi
  · intro i reads r hi
    simp only [hw] at hi
    split at hi
    · exact absurd hi (by simp)
    · exact h.outcome i reads r hi
  · intro hf
    refine ⟨(h.unset hf).1, ?_⟩
    intro i reads r hi
    simp only [hw] at hi
    split at hi
    · exact absurd hi (by simp)
    · exact (h.unset hf).2 i reads r hi
  · intro r hr
    obtain ⟨hv, i, reads, hp, hi⟩ := h.set r hr
    refine ⟨hv, i, reads, hp, ?_⟩
    have hne : i ≠ s.created := by
      rintro rfl
      rw [(h.waiting s.created).2 le_rfl] at hi
      exact absurd hi (by simp)
    simp only [hw, if_neg hne]
    exact hi

theorem PortfolioOK.poll (h : PortfolioOK mem m decisionBudget threads s) {value : Bool}
    (hi : s.workers i = .searching reads) (hlt : reads.length < pollCount (workerArgs m decisionBudget i reads))
    (hval : value = true → s.cancel = true) :
    PortfolioOK mem m decisionBudget threads (s.setWorker i (.searching (reads ++ [value]))) := by
  have hw : ∀ j, (s.setWorker i (.searching (reads ++ [value]))).workers j =
      if j = i then .searching (reads ++ [value]) else s.workers j := by
    intro j
    simp only [Portfolio.setWorker, Function.update_apply]
  -- the worker that reads has not finished, so the finished ones are the same
  have hfin : ∀ j reads' r, (s.setWorker i (.searching (reads ++ [value]))).workers j = .finished reads' r ↔
      s.workers j = .finished reads' r := by
    intro j reads' r
    rw [hw]
    by_cases hj : j = i
    · simp [hj, hi]
    · simp [hj]
  refine ⟨?_, h.created, h.inlined, h.cancel, ?_, ?_, ?_, ?_⟩
  · intro j
    rw [hw]
    by_cases hj : j = i
    · have := h.waiting i
      rw [hi] at this
      simpa [hj, Portfolio.setWorker] using this
    · rw [if_neg hj]; exact h.waiting j
  · intro j reads' hj
    rw [hw] at hj
    split at hj
    · rw [← Worker.searching.inj hj]
      have hbound := pollCount_le (workerArgs m decisionBudget i reads)
      simp only [workerArgs] at hbound hlt
      refine ⟨by rw [List.length_append, List.length_singleton]; omega, ?_⟩
      intro hf
      have hquiet := (h.reads i reads hi).2 hf
      have hfalse : value ≠ true := by
        intro hv
        have := hval hv
        rw [h.cancel] at this
        simp [show s.final = none from hf] at this
      simp [hquiet, hfalse]
    · exact h.reads j reads' hj
  · intro j reads' r hj
    exact h.outcome j reads' r ((hfin j reads' r).1 hj)
  · intro hf
    exact ⟨(h.unset hf).1, fun j reads' r hj => (h.unset hf).2 j reads' r ((hfin j reads' r).1 hj)⟩
  · intro r hr
    obtain ⟨hv, j, reads', hp, hj⟩ := h.set r hr
    exact ⟨hv, j, reads', hp, (hfin j reads' r).2 hj⟩

theorem Portfolio.publish_workers (s : Portfolio) (i : ℕ) (reads : List Bool) (r : SolveOut) (j : ℕ) :
    (s.publish i reads r).workers j = if j = i then .finished reads r else s.workers j := by
  unfold Portfolio.publish Portfolio.setWorker
  simp only
  split <;> simp only [Function.update_apply]

/-- The loop of the calling thread is not touched. -/
theorem Portfolio.publish_loop (s : Portfolio) (i : ℕ) (reads : List Bool) (r : SolveOut) :
    (s.publish i reads r).created = s.created ∧ (s.publish i reads r).inlined = s.inlined := by
  unfold Portfolio.publish Portfolio.setWorker
  simp only
  split
  · exact ⟨rfl, rfl⟩
  · exact ⟨rfl, rfl⟩

/-- As long as nothing is published, a search that ends without a verdict has run
out of budget. -/
theorem outcome_unread (hm : ModelOK m) (hreads : true ∉ reads)
    (hr : solveCore mem (workerArgs m decisionBudget i reads) = some r)
    (hv : ¬(r.result = .satisfiable ∨ r.result = .unsatisfiable)) : r.result = .budgetExceeded := by
  unfold workerArgs at hr
  rw [getD_false hreads, solveCore_unread] at hr
  obtain ⟨r', hr', -, -, herr, -⟩ := solveCore_spec mem
    (a := ⟨m, decisionBudget, none, i % 2 = 1, i / 2 % 2 = 1⟩) hm.inRange (clauses_of_varCount hm)
  rw [hr, Option.some.injEq] at hr'
  subst hr'
  have hne := herr rfl
  cases hres : r.result with
  | satisfiable => exact absurd (Or.inl hres) hv
  | unsatisfiable => exact absurd (Or.inr hres) hv
  | budgetExceeded => rfl
  | error => exact absurd hres hne

theorem PortfolioOK.publish (hm : ModelOK m) (h : PortfolioOK mem m decisionBudget threads s)
    (hi : s.workers i = .searching reads) (hr : solveCore mem (workerArgs m decisionBudget i reads) = some r) :
    PortfolioOK mem m decisionBudget threads (s.publish i reads r) := by
  have hw := Portfolio.publish_workers s i reads r
  obtain ⟨hcreated, hinlined⟩ := Portfolio.publish_loop s i reads r
  have hfinal : (s.publish i reads r).final = s.final ∧ (s.publish i reads r).published = s.published ∧
        (s.publish i reads r).cancel = s.cancel ∧
        (s.final = none → ¬(r.result = .satisfiable ∨ r.result = .unsatisfiable)) ∨
      (r.result = .satisfiable ∨ r.result = .unsatisfiable) ∧ s.final = none ∧
        (s.publish i reads r).final = some r ∧ (s.publish i reads r).cancel = true ∧
        (s.publish i reads r).published = s.published ++ [(i, r)] := by
    unfold Portfolio.publish Portfolio.setWorker
    simp only
    split
    · rename_i hc
      exact Or.inr ⟨hc.1, hc.2, rfl, rfl, rfl⟩
    · rename_i hc
      exact Or.inl ⟨rfl, rfl, rfl, fun hf hv => hc ⟨hv, hf⟩⟩
  -- the worker was searching, so those that had finished are others
  have hother : ∀ j reads' r', s.workers j = .finished reads' r' → j ≠ i := by
    rintro j reads' r' hj rfl
    rw [hi] at hj
    exact absurd hj (by simp)
  refine ⟨?_, by rw [hcreated]; exact h.created, by rw [hcreated, hinlined]; exact h.inlined, ?_, ?_, ?_, ?_, ?_⟩
  · intro j
    rw [hw, hcreated]
    by_cases hj : j = i
    · have := h.waiting i
      rw [hi] at this
      simpa [hj] using this
    · rw [if_neg hj]; exact h.waiting j
  · rcases hfinal with ⟨hf, -, hc, -⟩ | ⟨-, -, hf, hc, -⟩
    · rw [hf, hc]; exact h.cancel
    · rw [hf, hc]; rfl
  · intro j reads' hj
    rw [hw] at hj
    split at hj
    · exact absurd hj (by simp)
    · refine ⟨(h.reads j reads' hj).1, ?_⟩
      intro hf'
      rcases hfinal with ⟨hf, -⟩ | ⟨-, -, hf, -⟩
      · exact (h.reads j reads' hj).2 (hf ▸ hf')
      · rw [hf] at hf'; exact absurd hf' (by simp)
  · intro j reads' r' hj
    rw [hw] at hj
    split at hj
    · rename_i hji
      obtain ⟨rfl, rfl⟩ := Worker.finished.inj hj
      rw [hji]; exact hr
    · exact h.outcome j reads' r' hj
  · intro hf'
    rcases hfinal with ⟨hf, hp, -, hnv⟩ | ⟨-, -, hf, -⟩
    · rw [hf] at hf'
      refine ⟨hp.trans (h.unset hf').1, ?_⟩
      intro j reads' r' hj
      rw [hw] at hj
      split at hj
      · obtain ⟨rfl, rfl⟩ := Worker.finished.inj hj
        exact outcome_unread hm ((h.reads i reads hi).2 hf') hr (hnv hf')
      · exact (h.unset hf').2 j reads' r' hj
    · rw [hf] at hf'; exact absurd hf' (by simp)
  · intro r' hr'
    rcases hfinal with ⟨hf, hp, -, -⟩ | ⟨hv, hnone, hf, -, hp⟩
    · rw [hf] at hr'
      obtain ⟨hv, j, reads', hpub, hj⟩ := h.set r' hr'
      refine ⟨hv, j, reads', hp.trans hpub, ?_⟩
      rw [hw, if_neg (hother j reads' r' hj)]
      exact hj
    · rw [hf, Option.some.injEq] at hr'
      subst hr'
      refine ⟨hv, i, reads, by rw [hp, (h.unset hnone).1, List.nil_append], ?_⟩
      rw [hw, if_pos rfl]

/-- **Every step keeps the invariant.** -/
theorem portfolioStep_ok (hm : ModelOK m) (h : PortfolioOK mem m decisionBudget threads s)
    (hs : PortfolioStep mem m decisionBudget threads s s') : PortfolioOK mem m decisionBudget threads s' := by
  cases hs with
  | spawn hin hlt => exact h.create hlt (by simp [Portfolio.setWorker, hin])
  | runInline hin hlt => exact h.create hlt (by simp)
  | resume _ _ => exact ⟨h.waiting, h.created, by simp, h.cancel, h.reads, h.outcome, h.unset, h.set⟩
  | poll value hi hlt hval => exact h.poll hi hlt hval
  | finish hi _ hr => exact h.publish hm hi hr

theorem portfolioRun_ok (hm : ModelOK m) (h : PortfolioOK mem m decisionBudget threads s)
    (hrun : PortfolioRun mem m decisionBudget threads s s') : PortfolioOK mem m decisionBudget threads s' := by
  induction hrun with
  | refl => exact h
  | tail _ hs ih => exact portfolioStep_ok hm ih hs

/-! ## Every run ends -/

/-- The steps a worker still has before it, at most, if it reads the flag `polls`
times. -/
def Worker.left (polls : ℕ) : Worker → ℕ
  | .waiting => polls + 3
  | .searching reads => polls + 1 - reads.length
  | .finished _ _ => 0

theorem Worker.left_searching (polls : ℕ) (reads : List Bool) :
    (Worker.searching reads).left polls = polls + 1 - reads.length := rfl

theorem Worker.left_finished (polls : ℕ) (reads : List Bool) (r : SolveOut) :
    (Worker.finished reads r).left polls = 0 := rfl

def Portfolio.left (polls threads : ℕ) (s : Portfolio) : ℕ :=
  (∑ i ∈ Finset.range threads, (s.workers i).left polls) + if s.inlined.isSome then 1 else 0

/-- Changing one worker changes one term of the sum. -/
theorem sum_left_update (polls : ℕ) (workers : ℕ → Worker) {w : Worker} (hi : i < threads) :
    (∑ j ∈ Finset.range threads, (Function.update workers i w j).left polls) + (workers i).left polls =
      (∑ j ∈ Finset.range threads, (workers j).left polls) + w.left polls := by
  have hmem : i ∈ Finset.range threads := Finset.mem_range.2 hi
  rw [← Finset.add_sum_erase _ _ hmem, ← Finset.add_sum_erase _ (fun j => (workers j).left polls) hmem]
  have hrest : ∑ j ∈ (Finset.range threads).erase i, (Function.update workers i w j).left polls =
      ∑ j ∈ (Finset.range threads).erase i, (workers j).left polls := by
    refine Finset.sum_congr rfl ?_
    intro j hj
    rw [Function.update_of_ne (Finset.ne_of_mem_erase hj)]
  rw [hrest, Function.update_self]
  omega

/-- **Every step uses something up.** -/
theorem portfolioStep_left (h : PortfolioOK mem m decisionBudget threads s)
    (hs : PortfolioStep mem m decisionBudget threads s s') :
    s'.left (pollBound m) threads < s.left (pollBound m) threads := by
  unfold Portfolio.left
  cases hs with
  | spawn hin hlt =>
    have hsum := sum_left_update (pollBound m) s.workers (w := .searching []) hlt
    have hw : (s.workers s.created).left (pollBound m) = pollBound m + 3 := by
      rw [(h.waiting s.created).2 le_rfl]; rfl
    rw [hw, Worker.left_searching, List.length_nil] at hsum
    simp only [Portfolio.create, Portfolio.setWorker, hin]
    omega
  | runInline hin hlt =>
    have hsum := sum_left_update (pollBound m) s.workers (w := .searching []) hlt
    have hw : (s.workers s.created).left (pollBound m) = pollBound m + 3 := by
      rw [(h.waiting s.created).2 le_rfl]; rfl
    rw [hw, Worker.left_searching, List.length_nil] at hsum
    simp only [Portfolio.create, Portfolio.setWorker, hin, Option.isSome_some, if_true, Option.isSome_none,
      Bool.false_eq_true, if_false]
    omega
  | resume hin _ => simp [hin]
  | @poll i reads value hi hlt _ =>
    have hi' : i < threads := h.lt (by simp [hi])
    have hsum := sum_left_update (pollBound m) s.workers (w := .searching (reads ++ [value])) hi'
    have hbound : pollCount (workerArgs m decisionBudget i reads) ≤ pollBound m := pollCount_le _
    rw [hi, Worker.left_searching, Worker.left_searching, List.length_append, List.length_singleton] at hsum
    refine Nat.add_lt_add_right ?_ _
    simp only [Portfolio.setWorker]
    omega
  | @finish i reads r hi _ _ =>
    have hi' : i < threads := h.lt (by simp [hi])
    have hsum := sum_left_update (pollBound m) s.workers (w := .finished reads r) hi'
    have hle := (h.reads i reads hi).1
    have hpub : (s.publish i reads r).workers = Function.update s.workers i (.finished reads r) := by
      funext j
      rw [Portfolio.publish_workers, Function.update_apply]
    rw [hi, Worker.left_searching, Worker.left_finished] at hsum
    rw [hpub, (Portfolio.publish_loop s i reads r).2]
    omega

/-- A search that has not finished can go on. -/
theorem searching_step (mem : Ptr → Metadata) (hm : ModelOK m) (hi : s.workers i = .searching reads) :
    ∃ s', PortfolioStep mem m decisionBudget threads s s' := by
  by_cases hlt : reads.length < pollCount (workerArgs m decisionBudget i reads)
  · exact ⟨_, PortfolioStep.poll false hi hlt (by simp)⟩
  · obtain ⟨r, hr, -⟩ := solveCore_decides mem hm decisionBudget (some fun k => reads.getD k false)
      (i % 2 = 1) (i / 2 % 2 = 1)
    exact ⟨_, PortfolioStep.finish hi (by omega) hr⟩

/-- **No deadlock**: until all threads are joined, some thread can take a step. -/
theorem portfolio_progress (hm : ModelOK m) (h : PortfolioOK mem m decisionBudget threads s)
    (hj : ¬s.Joined threads) : ∃ s', PortfolioStep mem m decisionBudget threads s s' := by
  cases hin : s.inlined with
  | some i =>
    cases hi : s.workers i with
    | waiting =>
      have := (h.waiting i).1 hi
      have := h.inlined i hin
      omega
    | searching reads => exact searching_step mem hm hi
    | finished reads r => exact ⟨_, PortfolioStep.resume hin hi⟩
  | none =>
    by_cases hlt : s.created < threads
    · exact ⟨_, PortfolioStep.spawn hin hlt⟩
    · have hcreated : s.created = threads := le_antisymm h.created (by omega)
      -- all are created, so one that has not finished is searching
      obtain ⟨i, hi, hne⟩ : ∃ i < threads, ¬∃ reads r, s.workers i = .finished reads r := by
        by_contra hall
        push Not at hall
        exact hj ⟨hcreated, hin, hall⟩
      cases hw : s.workers i with
      | waiting =>
        have := (h.waiting i).1 hw
        omega
      | searching reads => exact searching_step mem hm hw
      | finished reads r => exact absurd ⟨reads, r, hw⟩ hne

/-- **Every run can be completed.** -/
theorem portfolio_returns (hm : ModelOK m) : ∀ (k : ℕ) (s : Portfolio), PortfolioOK mem m decisionBudget threads s →
    s.left (pollBound m) threads ≤ k →
    ∃ s', PortfolioRun mem m decisionBudget threads s s' ∧ s'.Joined threads := by
  intro k
  induction k with
  | zero =>
    intro s h hk
    by_cases hj : s.Joined threads
    · exact ⟨s, ReflTransGen.refl, hj⟩
    · obtain ⟨s₁, hs⟩ := portfolio_progress hm h hj
      have := portfolioStep_left h hs
      omega
  | succ k ih =>
    intro s h hk
    by_cases hj : s.Joined threads
    · exact ⟨s, ReflTransGen.refl, hj⟩
    · obtain ⟨s₁, hs⟩ := portfolio_progress hm h hj
      have hlt := portfolioStep_left h hs
      obtain ⟨s', hrun, hj'⟩ := ih s₁ (portfolioStep_ok hm h hs) (by omega)
      exact ⟨s', ReflTransGen.head hs hrun, hj'⟩

/-! ## The order in which the workers finish -/

theorem satWorkers_congr {reads reads' : ℕ → ℕ → Bool} : ∀ (order : List ℕ) (final : Option SolveOut),
    (∀ i ∈ order, reads i = reads' i) →
    satWorkers mem m decisionBudget reads order final = satWorkers mem m decisionBudget reads' order final := by
  intro order
  induction order with
  | nil => intro final _; rfl
  | cons i order ih =>
    intro final h
    have hi : satWorker mem m decisionBudget reads i final = satWorker mem m decisionBudget reads' i final := by
      unfold satWorker
      rw [h i List.mem_cons_self]
    unfold satWorkers
    rw [hi]
    cases satWorker mem m decisionBudget reads' i final with
    | none => rfl
    | some final' => exact ih final' fun j hj => h j (List.mem_cons_of_mem _ hj)

theorem satWorkers_snoc {reads : ℕ → ℕ → Bool} (i : ℕ) : ∀ (order : List ℕ) (final final' : Option SolveOut),
    satWorkers mem m decisionBudget reads order final = some final' →
    satWorkers mem m decisionBudget reads (order ++ [i]) final = satWorker mem m decisionBudget reads i final' := by
  intro order
  induction order with
  | nil =>
    intro final final' h
    simp only [satWorkers, Option.some.injEq] at h
    simp only [List.nil_append, satWorkers, h]
    cases satWorker mem m decisionBudget reads i final' <;> rfl
  | cons j order ih =>
    intro final final' h
    rw [List.cons_append]
    unfold satWorkers at h ⊢
    cases hj : satWorker mem m decisionBudget reads j final with
    | none => simp [hj] at h
    | some final₁ =>
      rw [hj] at h
      exact ih final₁ final' h

/-- What a worker has read. -/
def Worker.flag : Worker → ℕ → Bool
  | .waiting => fun _ => false
  | .searching reads => fun k => reads.getD k false
  | .finished reads _ => fun k => reads.getD k false

/-- The workers that have finished, in some order, have left what is there. -/
def FinishedIn (mem : Ptr → Metadata) (m : SatModel) (decisionBudget : ℕ) (s : Portfolio) (order : List ℕ) : Prop :=
  order.Nodup ∧ (∀ i, i ∈ order ↔ ∃ reads r, s.workers i = .finished reads r) ∧
    satWorkers mem m decisionBudget (fun i => (s.workers i).flag) order none = some s.final

/-- A step that leaves the finished workers and the result as they are. -/
theorem FinishedIn.congr {order : List ℕ} (h : FinishedIn mem m decisionBudget s order) (hf : s'.final = s.final)
    (hw : ∀ i reads r, s'.workers i = .finished reads r ↔ s.workers i = .finished reads r) :
    FinishedIn mem m decisionBudget s' order := by
  obtain ⟨hnd, hmem, hrun⟩ := h
  refine ⟨hnd, fun i => by simp only [hmem, hw], ?_⟩
  rw [hf, ← hrun]
  refine satWorkers_congr order none ?_
  intro i hi
  obtain ⟨reads, r, hi⟩ := (hmem i).1 hi
  simp only [hi, (hw i reads r).2 hi]

theorem FinishedIn.finish {order : List ℕ} (hok : PortfolioOK mem m decisionBudget threads s)
    (h : FinishedIn mem m decisionBudget s order) (hi : s.workers i = .searching reads)
    (hr : solveCore mem (workerArgs m decisionBudget i reads) = some r) :
    FinishedIn mem m decisionBudget (s.publish i reads r) (order ++ [i]) := by
  obtain ⟨hnd, hmem, hrun⟩ := h
  have hnew : i ∉ order := by
    intro hin
    obtain ⟨reads', r', hi'⟩ := (hmem i).1 hin
    rw [hi] at hi'
    exact absurd hi' (by simp)
  have hw := Portfolio.publish_workers s i reads r
  -- before anything is published the flag the worker has seen is `false` throughout
  have hflag : (if s.final.isSome then (fun k => reads.getD k false) else fun _ => false) = fun k => reads.getD k false := by
    cases hf : s.final with
    | none => rw [getD_false ((hok.reads i reads hi).2 hf)]; rfl
    | some _ => rfl
  refine ⟨?_, ?_, ?_⟩
  · rw [List.nodup_append]
    exact ⟨hnd, List.nodup_singleton i, by simpa using fun j hj => ne_of_mem_of_not_mem hj hnew⟩
  · intro j
    rw [List.mem_append, List.mem_singleton, hw, hmem]
    by_cases hj : j = i
    · simp [hj]
    · simp [hj]
  · have hbefore : satWorkers mem m decisionBudget (fun j => ((s.publish i reads r).workers j).flag) order none =
        some s.final := by
      rw [← hrun]
      refine satWorkers_congr order none ?_
      intro j hj
      simp only [hw, if_neg (show j ≠ i from fun e => hnew (e ▸ hj))]
    rw [satWorkers_snoc i order none s.final hbefore]
    unfold satWorker
    simp only [hw, if_pos, Worker.flag, hflag]
    unfold workerArgs at hr
    rw [hr]
    simp only
    unfold Portfolio.publish Portfolio.setWorker
    simp only
    cases hf : s.final with
    | none =>
      by_cases hv : r.result = .satisfiable ∨ r.result = .unsatisfiable
      · simp [hv]
      · simp [hv]
    | some r₀ => simp

theorem portfolioStep_finishedIn {order : List ℕ} (hok : PortfolioOK mem m decisionBudget threads s)
    (h : FinishedIn mem m decisionBudget s order) (hs : PortfolioStep mem m decisionBudget threads s s') :
    ∃ order', FinishedIn mem m decisionBudget s' order' := by
  -- creating a worker does not touch one that has finished
  have hcreate : ∀ i reads r, s.create.workers i = .finished reads r ↔ s.workers i = .finished reads r := by
    intro i reads r
    simp only [Portfolio.create, Portfolio.setWorker, Function.update_apply]
    split
    · rename_i hi
      rw [hi, (hok.waiting s.created).2 le_rfl]
      simp
    · exact Iff.rfl
  cases hs with
  | spawn _ _ => exact ⟨order, h.congr rfl hcreate⟩
  | runInline _ _ => exact ⟨order, h.congr rfl hcreate⟩
  | resume _ _ => exact ⟨order, h.congr rfl fun _ _ _ => Iff.rfl⟩
  | @poll i reads value hi _ _ =>
    refine ⟨order, h.congr rfl ?_⟩
    intro j reads' r
    simp only [Portfolio.setWorker, Function.update_apply]
    split
    · rename_i hj
      rw [hj, hi]
      simp
    · exact Iff.rfl
  | finish hi _ hr => exact ⟨_, h.finish hok hi hr⟩

theorem portfolioRun_finishedIn (hm : ModelOK m) (hrun : PortfolioRun mem m decisionBudget threads {} s) :
    ∃ order, FinishedIn mem m decisionBudget s order := by
  induction hrun with
  | refl => exact ⟨[], List.nodup_nil, by simp, rfl⟩
  | tail hrun hs ih =>
    obtain ⟨order, h⟩ := ih
    exact portfolioStep_finishedIn (portfolioRun_ok hm portfolioOK_start hrun) h hs

/-- **Every run of the portfolio is one of `satSolveParallel`**, for the order in
which its workers finished. -/
theorem portfolio_refines (hm : ModelOK m) {threadCount : ℤ} (hcount : 1 < threadCount)
    (hrun : PortfolioRun mem m decisionBudget threadCount.toNat {} s) (hj : s.Joined threadCount.toNat) :
    ∃ sched : Schedule threadCount, satSolveParallel mem m decisionBudget threadCount sched = some s.returned := by
  have hok := portfolioRun_ok hm portfolioOK_start hrun
  obtain ⟨order, hnd, hmem, hfinal⟩ := portfolioRun_finishedIn hm hrun
  have hperm : order.Perm (List.range threadCount.toNat) := by
    rw [List.perm_ext_iff_of_nodup hnd List.nodup_range]
    intro i
    rw [hmem, List.mem_range]
    constructor
    · rintro ⟨reads, r, hi⟩
      exact hok.lt (by simp [hi])
    · intro hi
      exact hj.2.2 i hi
  refine ⟨⟨order, fun i => (s.workers i).flag, hperm⟩, ?_⟩
  unfold satSolveParallel
  rw [if_neg (by omega), hfinal]
  rfl

/-- **The portfolio agrees with the model in every interleaving.** With one thread
it is the sequential search. With more, in every state of every run at most one
result has been published, and the run can be completed; once all threads are
joined the answer decides the model, and either it is the one published result, a
verdict of a worker that was not aborted, or nothing was published and every
worker ran out of budget. -/
theorem portfolio_agrees (hb : SatBuilt mem m) (decisionBudget : ℕ) (threadCount : ℤ) :
    (threadCount ≤ 1 → ∃ r, satSolve mem m decisionBudget = some r ∧ Decides m r ∧ r.result ≠ .error) ∧
    (1 < threadCount → ∀ s, PortfolioRun mem m decisionBudget threadCount.toNat {} s →
      s.published.length ≤ 1 ∧
      (∃ s', PortfolioRun mem m decisionBudget threadCount.toNat s s' ∧ s'.Joined threadCount.toNat) ∧
      (s.Joined threadCount.toNat → Decides m s.returned ∧
        ((∃ i < threadCount.toNat, ∃ reads r, s.workers i = .finished reads r ∧ s.published = [(i, r)] ∧
            s.returned = r ∧ (r.result = .satisfiable ∨ r.result = .unsatisfiable)) ∨
          s.published = [] ∧ s.returned.result = .budgetExceeded ∧
            ∀ i < threadCount.toNat, ∃ reads r, s.workers i = .finished reads r ∧ r.result = .budgetExceeded))) := by
  have hm := satBuilt_ok hb
  refine ⟨?_, ?_⟩
  · intro _
    obtain ⟨r, hr, hsat, hunsat, herr, -⟩ := solveCore_spec mem
      (a := ⟨m, decisionBudget, none, false, false⟩) hm.inRange (clauses_of_varCount hm)
    exact ⟨r, hr, ⟨hsat, hunsat⟩, herr rfl⟩
  · intro hcount s hrun
    have hok := portfolioRun_ok hm portfolioOK_start hrun
    refine ⟨?_, portfolio_returns hm _ s hok le_rfl, ?_⟩
    · cases hf : s.final with
      | none => rw [(hok.unset hf).1]; simp
      | some r =>
        obtain ⟨-, i, reads, hp, -⟩ := hok.set r hf
        rw [hp]; simp
    · intro hj
      have hdec : Decides m s.returned := by
        obtain ⟨sched, hsched⟩ := portfolio_refines hm hcount hrun hj
        obtain ⟨r, hr, hdec⟩ := satSolveParallel_decides mem hm decisionBudget threadCount sched
        rw [hsched, Option.some.injEq] at hr
        rw [hr]; exact hdec
      refine ⟨hdec, ?_⟩
      cases hf : s.final with
      | none =>
        refine Or.inr ⟨(hok.unset hf).1, by simp [Portfolio.returned, hf], ?_⟩
        intro i hi
        obtain ⟨reads, r, hw⟩ := hj.2.2 i hi
        exact ⟨reads, r, hw, (hok.unset hf).2 i reads r hw⟩
      | some r =>
        obtain ⟨hv, i, reads, hp, hw⟩ := hok.set r hf
        exact Or.inl ⟨i, hok.lt (by simp [hw]), reads, r, hw, hp, by simp [Portfolio.returned, hf], hv⟩

/-- Three threads on a model with a forced package. -/
theorem portfolio_agrees_forced :
    ∃ s, PortfolioRun (fun _ => {}) (satModelForce satModelInit 9) 1 3 {} s ∧ s.Joined 3 ∧
      Decides (satModelForce satModelInit 9) s.returned ∧ s.published.length ≤ 1 := by
  have hb : SatBuilt (fun _ => {}) (satModelForce satModelInit 9) := SatBuilt.force 9 SatBuilt.init
  have hagree := (portfolio_agrees hb 1 3).2 (by decide)
  obtain ⟨-, ⟨s, hrun, hj⟩, -⟩ := hagree {} ReflTransGen.refl
  obtain ⟨hlen, -, hend⟩ := hagree s hrun
  exact ⟨s, hrun, hj, (hend hj).1, hlen⟩

end Apg
