import Apg.Lib.Cnf
import Apg.Spec.SatSolve

/-!
# The search decides its clauses

`CtxOK` is the invariant of the search state: the trail holds the assigned
variables, each once. Propagation adds only implied literals (`Grows`), and
`undo_to` takes back what was added since its mark (`undoTo_grows`).

* `dpll_spec`: **the search is sound and complete, and counts its decisions**: at
  most `2 ^ k - 1` where `k` variables are open.
-/

namespace Apg

open Cnf

/-- The clauses of a model. -/
def SatModel.cnf (m : SatModel) : List (List ℤ) := m.clauses.map (·.lits)

/-- Every literal is one of a variable of the model. -/
def SatModel.InRange (m : SatModel) : Prop := ∀ c ∈ m.clauses, ∀ l ∈ c.lits, l ≠ 0 ∧ l.natAbs ≤ m.varCount

/-! ## Scanning a clause -/

/-- What the scan of a clause finds. -/
theorem scanClause_eq (σ : ℕ → ℤ) : ∀ (lits : List ℤ) (k : ℕ) (u : ℤ),
    scanClause σ lits (k, u) =
      if ∃ l ∈ lits, Holds σ l then none
      else some (k + (lits.filter fun l => σ l.natAbs = 0).length,
        ((lits.filter fun l => σ l.natAbs = 0).getLast?).getD u) := by
  intro lits
  induction lits with
  | nil => intro k u; simp [scanClause]
  | cons l lits ih =>
    intro k u
    by_cases h0 : σ l.natAbs = 0
    · have hnot : ¬Holds σ l := holds_open h0
      simp only [scanClause, h0, if_true, ih, List.mem_cons, exists_eq_or_imp, hnot, false_or,
        List.filter_cons, decide_true, List.length_cons, List.getLast?_cons]
      rw [Nat.add_assoc, Nat.add_comm 1]
      rfl
    · by_cases hl : Holds σ l
      · have hl' : (l > 0 ∧ σ l.natAbs = 1) ∨ (l < 0 ∧ σ l.natAbs = -1) := hl
        simp only [scanClause, h0, if_false, hl', if_true, List.mem_cons, exists_eq_or_imp, hl, true_or]
      · have hl' : ¬((l > 0 ∧ σ l.natAbs = 1) ∨ (l < 0 ∧ σ l.natAbs = -1)) := hl
        simp only [scanClause, h0, if_false, hl', ih, List.mem_cons, exists_eq_or_imp, hl, false_or,
          List.filter_cons, decide_false, Bool.false_eq_true]

variable {σ : ℕ → ℤ} {lits : List ℤ} {u : ℤ} {k : ℕ}

theorem scan_none (h : scanClause σ lits (0, 0) = none) : SatBy σ lits := by
  rw [scanClause_eq] at h
  by_contra hn
  rw [if_neg (by exact hn)] at h
  exact absurd h (by simp)

theorem scan_some (h : scanClause σ lits (0, 0) = some (k, u)) :
    (∀ l ∈ lits, ¬Holds σ l) ∧ (lits.filter fun l => σ l.natAbs = 0).length = k ∧
      ((lits.filter fun l => σ l.natAbs = 0).getLast?).getD 0 = u := by
  rw [scanClause_eq] at h
  split at h
  · exact absurd h (by simp)
  · rename_i hno
    simp only [Option.some.injEq, Prod.mk.injEq, Nat.zero_add] at h
    exact ⟨fun l hl hh => hno ⟨l, hl, hh⟩, h.1, h.2⟩

/-- No open literal, and none true: the clause is false. -/
theorem scan_zero (h : scanClause σ lits (0, 0) = some (0, u)) : ∀ l ∈ lits, σ l.natAbs ≠ 0 ∧ ¬Holds σ l := by
  obtain ⟨hno, hlen, -⟩ := scan_some h
  intro l hl
  refine ⟨?_, hno l hl⟩
  intro h0
  have : l ∈ lits.filter fun l => σ l.natAbs = 0 := by simp [hl, h0]
  rw [List.length_eq_zero_iff.1 hlen] at this
  exact absurd this (by simp)

/-- One open literal, and none true. -/
theorem scan_one (h : scanClause σ lits (0, 0) = some (1, u)) :
    u ∈ lits ∧ σ u.natAbs = 0 ∧ ∀ l ∈ lits, l = u ∨ σ l.natAbs ≠ 0 ∧ ¬Holds σ l := by
  obtain ⟨hno, hlen, hlast⟩ := scan_some h
  obtain ⟨w, hw⟩ := List.length_eq_one_iff.1 hlen
  rw [hw] at hlast
  have hwu : w = u := by simpa using hlast
  subst hwu
  have hmem : w ∈ lits.filter fun l => σ l.natAbs = 0 := by rw [hw]; simp
  have hmem' := List.mem_filter.1 hmem
  refine ⟨hmem'.1, by simpa using hmem'.2, ?_⟩
  intro l hl
  by_cases h0 : σ l.natAbs = 0
  · have : l ∈ lits.filter fun l => σ l.natAbs = 0 := by simp [hl, h0]
    rw [hw] at this
    exact Or.inl (by simpa using this)
  · exact Or.inr ⟨h0, hno l hl⟩

/-- Two open literals or more. -/
theorem scan_many (h : scanClause σ lits (0, 0) = some (k + 2, u)) : ∃ l ∈ lits, σ l.natAbs = 0 := by
  obtain ⟨-, hlen, -⟩ := scan_some h
  have hpos : 0 < (lits.filter fun l => σ l.natAbs = 0).length := by omega
  obtain ⟨l, hl⟩ := List.exists_mem_of_length_pos hpos
  have := List.mem_filter.1 hl
  exact ⟨l, this.1, by simpa using this.2⟩

/-! ## The invariant -/

/-- The invariant of the search state. -/
structure CtxOK (n : ℕ) (ctx : SolveCtx) : Prop where
  vals : ∀ v, ctx.assign v = 0 ∨ ctx.assign v = 1 ∨ ctx.assign v = -1
  trail : ∀ v, v ∈ ctx.trail ↔ ctx.assign v ≠ 0
  nodup : ctx.trail.Nodup
  range : ∀ v ∈ ctx.trail, 1 ≤ v ∧ v ≤ n

variable {n : ℕ} {f : List (List ℤ)} {ctx ctx' ctx'' : SolveCtx}

theorem initCtx_ok : CtxOK n initCtx := ⟨by simp [initCtx], by simp [initCtx], by simp [initCtx], by simp [initCtx]⟩

theorem CtxOK.length_le (h : CtxOK n ctx) : ctx.trail.length ≤ n := by
  have hsub : ctx.trail.toFinset ⊆ Finset.Icc 1 n := by
    intro v hv
    exact Finset.mem_Icc.2 (h.range v (List.mem_toFinset.1 hv))
  have := Finset.card_le_card hsub
  rw [List.toFinset_card_of_nodup h.nodup, Nat.card_Icc] at this
  omega

/-- A variable pushed with a value keeps the invariant. -/
theorem CtxOK.push (h : CtxOK n ctx) {v : ℕ} {x : ℤ} (hv : ctx.assign v = 0) (h1 : 1 ≤ v) (hn : v ≤ n)
    (hx : x = 1 ∨ x = -1) (ha : ctx'.assign = Function.update ctx.assign v x) (ht : ctx'.trail = v :: ctx.trail) :
    CtxOK n ctx' := by
  have hvt : v ∉ ctx.trail := by rw [h.trail]; simpa using hv
  refine ⟨?_, ?_, ?_, ?_⟩
  · intro w
    rw [ha]
    by_cases hw : w = v
    · subst hw; rw [Function.update_self]; exact Or.inr hx
    · rw [Function.update_of_ne hw]; exact h.vals w
  · intro w
    rw [ha, ht, List.mem_cons]
    by_cases hw : w = v
    · subst hw
      rw [Function.update_self]
      have : x ≠ 0 := by omega
      simp [this]
    · rw [Function.update_of_ne hw, ← h.trail]
      simp [hw]
  · rw [ht]; exact List.nodup_cons.2 ⟨hvt, h.nodup⟩
  · intro w hw
    rw [ht] at hw
    rcases List.mem_cons.1 hw with rfl | hw
    · exact ⟨h1, hn⟩
    · exact h.range w hw

/-- An open variable leaves room on the trail. -/
theorem CtxOK.length_lt (h : CtxOK n ctx) {v : ℕ} (hv : ctx.assign v = 0) (h1 : 1 ≤ v) (hn : v ≤ n) :
    ctx.trail.length < n := by
  have hpush : CtxOK n (decideVar ctx v 1) := h.push hv h1 hn (Or.inl rfl) rfl rfl
  have := hpush.length_le
  simp only [decideVar, List.length_cons] at this
  omega

/-- `ctx'` has the trail of `ctx` below its own, and assigns nothing else. -/
structure Above (ctx ctx' : SolveCtx) : Prop where
  trail : ∃ new, ctx'.trail = new ++ ctx.trail ∧ ∀ v, v ∉ new → ctx'.assign v = ctx.assign v

theorem Above.refl (ctx : SolveCtx) : Above ctx ctx := ⟨[], rfl, fun _ _ => rfl⟩

theorem Above.trans (h1 : Above ctx ctx') (h2 : Above ctx' ctx'') : Above ctx ctx'' := by
  obtain ⟨l₁, t₁, a₁⟩ := h1.trail
  obtain ⟨l₂, t₂, a₂⟩ := h2.trail
  refine ⟨l₂ ++ l₁, by rw [t₂, t₁, List.append_assoc], ?_⟩
  intro v hv
  rw [List.mem_append, not_or] at hv
  rw [a₂ v hv.1, a₁ v hv.2]

theorem Above.push {v : ℕ} {x : ℤ} (ha : ctx'.assign = Function.update ctx.assign v x)
    (ht : ctx'.trail = v :: ctx.trail) : Above ctx ctx' := by
  refine ⟨[v], by simp [ht], ?_⟩
  intro w hw
  rw [ha, Function.update_of_ne (by simpa using hw)]

theorem Above.length_le (h : Above ctx ctx') : ctx.trail.length ≤ ctx'.trail.length := by
  obtain ⟨l, t, -⟩ := h.trail
  rw [t, List.length_append]; omega

/-- What is open above was open below. -/
theorem Above.open_below (h : Above ctx ctx') (h' : CtxOK n ctx') {v : ℕ} (hv : ctx'.assign v = 0) :
    ctx.assign v = 0 := by
  obtain ⟨new, ht, ha⟩ := h.trail
  have hnot : v ∉ ctx'.trail := by rw [h'.trail]; simpa using hv
  rw [ht, List.mem_append, not_or] at hnot
  exact (ha v hnot.1).symm.trans hv

theorem Above.extends (h : Above ctx ctx') (h₀ : CtxOK n ctx) (h' : CtxOK n ctx') :
    Extends ctx'.assign ctx.assign := by
  obtain ⟨new, ht, ha⟩ := h.trail
  intro v hv
  have hnd := h'.nodup
  rw [ht] at hnd
  have hold : v ∈ ctx.trail := (h₀.trail v).2 hv
  exact ha v fun hnew => (List.nodup_append.1 hnd).2.2 v hnew v hold rfl

/-- What a step leaves alone of the counters and flags. -/
structure SameFlags (ctx ctx' : SolveCtx) : Prop where
  decisions : ctx'.decisions = ctx.decisions
  timedOut : ctx'.timedOut = ctx.timedOut
  aborted : ctx'.aborted = ctx.aborted

theorem SameFlags.refl (ctx : SolveCtx) : SameFlags ctx ctx := ⟨rfl, rfl, rfl⟩

theorem SameFlags.trans (h1 : SameFlags ctx ctx') (h2 : SameFlags ctx' ctx'') : SameFlags ctx ctx'' :=
  ⟨h2.decisions.trans h1.decisions, h2.timedOut.trans h1.timedOut, h2.aborted.trans h1.aborted⟩

/-! ## Undoing -/

theorem undoLoop_append (old : List ℕ) : ∀ (new : List ℕ) (ctx : SolveCtx), ctx.trail = new ++ old →
    (undoLoop old.length (new ++ old) ctx).trail = old ∧
      (∀ v, (undoLoop old.length (new ++ old) ctx).assign v = if v ∈ new then 0 else ctx.assign v) ∧
      SameFlags ctx (undoLoop old.length (new ++ old) ctx) := by
  intro new
  induction new with
  | nil =>
    intro ctx ht
    -- the mark is reached
    have hstop : undoLoop old.length old ctx = ctx := by
      cases old with
      | nil => rfl
      | cons v old => simp [undoLoop]
    simp only [List.nil_append] at ht ⊢
    rw [hstop]
    exact ⟨ht, by simp, SameFlags.refl ctx⟩
  | cons w new ih =>
    intro ctx ht
    have hlen : (new ++ old).length + 1 > old.length := by rw [List.length_append]; omega
    simp only [List.cons_append, undoLoop, if_pos hlen]
    obtain ⟨h1, h2, h3⟩ := ih { ctx with
      assign := Function.update ctx.assign w 0
      antecedent := Function.update ctx.antecedent w none
      trail := new ++ old } rfl
    refine ⟨h1, ?_, ⟨h3.decisions, h3.timedOut, h3.aborted⟩⟩
    intro v
    rw [h2 v]
    by_cases hvw : v = w
    · subst hvw; simp
    · simp [hvw]

/-- **`undo_to` takes back what was added** since the trail had its length. -/
theorem undoTo_above (h : CtxOK n ctx) (h' : CtxOK n ctx') (ha : Above ctx ctx') :
    (undoTo ctx.trail.length ctx').trail = ctx.trail ∧ (undoTo ctx.trail.length ctx').assign = ctx.assign ∧
      SameFlags ctx' (undoTo ctx.trail.length ctx') := by
  obtain ⟨new, ht, hassign⟩ := ha.trail
  obtain ⟨h1, h2, h3⟩ := undoLoop_append ctx.trail new ctx' ht
  unfold undoTo
  rw [ht]
  refine ⟨h1, ?_, h3⟩
  funext v
  rw [h2 v]
  split
  · rename_i hv
    -- a variable on the upper part is not on the lower one
    have hnd := h'.nodup
    rw [ht] at hnd
    have hold : v ∉ ctx.trail := fun hold => (List.nodup_append.1 hnd).2.2 v hv v hold rfl
    rw [h.trail, not_not] at hold
    exact hold.symm
  · rename_i hv
    exact hassign v hv

theorem CtxOK.congr (h : CtxOK n ctx) (ht : ctx'.trail = ctx.trail) (ha : ctx'.assign = ctx.assign) :
    CtxOK n ctx' :=
  ⟨by rw [ha]; exact h.vals, by rw [ha, ht]; exact h.trail, by rw [ht]; exact h.nodup, by rw [ht]; exact h.range⟩

/-! ## Propagation -/

/-- A step of propagation: literals are added that every model has. -/
structure Grows (n : ℕ) (f : List (List ℤ)) (ctx ctx' : SolveCtx) : Prop where
  above : Above ctx ctx'
  flags : SameFlags ctx ctx'
  refutes : Refuted n f ctx'.assign → Refuted n f ctx.assign

theorem Grows.refl (ctx : SolveCtx) : Grows n f ctx ctx := ⟨Above.refl ctx, SameFlags.refl ctx, id⟩

theorem Grows.trans (h1 : Grows n f ctx ctx') (h2 : Grows n f ctx' ctx'') : Grows n f ctx ctx'' :=
  ⟨h1.above.trans h2.above, h1.flags.trans h2.flags, fun h => h1.refutes (h2.refutes h)⟩

/-- A clause the propagation has nothing to do for. -/
def Settled (σ : ℕ → ℤ) (c : SatClause) : Prop := SatBy σ c.lits ∨ ∃ l ∈ c.lits, σ l.natAbs = 0

variable {m : SatModel}

theorem assignUnit_grows (hm : m.InRange) (h : CtxOK m.varCount ctx) {clause : SatClause} (hc : clause ∈ m.clauses)
    {lit : ℤ} (hscan : scanClause ctx.assign clause.lits (0, 0) = some (1, lit)) (c : ℕ) :
    CtxOK m.varCount (assignUnit ctx lit c) ∧ Grows m.varCount m.cnf ctx (assignUnit ctx lit c) := by
  obtain ⟨hmem, hopen, hunit⟩ := scan_one hscan
  obtain ⟨hne, hle⟩ := hm clause hc lit hmem
  have hassign : (assignUnit ctx lit c).assign = Function.update ctx.assign lit.natAbs (sign lit) := rfl
  refine ⟨h.push hopen (by omega) hle ?_ hassign rfl, Above.push hassign rfl, ⟨rfl, rfl, rfl⟩, ?_⟩
  · unfold sign; split
    · exact Or.inl rfl
    · exact Or.inr rfl
  · rw [hassign]
    exact refuted_of_unit (List.mem_map_of_mem hc) hne hunit

/-- What one pass over the clauses `rest` gives: it stops at a clause that refutes
the assignment, or it ends; if nothing changed, every clause is settled. -/
def PassSpec (m : SatModel) (rest : List SatClause) (changed : Bool) (ctx : SolveCtx) :
    Except SolveCtx (Bool × SolveCtx) → Prop
  | .error ctx' => CtxOK m.varCount ctx' ∧ Grows m.varCount m.cnf ctx ctx' ∧ Refuted m.varCount m.cnf ctx'.assign
  | .ok (changed', ctx') => CtxOK m.varCount ctx' ∧ Grows m.varCount m.cnf ctx ctx' ∧
      (changed' = true → changed = true ∨ ctx.trail.length < ctx'.trail.length) ∧
      (changed' = false → ctx' = ctx ∧ changed = false ∧ ∀ clause ∈ rest, Settled ctx.assign clause)

/-- A settled clause is skipped. -/
theorem PassSpec.skip {rest : List SatClause} {changed : Bool} {r : Except SolveCtx (Bool × SolveCtx)}
    {clause : SatClause} (hset : Settled ctx.assign clause) (h : PassSpec m rest changed ctx r) :
    PassSpec m (clause :: rest) changed ctx r := by
  match r, h with
  | .error ctx', h => exact h
  | .ok (changed', ctx'), ⟨k1, k2, k3, k4⟩ =>
    refine ⟨k1, k2, k3, ?_⟩
    intro hch
    obtain ⟨l1, l2, l3⟩ := k4 hch
    refine ⟨l1, l2, ?_⟩
    intro cl hcl
    rcases List.mem_cons.1 hcl with rfl | hcl
    · exact hset
    · exact l3 cl hcl

/-- **One pass over the clauses.** -/
theorem propagatePass_spec (hm : m.InRange) : ∀ (rest : List SatClause), rest ⊆ m.clauses →
    ∀ (c : ℕ) (changed : Bool) (ctx : SolveCtx), CtxOK m.varCount ctx →
    PassSpec m rest changed ctx (propagatePass m c rest (changed, ctx)) := by
  intro rest
  induction rest with
  | nil =>
    intro _ c changed ctx h
    exact ⟨h, Grows.refl ctx, fun h => Or.inl h, fun h => ⟨rfl, h, by simp⟩⟩
  | cons clause rest ih =>
    intro hsub c changed ctx h
    have hclause : clause ∈ m.clauses := hsub List.mem_cons_self
    have hrest : rest ⊆ m.clauses := fun x hx => hsub (List.mem_cons_of_mem _ hx)
    unfold propagatePass
    match hscan : scanClause ctx.assign clause.lits (0, 0) with
    | none => exact (ih hrest (c + 1) changed ctx h).skip (Or.inl (scan_none hscan))
    -- a clause with no literal left refutes the assignment
    | some (0, lit) =>
      refine ⟨h.congr rfl rfl, ⟨⟨[], rfl, fun _ _ => rfl⟩, ⟨rfl, rfl, rfl⟩, id⟩, ?_⟩
      exact refuted_of_false (List.mem_map_of_mem hclause) (scan_zero hscan)
    | some (1, lit) =>
      obtain ⟨hok, hgrow⟩ := assignUnit_grows hm h hclause hscan c
      -- the forced literal keeps every model, and the trail gets longer
      have hpass := ih hrest (c + 1) true (assignUnit ctx lit c) hok
      simp only
      match hres : propagatePass m (c + 1) rest (true, assignUnit ctx lit c) with
      | .error ctx' =>
        rw [hres] at hpass
        exact ⟨hpass.1, hgrow.trans hpass.2.1, hpass.2.2⟩
      | .ok (changed', ctx') =>
        rw [hres] at hpass
        obtain ⟨k1, k2, -, k4⟩ := hpass
        refine ⟨k1, hgrow.trans k2, ?_, fun hch => absurd (k4 hch).2.1 (by simp)⟩
        intro _
        have hle := k2.above.length_le
        simp only [assignUnit, List.length_cons] at hle
        exact Or.inr (by omega)
    | some (k + 2, lit) => exact (ih hrest (c + 1) changed ctx h).skip (Or.inr (scan_many hscan))

/-- **Propagation ends**, in a refuted assignment or with every clause settled. -/
theorem propagate_spec (hm : m.InRange) : ∀ (fuel : ℕ) (ctx : SolveCtx), CtxOK m.varCount ctx →
    m.varCount - ctx.trail.length < fuel →
    ∃ b ctx', propagate m fuel ctx = some (b, ctx') ∧ CtxOK m.varCount ctx' ∧
      Grows m.varCount m.cnf ctx ctx' ∧ (b = false → Refuted m.varCount m.cnf ctx'.assign) ∧
      (b = true → ∀ clause ∈ m.clauses, Settled ctx'.assign clause) := by
  intro fuel
  induction fuel with
  | zero => intro ctx _ hfuel; exact absurd hfuel (by omega)
  | succ fuel ih =>
    intro ctx h hfuel
    have hpass := propagatePass_spec hm m.clauses (List.Subset.refl _) 0 false ctx h
    unfold propagate
    match hres : propagatePass m 0 m.clauses (false, ctx) with
    | .error ctx' =>
      rw [hres] at hpass
      obtain ⟨k1, k2, k3⟩ := hpass
      exact ⟨false, ctx', rfl, k1, k2, fun _ => k3, by simp⟩
    | .ok (true, ctx') =>
      rw [hres] at hpass
      obtain ⟨k1, k2, k3, -⟩ := hpass
      -- a pass that changed something has used up a variable
      have hlen : ctx.trail.length < ctx'.trail.length := by simpa using k3 rfl
      have hle := k1.length_le
      obtain ⟨b, ctx'', l1, l2, l3, l4, l5⟩ := ih ctx' k1 (by omega)
      exact ⟨b, ctx'', l1, l2, k2.trans l3, l4, l5⟩
    | .ok (false, ctx') =>
      rw [hres] at hpass
      obtain ⟨k1, k2, -, k4⟩ := hpass
      -- a pass that changed nothing has looked at every clause
      obtain ⟨rfl, -, hset⟩ := k4 rfl
      exact ⟨true, ctx', rfl, k1, k2, by simp, fun _ => hset⟩

/-! ## The search -/

theorem pickVar_some {a : SolveArgs} {v : ℕ} (h : pickVar a ctx = some v) :
    ctx.assign v = 0 ∧ 1 ≤ v ∧ v ≤ a.model.varCount := by
  unfold pickVar at h
  have hv := List.find?_some h
  have hmem := List.mem_of_find?_eq_some h
  have hmem' : v ∈ (List.range a.model.varCount).map (· + 1) := by
    split at hmem
    · exact List.mem_reverse.1 hmem
    · exact hmem
  obtain ⟨w, hw, rfl⟩ := List.mem_map.1 hmem'
  have := List.mem_range.1 hw
  exact ⟨by simpa using hv, by omega, by omega⟩

theorem pickVar_none {a : SolveArgs} (h : pickVar a ctx = none) :
    ∀ v, 1 ≤ v → v ≤ a.model.varCount → ctx.assign v ≠ 0 := by
  intro v h1 hn
  unfold pickVar at h
  rw [List.find?_eq_none] at h
  have hmem : v ∈ (List.range a.model.varCount).map (· + 1) :=
    List.mem_map.2 ⟨v - 1, List.mem_range.2 (by omega), by omega⟩
  have hmem' : v ∈ if a.reverseOrder then ((List.range a.model.varCount).map (· + 1)).reverse
      else (List.range a.model.varCount).map (· + 1) := by
    split
    · exact List.mem_reverse.2 hmem
    · exact hmem
  simpa using h v hmem'

/-- What a search from `ctx` gives. -/
structure DpllSpec (a : SolveArgs) (ctx : SolveCtx) (b : Bool) (ctx' : SolveCtx) : Prop where
  ok : CtxOK a.model.varCount ctx'
  sat : b = true → Total a.model.varCount ctx'.assign ∧ Models ctx'.assign a.model.cnf ∧
    ctx'.timedOut = false ∧ ctx'.aborted = false
  restored : b = false → ctx'.trail = ctx.trail ∧ ctx'.assign = ctx.assign
  unsat : b = false → ctx'.timedOut = false → ctx'.aborted = false →
    Refuted a.model.varCount a.model.cnf ctx.assign
  aborted : a.cancel = none → ctx'.aborted = false
  budget : ctx.decisions + (2 ^ (a.model.varCount - ctx.trail.length) - 1) ≤ a.budget →
    ctx'.timedOut = false ∧
      ctx'.decisions ≤ ctx.decisions + (2 ^ (a.model.varCount - ctx.trail.length) - 1)

/-- Once every clause is settled and every variable assigned, the clauses hold. -/
theorem models_of_settled {a : SolveArgs} (hm : a.model.InRange) (h : CtxOK a.model.varCount ctx)
    (hset : ∀ clause ∈ a.model.clauses, Settled ctx.assign clause) (hpick : pickVar a ctx = none) :
    Total a.model.varCount ctx.assign ∧ Models ctx.assign a.model.cnf := by
  have hall := pickVar_none hpick
  refine ⟨?_, ?_⟩
  · intro v h1 hn
    have := hall v h1 hn
    have := h.vals v
    omega
  · intro c hc
    obtain ⟨clause, hclause, rfl⟩ := List.mem_map.1 hc
    rcases hset clause hclause with hsat | ⟨l, hl, hopen⟩
    · exact hsat
    · obtain ⟨hne, hle⟩ := hm clause hclause l hl
      exact absurd hopen (hall l.natAbs (by omega) hle)

/-- A failed branch is taken back to where the call started, whatever was
propagated before the decision. -/
theorem undoTo_branch {a : SolveArgs} {ctx₀ ctx₃ : SolveCtx} {v : ℕ} {x : ℤ} (h₀ : CtxOK a.model.varCount ctx₀)
    (habove : Above ctx₀ ctx) (hspec : DpllSpec a (decideVar ctx v x) false ctx₃) :
    (undoTo ctx₀.trail.length ctx₃).trail = ctx₀.trail ∧ (undoTo ctx₀.trail.length ctx₃).assign = ctx₀.assign ∧
      SameFlags ctx₃ (undoTo ctx₀.trail.length ctx₃) := by
  obtain ⟨ht, ha⟩ := hspec.restored rfl
  have hdecide : Above ctx (decideVar ctx v x) := Above.push rfl rfl
  have hsame : Above (decideVar ctx v x) ctx₃ := ⟨[], ht, fun w _ => congrFun ha w⟩
  exact undoTo_above h₀ hspec.ok ((habove.trans hdecide).trans hsame)

theorem decideVar_ok (h : CtxOK n ctx) {v : ℕ} (hv : ctx.assign v = 0) (h1 : 1 ≤ v) (hn : v ≤ n) {x : ℤ}
    (hx : x = 1 ∨ x = -1) : CtxOK n (decideVar ctx v x) := h.push hv h1 hn hx rfl rfl

/-- Decisions of a search with `t'` variables on the trail fit into those of one
with fewer. -/
theorem decisions_mono {n t t' : ℕ} (h : t ≤ t') : 2 ^ (n - t') - 1 ≤ 2 ^ (n - t) - 1 := by
  have := Nat.pow_le_pow_right (n := 2) (by omega) (show n - t' ≤ n - t by omega)
  omega

/-- The decisions below a call with room on its trail: those of two calls with one
more variable on it, and the one made. -/
theorem decisions_split {n t : ℕ} (h : t < n) :
    2 ^ (n - t) - 1 = (2 ^ (n - (t + 1)) - 1) + 1 + (2 ^ (n - (t + 1)) - 1) := by
  have hpow : 2 ^ (n - t) = 2 ^ (n - (t + 1)) * 2 := by rw [← pow_succ]; congr 1; omega
  have hpos := Nat.one_le_two_pow (n := n - (t + 1))
  omega

/-- **Both values of a variable are tried**, from a state `ctx₁` that propagation
reached from `ctx₀`. -/
theorem tryBoth_spec {a : SolveArgs} (search : SolveCtx → Option (Bool × SolveCtx)) {ctx₀ ctx₁ : SolveCtx}
    (hsearch : ∀ ctx, CtxOK a.model.varCount ctx → ctx.timedOut = false → ctx.aborted = false →
      ctx₀.trail.length < ctx.trail.length → ∃ b ctx', search ctx = some (b, ctx') ∧ DpllSpec a ctx b ctx')
    (h₀ : CtxOK a.model.varCount ctx₀) (h₁ : CtxOK a.model.varCount ctx₁)
    (hgrow : Grows a.model.varCount a.model.cnf ctx₀ ctx₁) (hto : ctx₁.timedOut = false)
    (hab : ctx₁.aborted = false) {v : ℕ} (hopen₁ : ctx₁.assign v = 0) (h1 : 1 ≤ v) (hn : v ≤ a.model.varCount)
    {x : ℤ} (hx : x = 1 ∨ x = -1) :
    ∃ b ctx', tryBoth search ctx₀.trail.length v x { ctx₁ with decisions := ctx₁.decisions + 1 } = some (b, ctx') ∧
      DpllSpec a ctx₀ b ctx' := by
  obtain ⟨new, htrail, hassign⟩ := hgrow.above.trail
  have hopen : ctx₀.assign v = 0 := hgrow.above.open_below h₁ hopen₁
  have hlen : ctx₀.trail.length ≤ ctx₁.trail.length := hgrow.above.length_le
  have hd : ctx₁.decisions = ctx₀.decisions := hgrow.flags.decisions
  have hsplit := decisions_split (h₀.length_lt hopen h1 hn)
  set ctx₂ : SolveCtx := { ctx₁ with decisions := ctx₁.decisions + 1 } with hctx₂
  have h₂ : CtxOK a.model.varCount ctx₂ := h₁.congr rfl rfl
  have habove₂ : Above ctx₀ ctx₂ := ⟨new, htrail, hassign⟩
  -- the first value
  obtain ⟨b, ctx₃, hrun, spec₁⟩ := hsearch (decideVar ctx₂ v x) (decideVar_ok h₂ hopen₁ h1 hn hx) hto hab
    (by simp only [decideVar, List.length_cons, hctx₂]; omega)
  have hbud₁ : ctx₀.decisions + (2 ^ (a.model.varCount - ctx₀.trail.length) - 1) ≤ a.budget →
      ctx₃.timedOut = false ∧
        ctx₃.decisions ≤ ctx₀.decisions + 1 + (2 ^ (a.model.varCount - (ctx₀.trail.length + 1)) - 1) := by
    have hmono := decisions_mono (n := a.model.varCount)
      (show ctx₀.trail.length + 1 ≤ ctx₁.trail.length + 1 by omega)
    intro hle
    obtain ⟨k1, k2⟩ := spec₁.budget (by simp only [decideVar, List.length_cons, hctx₂]; omega)
    simp only [decideVar, List.length_cons, hctx₂] at k2
    exact ⟨k1, by omega⟩
  unfold tryBoth
  simp only [hrun]
  cases b with
  | true =>
    refine ⟨_, _, rfl, spec₁.ok, spec₁.sat, by simp, by simp, spec₁.aborted, ?_⟩
    intro hle
    obtain ⟨k1, k2⟩ := hbud₁ hle
    exact ⟨k1, by omega⟩
  | false =>
    obtain ⟨u1, u2, u3⟩ := undoTo_branch h₀ habove₂ spec₁
    simp only
    generalize undoTo ctx₀.trail.length ctx₃ = ctx₄ at u1 u2 u3 ⊢
    have h₄ : CtxOK a.model.varCount ctx₄ := h₀.congr u1 u2
    have hd₄ : ctx₄.decisions = ctx₃.decisions := u3.decisions
    by_cases hflag : (ctx₄.timedOut || ctx₄.aborted) = true
    · rw [if_pos hflag]
      refine ⟨_, _, rfl, h₄, by simp, fun _ => ⟨u1, u2⟩, ?_, fun hc => u3.aborted.trans (spec₁.aborted hc), ?_⟩
      · intro _ hto' hab'
        rw [hto', hab'] at hflag
        exact absurd hflag (by simp)
      · intro hle
        obtain ⟨k1, k2⟩ := hbud₁ hle
        exact ⟨u3.timedOut.trans k1, by omega⟩
    · rw [if_neg hflag]
      simp only [Bool.or_eq_true, not_or, Bool.not_eq_true] at hflag
      -- the other value, from the state the call started with
      have hopen₄ : ctx₄.assign v = 0 := by rw [u2]; exact hopen
      have hx' : -x = 1 ∨ -x = -1 := by omega
      obtain ⟨b', ctx₅, hrun', spec₂⟩ := hsearch (decideVar ctx₄ v (-x)) (decideVar_ok h₄ hopen₄ h1 hn hx')
        hflag.1 hflag.2 (by simp only [decideVar, List.length_cons, u1]; omega)
      have hbud₂ : ctx₀.decisions + (2 ^ (a.model.varCount - ctx₀.trail.length) - 1) ≤ a.budget →
          ctx₅.timedOut = false ∧
            ctx₅.decisions ≤ ctx₀.decisions + (2 ^ (a.model.varCount - ctx₀.trail.length) - 1) := by
        intro hle
        obtain ⟨-, k2⟩ := hbud₁ hle
        obtain ⟨l1, l2⟩ := spec₂.budget (by simp only [decideVar, List.length_cons, u1]; omega)
        simp only [decideVar, List.length_cons, u1] at l2
        exact ⟨l1, by omega⟩
      simp only [hrun']
      cases b' with
      | true => exact ⟨_, _, rfl, spec₂.ok, spec₂.sat, by simp, by simp, spec₂.aborted, hbud₂⟩
      | false =>
        have habove₄ : Above ctx₀ ctx₄ := ⟨[], u1, fun w _ => congrFun u2 w⟩
        obtain ⟨w1, w2, w3⟩ := undoTo_branch h₀ habove₄ spec₂
        refine ⟨_, _, rfl, h₀.congr w1 w2, by simp, fun _ => ⟨w1, w2⟩, ?_,
          fun hc => w3.aborted.trans (spec₂.aborted hc), ?_⟩
        · intro _ hto' hab'
          have hfirst := spec₁.unsat rfl (u3.timedOut.symm.trans hflag.1) (u3.aborted.symm.trans hflag.2)
          have hsecond := spec₂.unsat rfl (w3.timedOut.symm.trans hto') (w3.aborted.symm.trans hab')
          simp only [decideVar, u2] at hfirst hsecond
          -- the first branch ran with the propagated literals, the second without them
          have hext := (hgrow.above.extends h₀ h₁).update v (-x)
          exact hgrow.refutes (refuted_of_branches h1 hn hx hfirst (hsecond.of_extends hext))
        · intro hle
          obtain ⟨k1, k2⟩ := hbud₂ hle
          exact ⟨w3.timedOut.trans k1, by rw [w3.decisions]; exact k2⟩

/-- **The search is sound and complete, and counts its decisions.** -/
theorem dpll_spec {a : SolveArgs} (hm : a.model.InRange) : ∀ (fuel : ℕ) (ctx : SolveCtx),
    CtxOK a.model.varCount ctx → ctx.timedOut = false → ctx.aborted = false →
    a.model.varCount - ctx.trail.length < fuel →
    ∃ b ctx', dpll a fuel ctx = some (b, ctx') ∧ DpllSpec a ctx b ctx' := by
  intro fuel
  induction fuel with
  | zero => intro ctx _ _ _ hfuel; exact absurd hfuel (by omega)
  | succ fuel ih =>
    intro ctx h hto hab hfuel
    unfold dpll
    by_cases hcancel : cancelled a ctx = true
    · rw [if_pos hcancel]
      refine ⟨_, _, rfl, h.congr rfl rfl, by simp, fun _ => ⟨rfl, rfl⟩, by simp, ?_, ?_⟩
      · intro hnone
        simp [cancelled, hnone] at hcancel
      · intro _
        exact ⟨hto, by simp⟩
    · rw [if_neg hcancel]
      set ctx₀ : SolveCtx := { ctx with polls := ctx.polls + 1 } with hctx₀
      have h₀ : CtxOK a.model.varCount ctx₀ := h.congr rfl rfl
      have hle₀ := h₀.length_le
      obtain ⟨b, ctx₁, hprop, h₁, hgrow, hfalse, htrue⟩ :=
        propagate_spec hm (a.model.varCount + 1) ctx₀ h₀ (by omega)
      have hto₁ : ctx₁.timedOut = false := hgrow.flags.timedOut.trans hto
      have hab₁ : ctx₁.aborted = false := hgrow.flags.aborted.trans hab
      have hd₁ : ctx₁.decisions = ctx.decisions := hgrow.flags.decisions
      rw [hprop]
      cases b with
      | false =>
        -- a conflict: the call hands back the state it got
        obtain ⟨u1, u2, u3⟩ := undoTo_above h₀ h₁ hgrow.above
        refine ⟨_, _, rfl, h₀.congr u1 u2, by simp, fun _ => ⟨u1, u2⟩, ?_, fun _ => u3.aborted.trans hab₁, ?_⟩
        · intro _ _ _
          exact hgrow.refutes (hfalse rfl)
        · intro _
          have hd : (undoTo ctx.trail.length ctx₁).decisions = ctx.decisions := u3.decisions.trans hd₁
          exact ⟨u3.timedOut.trans hto₁, by omega⟩
      | true =>
        simp only
        cases hpick : pickVar a ctx₁ with
        | none =>
          -- nothing is open and every clause is settled: a model
          obtain ⟨htot, hmod⟩ := models_of_settled hm h₁ (htrue rfl) hpick
          refine ⟨_, _, rfl, h₁, fun _ => ⟨htot, hmod, hto₁, hab₁⟩, by simp, by simp, fun _ => hab₁, ?_⟩
          intro _
          exact ⟨hto₁, by omega⟩
        | some v =>
          obtain ⟨hopen₁, h1, hn⟩ := pickVar_some hpick
          have hroom₁ : ctx₁.trail.length < a.model.varCount := h₁.length_lt hopen₁ h1 hn
          have hlen : ctx.trail.length ≤ ctx₁.trail.length := hgrow.above.length_le
          simp only
          by_cases hbudget : ctx₁.decisions ≥ a.budget
          · rw [if_pos hbudget]
            obtain ⟨new, htrail, hassign⟩ := hgrow.above.trail
            have hlate : CtxOK a.model.varCount { ctx₁ with timedOut := true } := h₁.congr rfl rfl
            obtain ⟨u1, u2, u3⟩ := undoTo_above h₀ hlate ⟨new, htrail, hassign⟩
            refine ⟨_, _, rfl, h₀.congr u1 u2, by simp, fun _ => ⟨u1, u2⟩, ?_, fun _ => u3.aborted.trans hab₁, ?_⟩
            · intro _ hto' _
              exact absurd (u3.timedOut.symm.trans hto') (by simp)
            · intro hle
              -- a budget that covers the whole tree is not used up here
              have hsplit := decisions_split (show ctx.trail.length < a.model.varCount by omega)
              exact absurd hle (by omega)
          · rw [if_neg hbudget]
            have hx : (if a.preferFalse then -1 else 1 : ℤ) = 1 ∨ (if a.preferFalse then -1 else 1 : ℤ) = -1 := by
              split <;> simp
            obtain ⟨b, ctx', hrun, spec⟩ := tryBoth_spec (dpll a fuel)
              (fun c hc hcto hcab hclen => ih c hc hcto hcab (by
                have : ctx.trail.length < c.trail.length := hclen
                have := hc.length_le
                omega))
              h₀ h₁ hgrow hto₁ hab₁ hopen₁ h1 hn hx
            exact ⟨b, ctx', hrun, spec.ok, spec.sat, spec.restored, spec.unsat, spec.aborted, spec.budget⟩

/-! ## The solver -/

variable (mem : Ptr → Metadata)

/-- What `solve_core` returns, for a model with variables. -/
theorem solveCore_spec {a : SolveArgs} (hm : a.model.InRange) (hempty : a.model.varCount = 0 → a.model.clauses = []) :
    ∃ r, solveCore mem a = some r ∧
      (r.result = .satisfiable → ∃ assign, (r.assignment = some assign ∨ a.model.varCount = 0 ∧ r.assignment = none) ∧
        Total a.model.varCount assign ∧ Models assign a.model.cnf) ∧
      (r.result = .unsatisfiable → ¬∃ τ, Total a.model.varCount τ ∧ Models τ a.model.cnf) ∧
      (a.cancel = none → r.result ≠ .error) ∧
      (a.cancel = none → 2 ^ a.model.varCount - 1 ≤ a.budget → r.result ≠ .budgetExceeded) := by
  unfold solveCore
  by_cases h0 : a.model.varCount = 0
  · rw [if_pos h0]
    refine ⟨_, rfl, ?_, by simp, by simp, by simp⟩
    intro _
    refine ⟨fun _ => 1, Or.inr ⟨h0, rfl⟩, fun _ _ _ => Or.inl rfl, ?_⟩
    intro c hc
    rw [SatModel.cnf, hempty h0] at hc
    exact absurd hc (by simp)
  · rw [if_neg h0]
    obtain ⟨b, ctx, hrun, spec⟩ := dpll_spec hm (a.model.varCount + 1) initCtx initCtx_ok rfl rfl (by omega)
    rw [hrun]
    simp only
    by_cases hab : ctx.aborted = true
    · rw [if_pos hab]
      refine ⟨_, rfl, by simp, by simp, ?_, by simp⟩
      intro hcancel
      rw [spec.aborted hcancel] at hab
      exact absurd hab (by simp)
    · rw [if_neg hab]
      by_cases hto : ctx.timedOut = true
      · rw [if_pos hto]
        refine ⟨_, rfl, by simp, by simp, by simp, ?_⟩
        intro _ hbudget
        -- the budget covers all decisions of the tree
        have := (spec.budget (by simpa [initCtx] using hbudget)).1
        rw [this] at hto
        exact absurd hto (by simp)
      · rw [if_neg hto]
        cases b with
        | false =>
          refine ⟨_, rfl, by simp, ?_, by simp, by simp⟩
          intro _
          exact (spec.unsat rfl (by simpa using hto) (by simpa using hab)).not_models
        | true =>
          obtain ⟨htot, hmod, -, -⟩ := spec.sat rfl
          exact ⟨_, rfl, fun _ => ⟨ctx.assign, Or.inl rfl, htot, hmod⟩, by simp, by simp, by simp⟩

end Apg
