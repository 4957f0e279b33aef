import Apg.Lib.Dfs

/-!
# Searching from every node in turn

A sweep starts a search from every node of a list that is still white, over one set
of colours. A search that stops at a failing edge leaves its path grey, and the
sweep goes on: a later search takes those nodes for nodes it is itself visiting.

A node is clean if it reaches neither a failing edge nor a cycle. What a search from
another node does is decided by the first edge of each node that is not clean: it
follows these edges (`Leads`) until it comes to a failing one (`Stops`), to a grey
node, or back to itself.

* `visit_clean`: a search from a clean node ends well.
* `visit_unclean`: **what a search from another node leaves behind.**
* `sweep_cases`: **how a sweep ends**, from the edges alone.
-/

namespace Apg.Dfs

open Relation

variable {α ε : Type*} [DecidableEq α] (succ : α → List (Except ε α))

/-- Visit what is still white. A cycle ends the sweep, and so does a fatal failure;
after any other failure it goes on with the colours the search left. -/
def sweep (fatal : ε → Bool) (n : ℕ) : List α → St α → Option (Out ε)
  | [], _ => some .ok
  | a :: as, s =>
    if s.colour a = .white then
      match visit succ n a s with
      | none => none
      | some (.ok, s') => sweep fatal n as s'
      | some (.cycle, _) => some .cycle
      | some (.err e, s') => if fatal e then some (.err e) else sweep fatal n as s'
    else sweep fatal n as s

/-! ## Clean nodes -/

/-- No failing edge and no cycle is reached from the node. -/
def Clean (a : α) : Prop :=
  ∀ b, ReflTransGen (Edge succ) a b → (∀ e, .error e ∉ succ b) ∧ ¬TransGen (Edge succ) b b

/-- An edge that a search passes without more ado. -/
def CleanEdge (x : Except ε α) : Prop := ∃ b, x = .ok b ∧ Clean succ b

open Classical in
/-- The first edge of a node that is not clean. -/
noncomputable def firstUnclean (a : α) : Option (Except ε α) := (succ a).find? fun x => ¬CleanEdge succ x

def Leads (a b : α) : Prop := firstUnclean succ a = some (.ok b)

def Stops (a : α) (e : ε) : Prop := firstUnclean succ a = some (.error e)

/-- The nodes that a search from `a` comes to along the first edges that are not clean. -/
def Walk (a b : α) : Prop := ReflTransGen (Leads succ) a b

variable {succ} {n : ℕ} {a b : α} {s s' : St α} {o : Out ε}

omit [DecidableEq α] in
theorem Clean.edge (h : Clean succ a) (hab : Edge succ a b) : Clean succ b :=
  fun c hc => h c (ReflTransGen.head hab hc)

omit [DecidableEq α] in
theorem clean_of_edges (h : ∀ x ∈ succ a, CleanEdge succ x) : Clean succ a := by
  have hedge : ∀ b, Edge succ a b → Clean succ b := by
    intro b hab
    obtain ⟨c, hc, hclean⟩ := h _ hab
    rw [Except.ok.injEq] at hc
    rw [hc]; exact hclean
  intro b hb
  rcases ReflTransGen.cases_head hb with rfl | ⟨c, hac, hcb⟩
  · refine ⟨?_, ?_⟩
    · intro e he
      obtain ⟨c, hc, -⟩ := h _ he
      exact absurd hc (by simp)
    · intro hcycle
      -- a cycle through the node is reached from its successor
      obtain ⟨c, hac, hca⟩ := TransGen.head'_iff.1 hcycle
      exact (hedge c hac a hca).2 hcycle
  · exact hedge c hac b hcb

omit [DecidableEq α] in
theorem firstUnclean_isSome (h : ¬Clean succ a) : ∃ x, firstUnclean succ a = some x := by
  classical
  by_contra hnone
  have hfind : firstUnclean succ a = none := by
    cases hf : firstUnclean succ a with
    | none => rfl
    | some x => exact absurd ⟨x, hf⟩ hnone
  apply h
  apply clean_of_edges
  intro x hx
  unfold firstUnclean at hfind
  rw [List.find?_eq_none] at hfind
  simpa using hfind x hx

omit [DecidableEq α] in
/-- The edges before the first one that is not clean. -/
theorem firstUnclean_split {x : Except ε α} (h : firstUnclean succ a = some x) :
    ¬CleanEdge succ x ∧ ∃ before after, succ a = before ++ x :: after ∧ ∀ y ∈ before, CleanEdge succ y := by
  classical
  unfold firstUnclean at h
  obtain ⟨hx, before, after, hsplit, hbefore⟩ := List.find?_eq_some_iff_append.1 h
  refine ⟨by simpa using hx, before, after, hsplit, ?_⟩
  intro y hy
  simpa using hbefore y hy

omit [DecidableEq α] in
theorem Leads.edge (h : Leads succ a b) : Edge succ a b := by
  obtain ⟨-, before, after, hsplit, -⟩ := firstUnclean_split h
  unfold Edge
  rw [hsplit]
  simp

omit [DecidableEq α] in
theorem Leads.unclean (h : Leads succ a b) : ¬Clean succ a ∧ ¬Clean succ b := by
  have hnot : ¬Clean succ b := fun hc => (firstUnclean_split h).1 ⟨b, rfl, hc⟩
  exact ⟨fun ha => hnot (ha.edge h.edge), hnot⟩

omit [DecidableEq α] in
theorem Leads.unique {c : α} (h : Leads succ a b) (h' : Leads succ a c) : b = c := by
  unfold Leads at h h'
  rw [h, Option.some.injEq, Except.ok.injEq] at h'
  exact h'

omit [DecidableEq α] in
theorem Stops.not_leads {e : ε} (h : Stops succ a e) : ¬Leads succ a b := by
  intro h'
  unfold Stops Leads at *
  rw [h] at h'
  simp at h'

omit [DecidableEq α] in
theorem Walk.unclean (h : Walk succ a b) (ha : ¬Clean succ a) : ¬Clean succ b := by
  rcases ReflTransGen.cases_tail h with rfl | ⟨c, -, hcb⟩
  · exact ha
  · exact hcb.unclean.2

omit [DecidableEq α] in
theorem Walk.start_unclean (h : Walk succ a b) (hb : ¬Clean succ b) : ¬Clean succ a := by
  rcases ReflTransGen.cases_head h with rfl | ⟨c, hac, -⟩
  · exact hb
  · exact hac.unclean.1

omit [DecidableEq α] in
/-- Two walks from one node are parts of one. -/
theorem Walk.total {c : α} (h : Walk succ a b) (h' : Walk succ a c) : Walk succ b c ∨ Walk succ c b :=
  ReflTransGen.total_of_right_unique (fun _ _ _ h1 h2 => h1.unique h2) h h'

omit [DecidableEq α] in
/-- A walk that comes to a failing edge ends there. -/
theorem Stops.walk_eq {e : ε} (h : Stops succ a e) (hw : Walk succ a b) : b = a := by
  rcases ReflTransGen.cases_head hw with rfl | ⟨c, hac, -⟩
  · rfl
  · exact absurd hac h.not_leads

omit [DecidableEq α] in
/-- Whatever else a walk comes to before it stops also leads there. -/
theorem Stops.walk_to {e : ε} {c : α} (h : Stops succ b e) (hb : Walk succ a b) (hc : Walk succ a c) : Walk succ c b := by
  rcases hb.total hc with hbc | hcb
  · rw [h.walk_eq hbc]; exact ReflTransGen.refl
  · exact hcb

omit [DecidableEq α] in
/-- A walk that stops does not go round. -/
theorem Stops.no_loop {e : ε} {c : α} (h : Stops succ b e) (hb : Walk succ a b) (hc : Walk succ a c) :
    ¬TransGen (Leads succ) c c := by
  have hcb := h.walk_to hb hc
  clear hc
  induction hcb using ReflTransGen.head_induction_on with
  | refl =>
    intro hcycle
    obtain ⟨d, hbd, -⟩ := TransGen.head'_iff.1 hcycle
    exact h.not_leads hbd
  | @head x y hxy _ ih =>
    intro hcycle
    obtain ⟨d, hxd, hdx⟩ := TransGen.head'_iff.1 hcycle
    rw [hxd.unique hxy] at hdx
    exact ih (TransGen.tail' hdx hxy)

/-! ## One search -/

theorem OK.clean (h : OK succ s) (hb : s.colour b = .black) : Clean succ b := by
  have hmem := (h.black b).1 hb
  intro c hc
  have hcmem := h.topo.reach hmem hc
  exact ⟨h.topo.no_error hcmem, h.topo.acyclic h.nodup hcmem⟩

theorem paint_grey : (s.paint a .grey).colour b = .grey ↔ b = a ∨ s.colour b = .grey := by
  by_cases hb : b = a
  · simp [St.paint, hb]
  · simp [St.paint, hb]

/-- **A search from a clean node ends well**, if it meets nothing grey. -/
theorem visit_clean : ∀ (n : ℕ) (a : α) (s s' : St α) (o : Out ε), Clean succ a →
    (∀ b, ReflTransGen (Edge succ) a b → s.colour b ≠ .grey) → visit succ n a s = some (o, s') → o = .ok := by
  intro n
  induction n with
  | zero => intro a s s' o _ _ h; simp [visit] at h
  | succ n ih =>
    intro a s s' o ha hgrey h
    obtain ⟨-, rfl, -⟩ | ⟨hc, -, -⟩ | ⟨hc, s₁, h1, -⟩ := visit_cases h
    · rfl
    · exact absurd hc (hgrey a ReflTransGen.refl)
    · by_contra hne
      -- the node itself is grey now, but nothing leads back to it
      refine visitAll_stop (R := fun _ => False)
        (I := fun s => ∀ b, Edge succ a b → ∀ c, ReflTransGen (Edge succ) b c → s.colour c ≠ .grey)
        ?_ ?_ ?_ (succ a) _ s₁ o (List.Subset.refl _) ?_ h1 hne
      · intro b s s' o hs hb hab ho
        exact ho (ih b s s' o (ha.edge hab) (hs b hab) hb)
      · intro b s s' hs hb c hac d hcd hd
        exact hs c hac d hcd ((visit_grey hb d).1 hd)
      · intro e he
        exact (ha a ReflTransGen.refl).1 e he
      · intro b hab c hbc hcol
        rcases paint_grey.1 hcol with rfl | hcol
        · exact (ha c ReflTransGen.refl).2 (TransGen.head' hab hbc)
        · exact hgrey c (ReflTransGen.head hab hbc) hcol

/-- The nodes left grey are not clean. -/
def GreyUnclean (succ : α → List (Except ε α)) (s : St α) : Prop := ∀ b, s.colour b = .grey → ¬Clean succ b

omit [DecidableEq α] in
theorem GreyUnclean.reach (h : GreyUnclean succ s) (ha : Clean succ a) (hab : ReflTransGen (Edge succ) a b) :
    s.colour b ≠ .grey :=
  fun hb => h b hb fun c hc => ha c (hab.trans hc)

/-- Clean edges are walked, and what is grey stays as it is. -/
theorem visitAll_past : ∀ (before rest : List (Except ε α)) (s s' : St α) (o : Out ε),
    (∀ x ∈ before, CleanEdge succ x) → OK succ s → GreyUnclean succ s →
    visitAll (visit succ n) (before ++ rest) s = some (o, s') →
    ∃ s₁, visitAll (visit succ n) rest s₁ = some (o, s') ∧ OK succ s₁ ∧
      ∀ b, s₁.colour b = .grey ↔ s.colour b = .grey := by
  intro before
  induction before with
  | nil => intro rest s s' o _ hs _ h; exact ⟨s, h, hs, fun _ => Iff.rfl⟩
  | cons x before ih =>
    intro rest s s' o hclean hs hgrey h
    obtain ⟨c, rfl, hc⟩ := hclean x List.mem_cons_self
    obtain ⟨e, he, -⟩ | ⟨b, hb, hwalk⟩ := visitAll_cons h
    · exact absurd he (by simp)
    rw [Except.ok.injEq] at hb
    subst hb
    have hpass : ∃ s₁, visit succ n c s = some (.ok, s₁) ∧ visitAll (visit succ n) (before ++ rest) s₁ = some (o, s') := by
      rcases hwalk with ⟨s₁, h1, h2⟩ | ⟨hne, h1⟩
      · exact ⟨s₁, h1, h2⟩
      · exact absurd (visit_clean n c s s' o hc (fun b hb => hgrey.reach hc hb) h1) hne
    obtain ⟨s₁, h1, h2⟩ := hpass
    have hsame := visit_grey h1
    have hgrey₁ : GreyUnclean succ s₁ := fun b hb => hgrey b ((hsame b).1 hb)
    obtain ⟨s₂, h3, hs₂, hgrey₂⟩ := ih rest s₁ s' o (fun y hy => hclean y (List.mem_cons_of_mem _ hy))
      (visit_ok n c s s₁ hs h1).1 hgrey₁ h2
    exact ⟨s₂, h3, hs₂, fun b => (hgrey₂ b).trans (hsame b)⟩

/-- The walk from `a` comes to something grey, or goes round. -/
def CaughtIn (succ : α → List (Except ε α)) (s : St α) (a : α) : Prop :=
  ∃ v, Walk succ a v ∧ (s.colour v = .grey ∨ TransGen (Leads succ) v v)

/-- The walk from `a` comes to a failing edge with nothing grey on the way, and has
been painted grey. -/
structure StopsIn (succ : α → List (Except ε α)) (s : St α) (a : α) (e : ε) (s' : St α) : Prop where
  stops : ∃ u, Walk succ a u ∧ Stops succ u e
  fresh : ∀ v, Walk succ a v → s.colour v ≠ .grey
  ok : OK succ s'
  grey : ∀ b, s'.colour b = .grey ↔ s.colour b = .grey ∨ Walk succ a b

/-- **What a search from a node that is not clean does.** -/
theorem visit_unclean : ∀ (n : ℕ) (a : α) (s s' : St α) (o : Out ε), ¬Clean succ a → OK succ s → GreyUnclean succ s →
    visit succ n a s = some (o, s') →
    (o = .cycle ∧ CaughtIn succ s a) ∨ ∃ e, o = .err e ∧ StopsIn succ s a e s' := by
  intro n
  induction n with
  | zero => intro a s s' o _ _ _ h; simp [visit] at h
  | succ n ih =>
    intro a s s' o ha hs hgrey h
    obtain ⟨hc, -, -⟩ | ⟨hc, rfl, -⟩ | ⟨hc, s₁, h1, hend⟩ := visit_cases h
    · exact absurd (hs.clean hc) ha
    · exact Or.inl ⟨rfl, a, ReflTransGen.refl, Or.inl hc⟩
    obtain ⟨x, hx⟩ := firstUnclean_isSome ha
    obtain ⟨hunclean, before, after, hsplit, hbefore⟩ := firstUnclean_split hx
    have hgrey' : GreyUnclean succ (s.paint a .grey) := by
      intro b hb
      rcases paint_grey.1 hb with rfl | hb
      · exact ha
      · exact hgrey b hb
    rw [hsplit] at h1
    obtain ⟨s₂, h2, hs₂, hsame⟩ := visitAll_past before _ _ _ _ hbefore (hs.paint hc) hgrey' h1
    have hcol : ∀ b, s₂.colour b = .grey ↔ b = a ∨ s.colour b = .grey := fun b => (hsame b).trans paint_grey
    obtain ⟨e, rfl, rfl, rfl⟩ | ⟨b, rfl, hwalk⟩ := visitAll_cons h2
    -- the edge itself fails: the walk is the node alone
    · have hstop : Stops succ a e := hx
      have hs' : s' = s₁ := by
        rcases hend with ⟨ho, -⟩ | ⟨-, hs'⟩
        · exact absurd ho (by simp)
        · exact hs'
      subst hs'
      refine Or.inr ⟨e, rfl, ⟨a, ReflTransGen.refl, hstop⟩, ?_, hs₂, ?_⟩
      · intro v hv
        rw [hstop.walk_eq hv, hc]
        simp
      · intro b
        rw [hcol b, or_comm]
        constructor
        · rintro (hb | rfl)
          · exact Or.inl hb
          · exact Or.inr ReflTransGen.refl
        · rintro (hb | hb)
          · exact Or.inl hb
          · exact Or.inr (hstop.walk_eq hb)
    -- the edge leads on, and the search from its target decides
    · have hlead : Leads succ a b := hx
      have hvisit : ∃ s₃, visit succ n b s₂ = some (o, s₃) ∧ (o ≠ .ok → s₃ = s₁) := by
        rcases hwalk with ⟨s₃, h3, -⟩ | ⟨-, h3⟩
        · have hbad := ih b s₂ s₃ .ok hlead.unclean.2 hs₂ (fun c hcg => hgrey' c ((hsame c).1 hcg)) h3
          rcases hbad with ⟨ho, -⟩ | ⟨e, ho, -⟩
          · exact absurd ho (by simp)
          · exact absurd ho (by simp)
        · exact ⟨s₁, h3, fun _ => rfl⟩
      obtain ⟨s₃, h3, hs₃⟩ := hvisit
      have hcases := ih b s₂ s₃ o hlead.unclean.2 hs₂ (fun c hcg => hgrey' c ((hsame c).1 hcg)) h3
      rcases hcases with ⟨rfl, v, hv, hcaught⟩ | ⟨e, rfl, hstops⟩
      · refine Or.inl ⟨rfl, ?_⟩
        have hav : Walk succ a v := ReflTransGen.head hlead hv
        rcases hcaught with hcaught | hloop
        · rcases (hcol v).1 hcaught with rfl | hcaught
          · exact ⟨v, hav, Or.inr (TransGen.head' hlead hv)⟩
          · exact ⟨v, hav, Or.inl hcaught⟩
        · exact ⟨v, hav, Or.inr hloop⟩
      · have hs' : s' = s₁ := by
          rcases hend with ⟨ho, -⟩ | ⟨-, hs'⟩
          · exact absurd ho (by simp)
          · exact hs'
        have hs₃' : s' = s₃ := hs'.trans (hs₃ (by simp)).symm
        rw [hs₃']
        obtain ⟨u, hu, hstop⟩ := hstops.stops
        -- the walk from `a` is `a` and the walk from `b`
        have hwalks : ∀ v, Walk succ a v ↔ v = a ∨ Walk succ b v := by
          intro v
          constructor
          · intro hv
            rcases ReflTransGen.cases_head hv with rfl | ⟨d, had, hdv⟩
            · exact Or.inl rfl
            · rw [had.unique hlead] at hdv
              exact Or.inr hdv
          · rintro (rfl | hv)
            · exact ReflTransGen.refl
            · exact ReflTransGen.head hlead hv
        refine Or.inr ⟨e, rfl, ⟨u, ReflTransGen.head hlead hu, hstop⟩, ?_, hstops.ok, ?_⟩
        · intro v hv hvg
          rcases (hwalks v).1 hv with rfl | hv
          · rw [hc] at hvg
            simp at hvg
          · exact hstops.fresh v hv ((hcol v).2 (Or.inr hvg))
        · intro v
          rw [hstops.grey v, hcol v, hwalks v]
          tauto

/-! ## The sweep -/

/-- The walk from a node that is on no earlier walk comes to an earlier walk, or
goes round. -/
def Caught (succ : α → List (Except ε α)) (earlier : List α) (a : α) : Prop :=
  (∀ i ∈ earlier, ¬Walk succ i a) ∧
    ∃ v, Walk succ a v ∧ (TransGen (Leads succ) v v ∨ ∃ i ∈ earlier, Walk succ i v)

/-- The walk from the node ends at a fatal failure. -/
def EndsFatal (succ : α → List (Except ε α)) (fatal : ε → Bool) (a : α) : Prop :=
  ∃ u e, Walk succ a u ∧ Stops succ u e ∧ fatal e = true

/-- No node of the list is caught, and no walk from one is fatal. -/
def Smooth (succ : α → List (Except ε α)) (fatal : ε → Bool) (l : List α) : Prop :=
  ∀ earlier a later, l = earlier ++ a :: later → ¬Caught succ earlier a ∧ ¬EndsFatal succ fatal a

/-- The invariant of a sweep that has gone through a list without ending: exactly the
walks from its nodes are grey. -/
structure Swept (succ : α → List (Except ε α)) (fatal : ε → Bool) (l : List α) (s : St α) : Prop where
  ok : OK succ s
  grey : ∀ b, s.colour b = .grey ↔ ¬Clean succ b ∧ ∃ i ∈ l, Walk succ i b
  smooth : Smooth succ fatal l

variable {fatal : ε → Bool} {l : List α}

omit [DecidableEq α] in
theorem smooth_nil : Smooth succ fatal [] := by
  intro earlier a later h
  simp at h

omit [DecidableEq α] in
theorem Smooth.snoc (h : Smooth succ fatal l) (hc : ¬Caught succ l a) (hf : ¬EndsFatal succ fatal a) :
    Smooth succ fatal (l ++ [a]) := by
  intro earlier b later hsplit
  rcases List.eq_nil_or_concat later with rfl | ⟨later', c, rfl⟩
  · obtain ⟨rfl, hb⟩ := List.append_inj' hsplit rfl
    rw [List.cons.injEq] at hb
    rw [← hb.1]
    exact ⟨hc, hf⟩
  · have hsplit' : l ++ [a] = (earlier ++ b :: later') ++ [c] := by simpa using hsplit
    obtain ⟨rfl, -⟩ := List.append_inj' hsplit' rfl
    exact h earlier b later' rfl

omit [DecidableEq α] in
theorem Smooth.mem (h : Smooth succ fatal l) (ha : a ∈ l) : ¬EndsFatal succ fatal a := by
  obtain ⟨earlier, later, rfl⟩ := List.append_of_mem ha
  exact (h earlier a later rfl).2

omit [DecidableEq α] in
theorem swept_start : Swept succ fatal [] St.start := ⟨start_ok, by simp [St.start], smooth_nil⟩

omit [DecidableEq α] in
theorem Swept.greyUnclean (h : Swept succ fatal l s) : GreyUnclean succ s := fun b hb => ((h.grey b).1 hb).1

omit [DecidableEq α] in
/-- A clean node is not caught and its walk is not fatal. -/
theorem Clean.walk_eq (h : Clean succ a) {v : α} (hv : Walk succ a v) : v = a := by
  rcases ReflTransGen.cases_head hv with rfl | ⟨c, hac, -⟩
  · rfl
  · exact absurd h hac.unclean.1

omit [DecidableEq α] in
theorem Clean.not_endsFatal (h : Clean succ a) : ¬EndsFatal succ fatal a := by
  rintro ⟨u, e, hu, hstop, -⟩
  rw [h.walk_eq hu] at hstop
  obtain ⟨-, before, after, hsplit, -⟩ := firstUnclean_split hstop
  refine (h a ReflTransGen.refl).1 e ?_
  rw [hsplit]; simp

omit [DecidableEq α] in
theorem Clean.not_caught (h : Clean succ a) : ¬Caught succ l a := by
  rintro ⟨hfree, v, hv, hcaught⟩
  rw [h.walk_eq hv] at hcaught
  rcases hcaught with hloop | ⟨i, hi, hia⟩
  · obtain ⟨c, hac, -⟩ := TransGen.head'_iff.1 hloop
    exact hac.unclean.1 h
  · exact hfree i hi hia

omit [DecidableEq α] in
/-- Among finitely many nodes without failing edges, a walk from a node that is not clean
goes round. -/
theorem exists_loop {V : Finset α} (hV : ∀ a ∈ V, ∀ b, Edge succ a b → b ∈ V) (hok : ∀ a e, .error e ∉ succ a)
    (ha : a ∈ V) (hunclean : ¬Clean succ a) : ∃ v, Walk succ a v ∧ TransGen (Leads succ) v v := by
  have hnext : ∀ u : {u // u ∈ V ∧ ¬Clean succ u}, ∃ v : {u // u ∈ V ∧ ¬Clean succ u}, Leads succ u.1 v.1 := by
    rintro ⟨u, hu, hclean⟩
    obtain ⟨x, hx⟩ := firstUnclean_isSome hclean
    cases x with
    | error e =>
      obtain ⟨-, before, after, hsplit, -⟩ := firstUnclean_split hx
      exact absurd (by rw [hsplit]; simp) (hok u e)
    | ok v =>
      have hlead : Leads succ u v := hx
      exact ⟨⟨v, hV u hu v hlead.edge, hlead.unclean.2⟩, hlead⟩
  choose next hnext using hnext
  have : Finite {u // u ∈ V ∧ ¬Clean succ u} := V.finite_toSet.subset fun u hu => hu.1
  -- two turns of the walk come to one node
  obtain ⟨m, n, hmn, heq⟩ := Finite.exists_ne_map_eq_of_infinite fun k : ℕ => next^[k] ⟨a, ha, hunclean⟩
  wlog hlt : m < n generalizing m n
  · exact this n m hmn.symm heq.symm (by omega)
  have hwalk : ∀ k (u : {u // u ∈ V ∧ ¬Clean succ u}), Walk succ u.1 (next^[k] u).1 := by
    intro k
    induction k with
    | zero => exact fun u => ReflTransGen.refl
    | succ k ih =>
      intro u
      rw [Function.iterate_succ_apply]
      exact ReflTransGen.head (hnext u) (ih (next u))
  obtain ⟨d, rfl⟩ : ∃ d, n = m + (d + 1) := ⟨n - m - 1, by omega⟩
  have hround : next^[d + 1] (next^[m] ⟨a, ha, hunclean⟩) = next^[m] ⟨a, ha, hunclean⟩ := by
    rw [← Function.iterate_add_apply, Nat.add_comm]
    exact heq.symm
  refine ⟨_, hwalk m ⟨a, ha, hunclean⟩, TransGen.head'_iff.2 ⟨_, hnext _, ?_⟩⟩
  have hback := hwalk d (next (next^[m] ⟨a, ha, hunclean⟩))
  rwa [← Function.iterate_succ_apply, hround] at hback

omit [DecidableEq α] in
/-- A node whose walk is on earlier ones is added without a change of what is grey. -/
theorem Swept.snoc (h : Swept succ fatal l s) (hok : OK succ s') (hsame : ∀ b, s'.colour b = .grey ↔ s.colour b = .grey)
    (hwalk : ∀ b, ¬Clean succ b → Walk succ a b → ∃ i ∈ l, Walk succ i b) (hc : ¬Caught succ l a)
    (hf : ¬EndsFatal succ fatal a) : Swept succ fatal (l ++ [a]) s' := by
  refine ⟨hok, ?_, h.smooth.snoc hc hf⟩
  intro b
  rw [hsame b, h.grey b]
  constructor
  · rintro ⟨hb, i, hi, hib⟩
    exact ⟨hb, i, List.mem_append_left _ hi, hib⟩
  · rintro ⟨hb, i, hi, hib⟩
    rcases List.mem_append.1 hi with hi | hi
    · exact ⟨hb, i, hi, hib⟩
    · rw [List.mem_singleton.1 hi] at hib
      exact ⟨hb, hwalk b hb hib⟩

omit [DecidableEq α] in
theorem Swept.snoc_clean (h : Swept succ fatal l s) (hok : OK succ s')
    (hsame : ∀ b, s'.colour b = .grey ↔ s.colour b = .grey) (ha : Clean succ a) : Swept succ fatal (l ++ [a]) s' :=
  h.snoc hok hsame (fun _ hb hab => absurd ha (hab.start_unclean hb)) ha.not_caught ha.not_endsFatal

/-- A node that is not white is passed. -/
theorem Swept.pass (h : Swept succ fatal l s) (ha : s.colour a ≠ .white) : Swept succ fatal (l ++ [a]) s := by
  cases hc : s.colour a with
  | white => exact absurd hc ha
  | black => exact h.snoc_clean h.ok (fun _ => Iff.rfl) (h.ok.clean hc)
  | grey =>
    -- it is on an earlier walk, and its own is a part of that
    obtain ⟨-, i, hi, hia⟩ := (h.grey a).1 hc
    refine h.snoc h.ok (fun _ => Iff.rfl) ?_ (fun hcaught => hcaught.1 i hi hia) ?_
    · intro b _ hab
      exact ⟨i, hi, ReflTransGen.trans hia hab⟩
    · rintro ⟨u, e, hu, hstop, he⟩
      exact h.smooth.mem hi ⟨u, e, ReflTransGen.trans hia hu, hstop, he⟩

/-- A search that ends well was one from a clean node. -/
theorem Swept.search_ok (h : Swept succ fatal l s) (hv : visit succ n a s = some (.ok, s')) :
    Swept succ fatal (l ++ [a]) s' := by
  have hclean : Clean succ a := by
    by_contra hnot
    rcases visit_unclean n a s s' .ok hnot h.ok h.greyUnclean hv with ⟨ho, -⟩ | ⟨e, ho, -⟩
    · exact absurd ho (by simp)
    · exact absurd ho (by simp)
  exact h.snoc_clean (visit_ok n a s s' h.ok hv).1 (visit_grey hv) hclean

omit [DecidableEq α] in
theorem Swept.white (h : Swept succ fatal l s) (ha : ¬Clean succ a) (hw : s.colour a = .white) :
    ∀ i ∈ l, ¬Walk succ i a := by
  intro i hi hia
  have hgrey := (h.grey a).2 ⟨ha, i, hi, hia⟩
  rw [hw] at hgrey
  simp at hgrey

/-- A search that reports a cycle was caught, and no walk up to it is fatal. -/
theorem Swept.search_cycle (h : Swept succ fatal l s) (hw : s.colour a = .white)
    (hv : visit succ n a s = some (.cycle, s')) :
    Caught succ l a ∧ ∀ i ∈ l ++ [a], ¬EndsFatal succ fatal i := by
  have hunclean : ¬Clean succ a := by
    intro hclean
    have := visit_clean n a s s' .cycle hclean (fun b hb => h.greyUnclean.reach hclean hb) hv
    simp at this
  obtain ⟨-, v, hav, hcaught⟩ | ⟨e, he, -⟩ := visit_unclean n a s s' .cycle hunclean h.ok h.greyUnclean hv
  swap
  · exact absurd he (by simp)
  have hearlier : TransGen (Leads succ) v v ∨ ∃ i ∈ l, Walk succ i v := by
    rcases hcaught with hgrey | hloop
    · exact Or.inr ((h.grey v).1 hgrey).2
    · exact Or.inl hloop
  refine ⟨⟨h.white hunclean hw, v, hav, hearlier⟩, ?_⟩
  intro i hi
  rcases List.mem_append.1 hi with hi | hi
  · exact h.smooth.mem hi
  · rw [List.mem_singleton.1 hi]
    rintro ⟨u, e, hu, hstop, he⟩
    rcases hearlier with hloop | ⟨j, hj, hjv⟩
    · exact hstop.no_loop hu hav hloop
    · exact h.smooth.mem hj ⟨u, e, ReflTransGen.trans hjv (hstop.walk_to hu hav), hstop, he⟩

/-- A search that comes to a failure was not caught. -/
theorem Swept.search_err {e : ε} (h : Swept succ fatal l s) (hv : visit succ n a s = some (.err e, s')) :
    ¬Caught succ l a ∧ (EndsFatal succ fatal a ↔ fatal e = true) ∧
      (fatal e = false → Swept succ fatal (l ++ [a]) s') := by
  have hunclean : ¬Clean succ a := by
    intro hclean
    have := visit_clean n a s s' (.err e) hclean (fun b hb => h.greyUnclean.reach hclean hb) hv
    simp at this
  obtain ⟨ho, -⟩ | ⟨e', he, hstops⟩ := visit_unclean n a s s' (.err e) hunclean h.ok h.greyUnclean hv
  · exact absurd ho (by simp)
  rw [Out.err.injEq] at he
  subst he
  obtain ⟨u, hu, hstop⟩ := hstops.stops
  have hcaught : ¬Caught succ l a := by
    rintro ⟨-, v, hav, hloop | ⟨i, hi, hiv⟩⟩
    · exact hstop.no_loop hu hav hloop
    · exact hstops.fresh v hav ((h.grey v).2 ⟨hav.unclean hunclean, i, hi, hiv⟩)
  have hfatal : EndsFatal succ fatal a ↔ fatal e = true := by
    constructor
    · rintro ⟨u', e', hu', hstop', he'⟩
      -- the walk stops at one place only
      have hsame : u' = u := by
        have := hstop.walk_to hu hu'
        exact (hstop'.walk_eq this).symm
      rw [hsame] at hstop'
      unfold Stops at hstop hstop'
      rw [hstop, Option.some.injEq, Except.error.injEq] at hstop'
      rw [hstop']; exact he'
    · intro he
      exact ⟨u, e, hu, hstop, he⟩
  refine ⟨hcaught, hfatal, ?_⟩
  intro hfree
  refine ⟨hstops.ok, ?_, h.smooth.snoc hcaught (by rw [hfatal, hfree]; simp)⟩
  intro b
  rw [hstops.grey b, h.grey b]
  constructor
  · rintro (⟨hb, i, hi, hib⟩ | hab)
    · exact ⟨hb, i, List.mem_append_left _ hi, hib⟩
    · exact ⟨hab.unclean hunclean, a, List.mem_append_right _ (List.mem_singleton_self a), hab⟩
  · rintro ⟨hb, i, hi, hib⟩
    rcases List.mem_append.1 hi with hi | hi
    · exact Or.inl ⟨hb, i, hi, hib⟩
    · rw [List.mem_singleton.1 hi] at hib
      exact Or.inr hib

/-- **How a sweep ends.** -/
inductive SweepEnd (succ : α → List (Except ε α)) (fatal : ε → Bool) (l : List α) : Out ε → Prop
  | ok : Smooth succ fatal l → SweepEnd succ fatal l .ok
  | cycle {earlier : List α} {a : α} {later : List α} : l = earlier ++ a :: later → Caught succ earlier a →
      (∀ i ∈ earlier ++ [a], ¬EndsFatal succ fatal i) → SweepEnd succ fatal l .cycle
  | fatal {earlier : List α} {a : α} {later : List α} {e : ε} : l = earlier ++ a :: later → EndsFatal succ fatal a →
      Smooth succ fatal earlier → ¬Caught succ earlier a → SweepEnd succ fatal l (.err e)

theorem sweep_cases : ∀ (as l : List α) (s : St α) (o : Out ε), Swept succ fatal l s →
    sweep succ fatal n as s = some o → SweepEnd succ fatal (l ++ as) o := by
  intro as
  induction as with
  | nil =>
    intro l s o hl h
    simp only [sweep, Option.some.injEq] at h
    rw [← h, List.append_nil]
    exact SweepEnd.ok hl.smooth
  | cons a as ih =>
    intro l s o hl h
    -- the sweep goes on with a node more
    have hnext : ∀ s', Swept succ fatal (l ++ [a]) s' → sweep succ fatal n as s' = some o →
        SweepEnd succ fatal (l ++ a :: as) o := by
      intro s' hs' h'
      have := ih (l ++ [a]) s' o hs' h'
      rwa [List.append_assoc, List.singleton_append] at this
    unfold sweep at h
    by_cases hw : s.colour a = .white
    · rw [if_pos hw] at h
      cases hv : visit succ n a s with
      | none => simp [hv] at h
      | some r =>
        obtain ⟨o', s'⟩ := r
        rw [hv] at h
        cases o' with
        | ok => exact hnext s' (hl.search_ok hv) h
        | cycle =>
          simp only [Option.some.injEq] at h
          obtain ⟨hcaught, hfree⟩ := hl.search_cycle hw hv
          rw [← h]
          exact SweepEnd.cycle rfl hcaught hfree
        | err e =>
          simp only at h
          obtain ⟨hcaught, hfatal, hswept⟩ := hl.search_err hv
          by_cases he : fatal e = true
          · rw [if_pos he, Option.some.injEq] at h
            rw [← h]
            exact SweepEnd.fatal rfl (hfatal.2 he) hl.smooth hcaught
          · rw [if_neg he] at h
            exact hnext s' (hswept (Bool.eq_false_iff.2 he)) h
    · rw [if_neg hw] at h
      exact hnext s (hl.pass hw) h

/-- A sweep over a finite graph ends. -/
theorem sweep_isSome {V : Finset α} (hV : ∀ a ∈ V, ∀ b, Edge succ a b → b ∈ V) (hn : V.card < n) :
    ∀ (as : List α) (s : St α), (∀ a ∈ as, a ∈ V) → ∃ o, sweep succ fatal n as s = some o := by
  intro as
  induction as with
  | nil => intro s _; exact ⟨.ok, rfl⟩
  | cons a as ih =>
    intro s hs
    have hrest : ∀ s', ∃ o, sweep succ fatal n as s' = some o := fun s' => ih s' fun b hb => hs b (List.mem_cons_of_mem _ hb)
    unfold sweep
    by_cases hw : s.colour a = .white
    · rw [if_pos hw]
      have hcard : (V.filter fun b => s.colour b = .white).card < n :=
        lt_of_le_of_lt (Finset.card_le_card (Finset.filter_subset _ _)) hn
      obtain ⟨⟨o, s'⟩, hv⟩ := Option.isSome_iff_exists.1 (visit_isSome hV n a s (hs a List.mem_cons_self) hcard)
      rw [hv]
      cases o with
      | ok => exact hrest s'
      | cycle => exact ⟨.cycle, rfl⟩
      | err e =>
        simp only
        by_cases he : fatal e = true
        · rw [if_pos he]
          exact ⟨_, rfl⟩
        · rw [if_neg he]
          exact hrest s'
    · rw [if_neg hw]
      exact hrest s

end Apg.Dfs
