import Mathlib

/-!
# Three-colour depth-first search

A search over the nodes `α`, whose edges are listed in the order they are walked.
An edge may fail, and the search stops at the first failing edge it comes to; it
also stops at a node it is still visiting. Nodes are listed when they finish.

* `visit_ok`: **a search that ends well lists the reachable nodes after their
  successors**, the start last.
* `visit_stop`: **a search stops early only for a real reason**, a cycle or a
  failing edge it can reach.
* `visit_isSome`: the number of unvisited nodes is enough fuel.
* `visit_behind`: **a search skips what is finished and does the rest alike.**
-/

namespace Apg.Dfs

open Relation

inductive Colour
  | white | grey | black
  deriving DecidableEq

/-- The colours, and the finished nodes in the order they finished. -/
structure St (α : Type*) where
  colour : α → Colour
  order : List α

/-- How a search ends. -/
inductive Out (ε : Type*)
  | ok | cycle | err (e : ε)

variable {α ε : Type*} [DecidableEq α] (succ : α → List (Except ε α))

def St.paint (s : St α) (a : α) (c : Colour) : St α := { s with colour := Function.update s.colour a c }

/-- Everything white. -/
def St.start : St α := ⟨fun _ => .white, []⟩

/-- Walk a list of edges; `f` visits the target of an edge. -/
def visitAll (f : α → St α → Option (Out ε × St α)) : List (Except ε α) → St α → Option (Out ε × St α)
  | [], s => some (.ok, s)
  | .error e :: _, s => some (.err e, s)
  | .ok b :: es, s =>
    match f b s with
    | some (.ok, s) => visitAll f es s
    | r => r

def visit : ℕ → α → St α → Option (Out ε × St α)
  | 0, _, _ => none
  | n + 1, a, s =>
    match s.colour a with
    | .black => some (.ok, s)
    | .grey => some (.cycle, s)
    | .white =>
      match visitAll (visit n) (succ a) (s.paint a .grey) with
      | some (.ok, s) => some (.ok, { s.paint a .black with order := s.order ++ [a] })
      | r => r

def Edge (a b : α) : Prop := .ok b ∈ succ a

variable {succ} {n : ℕ} {a : α} {s s' : St α} {o : Out ε}

/-- What one visit can do: nothing at a black node, report a cycle at a grey one,
and at a white one walk the edges with the node grey. -/
theorem visit_cases (h : visit succ (n + 1) a s = some (o, s')) :
    (s.colour a = .black ∧ o = .ok ∧ s' = s) ∨ (s.colour a = .grey ∧ o = .cycle ∧ s' = s) ∨
    (s.colour a = .white ∧ ∃ s₁, visitAll (visit succ n) (succ a) (s.paint a .grey) = some (o, s₁) ∧
      (o = .ok ∧ s' = { s₁.paint a .black with order := s₁.order ++ [a] } ∨ o ≠ .ok ∧ s' = s₁)) := by
  unfold visit at h
  cases hc : s.colour a with
  | black =>
    rw [hc] at h
    simp only [Option.some.injEq, Prod.mk.injEq] at h
    exact Or.inl ⟨rfl, h.1.symm, h.2.symm⟩
  | grey =>
    rw [hc] at h
    simp only [Option.some.injEq, Prod.mk.injEq] at h
    exact Or.inr (Or.inl ⟨rfl, h.1.symm, h.2.symm⟩)
  | white =>
    rw [hc] at h
    simp only at h
    refine Or.inr (Or.inr ⟨rfl, ?_⟩)
    split at h
    · rename_i s₁ h1
      simp only [Option.some.injEq, Prod.mk.injEq] at h
      obtain ⟨rfl, rfl⟩ := h
      exact ⟨s₁, h1, Or.inl ⟨rfl, rfl⟩⟩
    · rename_i hne
      refine ⟨s', h, Or.inr ⟨?_, rfl⟩⟩
      rintro rfl
      exact hne s' h

omit [DecidableEq α] in
/-- What walking a list of edges can do. -/
theorem visitAll_cons {f : α → St α → Option (Out ε × St α)} {x : Except ε α} {es : List (Except ε α)}
    (h : visitAll f (x :: es) s = some (o, s')) :
    (∃ e, x = .error e ∧ o = .err e ∧ s' = s) ∨
    ∃ b, x = .ok b ∧ ((∃ s₁, f b s = some (.ok, s₁) ∧ visitAll f es s₁ = some (o, s')) ∨
      o ≠ .ok ∧ f b s = some (o, s')) := by
  cases x with
  | error e =>
    simp only [visitAll, Option.some.injEq, Prod.mk.injEq] at h
    exact Or.inl ⟨e, rfl, h.1.symm, h.2.symm⟩
  | ok b =>
    refine Or.inr ⟨b, rfl, ?_⟩
    simp only [visitAll] at h
    split at h
    · rename_i s₁ h1
      exact Or.inl ⟨s₁, h1, h⟩
    · rename_i hne
      refine Or.inr ⟨?_, h⟩
      rintro rfl
      exact hne s' h

omit [DecidableEq α] in
/-- A relation that every visit establishes holds across a list of edges. -/
theorem visitAll_rel {f : α → St α → Option (Out ε × St α)} {R : Out ε → St α → St α → Prop}
    (hrefl : ∀ o s, R o s s) (htrans : ∀ o s₁ s₂ s₃, R .ok s₁ s₂ → R o s₂ s₃ → R o s₁ s₃)
    (hf : ∀ b s s' o, f b s = some (o, s') → R o s s') :
    ∀ (es : List (Except ε α)) (s s' : St α) (o : Out ε), visitAll f es s = some (o, s') → R o s s' := by
  intro es
  induction es with
  | nil =>
    intro s s' o h
    simp only [visitAll, Option.some.injEq, Prod.mk.injEq] at h
    rw [h.2]; exact hrefl o s'
  | cons x es ih =>
    intro s s' o h
    obtain ⟨e, -, -, rfl⟩ | ⟨b, -, ⟨s₁, h1, h2⟩ | ⟨-, h1⟩⟩ := visitAll_cons h
    · exact hrefl o s'
    · exact htrans o s s₁ s' (hf b s s₁ .ok h1) (ih s₁ s' o h2)
    · exact hf b s s' o h1

/-! ## A search that ends well -/

/-- Every node stands after the targets of all its edges, none of which fails. -/
inductive Topo (succ : α → List (Except ε α)) : List α → Prop
  | nil : Topo succ []
  | snoc {l : List α} {a : α} : Topo succ l → (∀ x ∈ succ a, ∃ b ∈ l, x = .ok b) → Topo succ (l ++ [a])

/-- The invariant of the search: the list is that of the black nodes. -/
structure OK (succ : α → List (Except ε α)) (s : St α) : Prop where
  black : ∀ a, s.colour a = .black ↔ a ∈ s.order
  nodup : s.order.Nodup
  topo : Topo succ s.order

omit [DecidableEq α] in
theorem start_ok : OK succ St.start := ⟨by simp [St.start], List.nodup_nil, Topo.nil⟩

/-- A white node that turns grey is not listed. -/
theorem OK.paint (h : OK succ s) (hw : s.colour a = .white) : OK succ (s.paint a .grey) := by
  refine ⟨?_, h.nodup, h.topo⟩
  intro b
  by_cases hb : b = a
  · subst hb
    have : b ∉ s.order := by rw [← h.black, hw]; simp
    simp [St.paint, this]
  · simp [St.paint, hb, h.black]

/-- What a search adds: it lists nodes reachable from where it starts and leaves
the nodes that are being visited as they are. -/
structure Extends (P : α → Prop) (s s' : St α) : Prop where
  grey : ∀ b, s'.colour b = .grey ↔ s.colour b = .grey
  order : ∃ l, s'.order = s.order ++ l ∧ ∀ b ∈ l, P b

omit [DecidableEq α] in
theorem Extends.refl (P : α → Prop) (s : St α) : Extends P s s := ⟨fun _ => Iff.rfl, [], by simp, by simp⟩

omit [DecidableEq α] in
theorem Extends.trans {P : α → Prop} {s₁ s₂ s₃ : St α} (h1 : Extends P s₁ s₂) (h2 : Extends P s₂ s₃) :
    Extends P s₁ s₃ := by
  obtain ⟨l₁, e₁, p₁⟩ := h1.order
  obtain ⟨l₂, e₂, p₂⟩ := h2.order
  refine ⟨fun b => (h2.grey b).trans (h1.grey b), l₁ ++ l₂, by rw [e₂, e₁, List.append_assoc], ?_⟩
  intro b hb
  rcases List.mem_append.1 hb with hb | hb
  · exact p₁ b hb
  · exact p₂ b hb

omit [DecidableEq α] in
theorem Extends.mono {P Q : α → Prop} (hPQ : ∀ b, P b → Q b) (h : Extends P s s') : Extends Q s s' := by
  obtain ⟨l, e, p⟩ := h.order
  exact ⟨h.grey, l, e, fun b hb => hPQ b (p b hb)⟩

omit [DecidableEq α] in
theorem Extends.mem {P : α → Prop} (h : Extends P s s') {b : α} (hb : b ∈ s.order) : b ∈ s'.order := by
  obtain ⟨l, e, -⟩ := h.order
  rw [e]; exact List.mem_append_left _ hb

omit [DecidableEq α] in
theorem visitAll_ok {f : α → St α → Option (Out ε × St α)} {P : α → Prop}
    (hf : ∀ b s s', P b → OK succ s → f b s = some (.ok, s') →
      OK succ s' ∧ Extends P s s' ∧ b ∈ s'.order) :
    ∀ (es : List (Except ε α)) (s s' : St α), (∀ b, .ok b ∈ es → P b) → OK succ s →
      visitAll f es s = some (.ok, s') →
      OK succ s' ∧ Extends P s s' ∧ ∀ x ∈ es, ∃ b ∈ s'.order, x = .ok b := by
  intro es
  induction es with
  | nil =>
    intro s s' _ hs h
    simp only [visitAll, Option.some.injEq, Prod.mk.injEq, true_and] at h
    subst h
    exact ⟨hs, Extends.refl P s, by simp⟩
  | cons x es ih =>
    intro s s' hP hs h
    obtain ⟨e, -, ho, -⟩ | ⟨b, rfl, ⟨s₁, h1, h2⟩ | ⟨hne, -⟩⟩ := visitAll_cons h
    · exact absurd ho (by simp)
    · obtain ⟨k1, k2, k3⟩ := hf b s s₁ (hP b List.mem_cons_self) hs h1
      obtain ⟨l1, l2, l3⟩ := ih s₁ s' (fun b hb => hP b (List.mem_cons_of_mem _ hb)) k1 h2
      refine ⟨l1, k2.trans l2, ?_⟩
      intro x hx
      rcases List.mem_cons.1 hx with rfl | hx
      · exact ⟨b, l2.mem k3, rfl⟩
      · exact l3 x hx
    · exact absurd rfl hne

/-- **A search that ends well** keeps the invariant, lists its start, and adds
only nodes reachable from it. -/
theorem visit_ok : ∀ (n : ℕ) (a : α) (s s' : St α), OK succ s → visit succ n a s = some (.ok, s') →
    OK succ s' ∧ Extends (ReflTransGen (Edge succ) a) s s' ∧ a ∈ s'.order := by
  intro n
  induction n with
  | zero => intro a s s' _ h; simp [visit] at h
  | succ n ih =>
    intro a s s' hs h
    obtain ⟨hc, -, rfl⟩ | ⟨-, ho, -⟩ | ⟨hc, s₁, h1, ⟨-, rfl⟩ | ⟨hne, -⟩⟩ := visit_cases h
    · exact ⟨hs, Extends.refl _ _, (hs.black a).1 hc⟩
    · exact absurd ho (by simp)
    · have hgrey := hs.paint hc
      -- what is reached from a successor is reached from `a`
      have hf : ∀ b s s', ReflTransGen (Edge succ) a b → OK succ s → visit succ n b s = some (.ok, s') →
          OK succ s' ∧ Extends (ReflTransGen (Edge succ) a) s s' ∧ b ∈ s'.order := by
        intro b s s' hb hs h
        obtain ⟨k1, k2, k3⟩ := ih b s s' hs h
        exact ⟨k1, k2.mono (fun c hc => hb.trans hc), k3⟩
      obtain ⟨k1, k2, k3⟩ := visitAll_ok hf (succ a) _ s₁ (fun b hb => ReflTransGen.single hb) hgrey h1
      -- the node is still grey when its edges are done, so it is not listed yet
      have hga : s₁.colour a = .grey := by rw [k2.grey]; simp [St.paint]
      have hna : a ∉ s₁.order := by rw [← k1.black, hga]; simp
      refine ⟨⟨?_, ?_, Topo.snoc k1.topo k3⟩, ⟨?_, ?_⟩, by simp⟩
      · intro b
        by_cases hb : b = a
        · subst hb; simp [St.paint]
        · simp [St.paint, hb, k1.black]
      · exact List.nodup_append.2 ⟨k1.nodup, List.nodup_singleton a, by simpa using fun b hb => ne_of_mem_of_not_mem hb hna⟩
      · intro b
        by_cases hb : b = a
        · subst hb; simp [St.paint, hc]
        · simpa [St.paint, hb] using k2.grey b
      · obtain ⟨l, e, p⟩ := k2.order
        have e' : s₁.order = s.order ++ l := e
        refine ⟨l ++ [a], by simp [e'], ?_⟩
        intro b hb
        rcases List.mem_append.1 hb with hb | hb
        · exact p b hb
        · rw [List.mem_singleton.1 hb]
    · exact absurd rfl hne

theorem visit_last (hw : s.colour a = .white) (h : visit succ n a s = some (.ok, s')) :
    s'.order.getLast? = some a := by
  cases n with
  | zero => simp [visit] at h
  | succ n =>
    obtain ⟨hc, -, -⟩ | ⟨hc, -, -⟩ | ⟨-, s₁, -, ⟨-, rfl⟩ | ⟨hne, -⟩⟩ := visit_cases h
    · rw [hc] at hw; exact absurd hw (by simp)
    · rw [hc] at hw; exact absurd hw (by simp)
    · simp
    · exact absurd rfl hne

variable {l : List α}

omit [DecidableEq α] in
/-- In such a list the targets of a node's edges stand before it. -/
theorem Topo.before (hl : Topo succ l) : ∀ a ∈ l, ∃ l₁ l₂, l = l₁ ++ a :: l₂ ∧ ∀ x ∈ succ a, ∃ b ∈ l₁, x = .ok b := by
  induction hl with
  | nil => simp
  | @snoc l c hl hc ih =>
    intro a ha
    rcases List.mem_append.1 ha with ha | ha
    · obtain ⟨l₁, l₂, rfl, h⟩ := ih a ha
      exact ⟨l₁, l₂ ++ [c], by simp, h⟩
    · rw [List.mem_singleton.1 ha]
      exact ⟨l, [], rfl, hc⟩

omit [DecidableEq α] in
theorem Topo.edge (hl : Topo succ l) (ha : a ∈ l) {b : α} (hab : Edge succ a b) : b ∈ l := by
  obtain ⟨l₁, l₂, rfl, h⟩ := hl.before a ha
  obtain ⟨b', hb, hbb⟩ := h _ hab
  rw [Except.ok.injEq] at hbb
  rw [hbb]; exact List.mem_append_left _ hb

omit [DecidableEq α] in
theorem Topo.no_error (hl : Topo succ l) (ha : a ∈ l) (e : ε) : .error e ∉ succ a := by
  intro he
  obtain ⟨l₁, l₂, -, h⟩ := hl.before a ha
  obtain ⟨b, -, hb⟩ := h _ he
  exact absurd hb (by simp)

omit [DecidableEq α] in
theorem Topo.reach (hl : Topo succ l) (ha : a ∈ l) {b : α} (hab : ReflTransGen (Edge succ) a b) : b ∈ l := by
  induction hab with
  | refl => exact ha
  | tail _ hbc ih => exact hl.edge ih hbc

/-- No node of such a list lies on a cycle. -/
theorem Topo.acyclic (hl : Topo succ l) (hnd : l.Nodup) (ha : a ∈ l) : ¬TransGen (Edge succ) a a := by
  -- the position in the list drops along every edge
  have hstep : ∀ a ∈ l, ∀ b, Edge succ a b → l.idxOf b < l.idxOf a := by
    intro a ha b hab
    obtain ⟨l₁, l₂, rfl, h⟩ := hl.before a ha
    obtain ⟨b', hb, hbb⟩ := h _ hab
    rw [Except.ok.injEq] at hbb
    subst hbb
    have ha₁ : a ∉ l₁ := fun h => (List.nodup_append.1 hnd).2.2 a h a List.mem_cons_self rfl
    rw [List.idxOf_append_of_mem hb, List.idxOf_append_of_notMem ha₁]
    have := List.idxOf_lt_length_of_mem hb
    omega
  have hdrop : ∀ b, TransGen (Edge succ) a b → l.idxOf b < l.idxOf a := by
    intro b hab
    induction hab with
    | single hab => exact hstep a ha _ hab
    | @tail b c hab hbc ih => exact (hstep b (hl.reach ha hab.to_reflTransGen) c hbc).trans ih
  exact fun h => lt_irrefl _ (hdrop a h)

/-! ## A search that stops early -/

omit [DecidableEq α] in
theorem visitAll_stop {f : α → St α → Option (Out ε × St α)} {R : Out ε → Prop} {I : St α → Prop}
    (hf : ∀ b s s' o, I s → f b s = some (o, s') → .ok b ∈ succ a → o ≠ .ok → R o)
    (hI : ∀ b s s', I s → f b s = some (.ok, s') → I s') (hR : ∀ e, .error e ∈ succ a → R (.err e)) :
    ∀ (es : List (Except ε α)) (s s' : St α) (o : Out ε), es ⊆ succ a → I s →
      visitAll f es s = some (o, s') → o ≠ .ok → R o := by
  intro es
  induction es with
  | nil =>
    intro s s' o _ _ h hne
    simp only [visitAll, Option.some.injEq, Prod.mk.injEq] at h
    exact absurd h.1.symm hne
  | cons x es ih =>
    intro s s' o hsub hs h hne
    obtain ⟨e, rfl, rfl, -⟩ | ⟨b, rfl, ⟨s₁, h1, h2⟩ | ⟨-, h1⟩⟩ := visitAll_cons h
    · exact hR e (hsub List.mem_cons_self)
    · exact ih s₁ s' o (fun y hy => hsub (List.mem_cons_of_mem _ hy)) (hI b s s₁ hs h1) h2 hne
    · exact hf b s s' o hs h1 (hsub List.mem_cons_self) hne

/-- A real reason to stop a search from `a`. -/
def Reason (succ : α → List (Except ε α)) (a : α) : Out ε → Prop
  | .ok => False
  | .cycle => ∃ c, ReflTransGen (Edge succ) a c ∧ TransGen (Edge succ) c c
  | .err e => ∃ c, ReflTransGen (Edge succ) a c ∧ .error e ∈ succ c

omit [DecidableEq α] in
theorem Reason.head {b : α} (hab : Edge succ a b) (h : Reason succ b o) : Reason succ a o := by
  match o, h with
  | .cycle, ⟨c, hbc, hc⟩ => exact ⟨c, ReflTransGen.head hab hbc, hc⟩
  | .err e, ⟨c, hbc, hc⟩ => exact ⟨c, ReflTransGen.head hab hbc, hc⟩

/-- A visit that ends well leaves the grey nodes grey and makes none. -/
theorem visit_grey (h : visit succ n a s = some (.ok, s')) :
    ∀ b, s'.colour b = .grey ↔ s.colour b = .grey := by
  induction n generalizing a s s' with
  | zero => simp [visit] at h
  | succ n ih =>
    obtain ⟨-, -, rfl⟩ | ⟨-, ho, -⟩ | ⟨hc, s₁, h1, ⟨-, rfl⟩ | ⟨hne, -⟩⟩ := visit_cases h
    · exact fun _ => Iff.rfl
    · exact absurd ho (by simp)
    · have key := visitAll_rel (R := fun o s s' => o = .ok → ∀ b, s'.colour b = .grey ↔ s.colour b = .grey)
        (fun _ _ _ _ => Iff.rfl) (fun _ _ _ _ h1 h2 ho b => (h2 ho b).trans (h1 rfl b))
        (fun b s s' o h ho => ih (ho ▸ h)) _ _ _ _ h1 rfl
      intro b
      have hb := key b
      by_cases hba : b = a
      · subst hba; simp [St.paint, hc]
      · simpa [St.paint, hba] using hb
    · exact absurd rfl hne

/-- **A search stops early only for a real reason**, as long as the nodes being
visited all lead to the node it starts from. -/
theorem visit_stop : ∀ (n : ℕ) (a : α) (s s' : St α) (o : Out ε),
    (∀ b, s.colour b = .grey → TransGen (Edge succ) b a) →
    visit succ n a s = some (o, s') → o ≠ .ok → Reason succ a o := by
  intro n
  induction n with
  | zero => intro a s s' o _ h; simp [visit] at h
  | succ n ih =>
    intro a s s' o hg h hne
    obtain ⟨-, rfl, -⟩ | ⟨hc, rfl, -⟩ | ⟨hc, s₁, h1, -⟩ := visit_cases h
    · exact absurd rfl hne
    · exact ⟨a, ReflTransGen.refl, hg a hc⟩
    · -- while the edges of `a` are walked, the grey nodes lead to `a` or are `a`
      refine visitAll_stop (I := fun s => ∀ b, s.colour b = .grey → ReflTransGen (Edge succ) b a)
        ?_ ?_ ?_ (succ a) _ s₁ o (List.Subset.refl _) ?_ h1 hne
      · intro b s s' o hs hb hab ho
        exact Reason.head hab (ih b s s' o (fun c hc => TransGen.tail' (hs c hc) hab) hb ho)
      · intro b s s' hs hb c hc
        exact hs c ((visit_grey hb c).1 hc)
      · intro e he
        exact ⟨a, ReflTransGen.refl, he⟩
      · intro b hb
        by_cases hba : b = a
        · rw [hba]
        · refine (hg b ?_).to_reflTransGen
          simpa [St.paint, hba] using hb

/-! ## Enough fuel -/

/-- Nothing turns white. -/
theorem visit_white : ∀ (n : ℕ) (a : α) (s s' : St α) (o : Out ε), visit succ n a s = some (o, s') →
    ∀ b, s'.colour b = .white → s.colour b = .white := by
  intro n
  induction n with
  | zero => intro a s s' o h; simp [visit] at h
  | succ n ih =>
    intro a s s' o h b hb
    obtain ⟨-, -, rfl⟩ | ⟨-, -, rfl⟩ | ⟨hc, s₁, h1, hs'⟩ := visit_cases h
    · exact hb
    · exact hb
    · have hb₁ : s₁.colour b = .white := by
        obtain ⟨-, rfl⟩ | ⟨-, rfl⟩ := hs'
        · by_cases hba : b = a
          · subst hba; simp [St.paint] at hb
          · simpa [St.paint, hba] using hb
        · exact hb
      have := visitAll_rel (R := fun _ s s' => s'.colour b = .white → s.colour b = .white)
        (fun _ _ h => h) (fun _ _ _ _ h1 h2 h => h1 (h2 h)) (fun c s s' o h => ih c s s' o h b) _ _ _ _ h1 hb₁
      by_cases hba : b = a
      · rw [hba]; exact hc
      · simpa [St.paint, hba] using this

/-- **The number of white nodes bounds the depth of the search**: in a finite
graph the search ends. -/
theorem visit_isSome {V : Finset α} (hV : ∀ a ∈ V, ∀ b, Edge succ a b → b ∈ V) :
    ∀ (n : ℕ) (a : α) (s : St α), a ∈ V → (V.filter fun b => s.colour b = .white).card < n →
      (visit succ n a s).isSome := by
  intro n
  induction n with
  | zero => intro a s _ h; exact absurd h (by omega)
  | succ n ih =>
    intro a s ha hn
    -- walking the edges of a node never adds a white one
    have key : ∀ (es : List (Except ε α)) (s : St α), (∀ b, .ok b ∈ es → b ∈ V) →
        (V.filter fun b => s.colour b = .white).card < n → (visitAll (visit succ n) es s).isSome := by
      intro es
      induction es with
      | nil => intro s _ _; simp [visitAll]
      | cons x es ihe =>
        intro s hes hs
        cases x with
        | error e => simp [visitAll]
        | ok b =>
          obtain ⟨⟨o, s₁⟩, h1⟩ := Option.isSome_iff_exists.1 (ih b s (hes b List.mem_cons_self) hs)
          simp only [visitAll, h1]
          cases o with
          | ok =>
            refine ihe s₁ (fun b hb => hes b (List.mem_cons_of_mem _ hb)) (lt_of_le_of_lt ?_ hs)
            refine Finset.card_le_card (Finset.monotone_filter_right V ?_)
            exact fun c _ hc => visit_white n b s s₁ .ok h1 c hc
          | cycle => simp
          | err e => simp
    unfold visit
    cases hc : s.colour a with
    | black => simp
    | grey => simp
    | white =>
      -- painting `a` grey takes one off the count
      have hlt : (V.filter fun b => (s.paint a .grey).colour b = .white).card < n := by
        have hsub : (V.filter fun b => (s.paint a .grey).colour b = .white) ⊆
            (V.filter fun b => s.colour b = .white).erase a := by
          intro b hb
          obtain ⟨hbV, hbw⟩ := Finset.mem_filter.1 hb
          have hba : b ≠ a := by rintro rfl; simp [St.paint] at hbw
          refine Finset.mem_erase.2 ⟨hba, Finset.mem_filter.2 ⟨hbV, ?_⟩⟩
          simpa [St.paint, hba] using hbw
        have hle := Finset.card_le_card hsub
        have hmem : a ∈ V.filter fun b => s.colour b = .white := Finset.mem_filter.2 ⟨ha, hc⟩
        rw [Finset.card_erase_of_mem hmem] at hle
        have hpos := Finset.card_pos.2 ⟨a, hmem⟩
        omega
      obtain ⟨⟨o, s₁⟩, h1⟩ := Option.isSome_iff_exists.1 (key (succ a) _ (hV a ha) hlt)
      simp only [h1]
      cases o <;> simp

/-! ## A search after others -/

omit [DecidableEq α] in
theorem Topo.of_append {l₁ : List α} : ∀ (l₂ : List α), Topo succ (l₁ ++ l₂) → Topo succ l₁ := by
  intro l₂
  induction l₂ using List.reverseRecOn with
  | nil => intro h; rwa [List.append_nil] at h
  | append_singleton l₂ a ih =>
    intro h
    rw [← List.append_assoc] at h
    generalize hk : l₁ ++ l₂ ++ [a] = k at h
    cases h with
    | nil => exact absurd hk (by simp)
    | snoc h' _ => exact ih ((List.append_inj' hk rfl).1 ▸ h')

/-- Inside a list of finished nodes nothing fails: a search that starts there ends
well and touches nothing else. -/
theorem visit_closed : ∀ (n : ℕ) (l : List α) (a : α) (s s' : St α) (o : Out ε), Topo succ l → l.Nodup → a ∈ l →
    (∀ b ∈ l, s.colour b ≠ .grey) → visit succ n a s = some (o, s') →
    o = .ok ∧ (∀ b, b ∉ l → s'.colour b = s.colour b) ∧ (∀ b ∈ l, s'.colour b ≠ .grey) ∧
      ∃ k, s'.order = s.order ++ k ∧ ∀ b ∈ k, b ∈ l := by
  intro n
  induction n with
  | zero => intro l a s s' o _ _ _ _ h; simp [visit] at h
  | succ n ih =>
    intro l a s s' o hl hnd ha hg h
    obtain ⟨-, rfl, rfl⟩ | ⟨hc, -, -⟩ | ⟨hc, s₁, h1, hs'⟩ := visit_cases h
    · exact ⟨rfl, fun _ _ => rfl, hg, [], by simp, by simp⟩
    · exact absurd hc (hg a ha)
    · -- the edges of `a` lead to the nodes before it
      obtain ⟨l₁, l₂, rfl, hbefore⟩ := hl.before a ha
      have hl₁ : Topo succ l₁ := hl.of_append _
      have hnd₁ : l₁.Nodup := (List.nodup_append.1 hnd).1
      have ha₁ : a ∉ l₁ := fun h => (List.nodup_append.1 hnd).2.2 a h a List.mem_cons_self rfl
      have hwalk : ∀ (es : List (Except ε α)) (s s' : St α), (∀ x ∈ es, ∃ b ∈ l₁, x = .ok b) →
          (∀ b ∈ l₁, s.colour b ≠ .grey) → visitAll (visit succ n) es s = some (o, s') →
          o = .ok ∧ (∀ b, b ∉ l₁ → s'.colour b = s.colour b) ∧ (∀ b ∈ l₁, s'.colour b ≠ .grey) ∧
            ∃ k, s'.order = s.order ++ k ∧ ∀ b ∈ k, b ∈ l₁ := by
        intro es
        induction es with
        | nil =>
          intro s s' _ hg h
          simp only [visitAll, Option.some.injEq, Prod.mk.injEq] at h
          obtain ⟨rfl, rfl⟩ := h
          exact ⟨rfl, fun _ _ => rfl, hg, [], by simp, by simp⟩
        | cons x es ihe =>
          intro s s' hes hg h
          obtain ⟨c, hc₁, hxc⟩ := hes x List.mem_cons_self
          obtain ⟨e, rfl, -, -⟩ | ⟨b, rfl, ⟨s₂, h2, h3⟩ | ⟨hne, h2⟩⟩ := visitAll_cons h
          · exact absurd hxc (by simp)
          · rw [Except.ok.injEq] at hxc
            subst hxc
            obtain ⟨-, k2, k3, k, hk, hkl⟩ := ih l₁ b s s₂ .ok hl₁ hnd₁ hc₁ hg h2
            obtain ⟨j1, j2, j3, k', hk', hkl'⟩ := ihe s₂ s' (fun y hy => hes y (List.mem_cons_of_mem _ hy)) k3 h3
            refine ⟨j1, fun c hc => (j2 c hc).trans (k2 c hc), j3, k ++ k', ?_, ?_⟩
            · rw [hk', hk, List.append_assoc]
            · intro c hc
              rcases List.mem_append.1 hc with hc | hc
              · exact hkl c hc
              · exact hkl' c hc
          · rw [Except.ok.injEq] at hxc
            subst hxc
            exact absurd (ih l₁ b s s' o hl₁ hnd₁ hc₁ hg h2).1 hne
      have hg₁ : ∀ b ∈ l₁, (s.paint a .grey).colour b ≠ .grey := by
        intro b hb
        have hba : b ≠ a := fun e => ha₁ (e ▸ hb)
        simpa [St.paint, hba] using hg b (List.mem_append_left _ hb)
      obtain ⟨rfl, k2, k3, k, hk, hkl⟩ := hwalk (succ a) _ s₁ hbefore hg₁ h1
      obtain ⟨-, rfl⟩ | ⟨hne, -⟩ := hs'
      · refine ⟨rfl, ?_, ?_, k ++ [a], ?_, ?_⟩
        · intro b hb
          have hba : b ≠ a := by rintro rfl; exact hb ha
          have hb₁ : b ∉ l₁ := fun h => hb (List.mem_append_left _ h)
          simpa [St.paint, hba] using k2 b hb₁
        · intro b hb
          by_cases hba : b = a
          · subst hba; simp [St.paint]
          · by_cases hb₁ : b ∈ l₁
            · simpa [St.paint, hba] using k3 b hb₁
            · have hcol : s₁.colour b = s.colour b := by simpa [St.paint, hba] using k2 b hb₁
              simpa [St.paint, hba, hcol] using hg b hb
        · have hk' : s₁.order = s.order ++ k := hk
          simp [hk']
        · intro b hb
          rcases List.mem_append.1 hb with hb | hb
          · exact List.mem_append_left _ (hkl b hb)
          · rw [List.mem_singleton.1 hb]; exact ha
      · exact absurd rfl hne

/-- Two searches side by side: `t` has the nodes of `l` behind it already, `s` has
not. -/
structure Behind (l : List α) (s t : St α) : Prop where
  colour : ∀ b, t.colour b = if b ∈ l then .black else s.colour b
  grey : ∀ b ∈ l, s.colour b ≠ .grey
  order : t.order = l ++ s.order.filter (· ∉ l)

theorem Behind.paint {l : List α} {t : St α} (h : Behind l s t) (ha : a ∉ l) (c : Colour) :
    Behind l (s.paint a c) (t.paint a c) := by
  refine ⟨?_, ?_, h.order⟩
  · intro b
    by_cases hb : b = a
    · subst hb; simp [St.paint, ha]
    · simpa [St.paint, hb] using h.colour b
  · intro b hb
    have hba : b ≠ a := fun e => ha (e ▸ hb)
    simpa [St.paint, hba] using h.grey b hb

/-- **A search skips what is finished and does the rest alike**: with the nodes of
a closed list behind it, it ends in the same way, and lists the same nodes less
those. -/
theorem visit_behind {l : List α} (hl : Topo succ l) (hnd : l.Nodup) : ∀ (n : ℕ) (a : α) (s t s' : St α) (o : Out ε),
    Behind l s t → visit succ n a s = some (o, s') → ∃ t', visit succ n a t = some (o, t') ∧ Behind l s' t' := by
  intro n
  induction n with
  | zero => intro a s t s' o _ h; simp [visit] at h
  | succ n ih =>
    intro a s t s' o hst h
    by_cases ha : a ∈ l
    · -- the one search goes through a part of `l`, the other has it behind it
      obtain ⟨rfl, hcol, hgrey, k, hk, hkl⟩ := visit_closed (n + 1) l a s s' o hl hnd ha hst.grey h
      refine ⟨t, ?_, ?_, hgrey, ?_⟩
      · have hblack : t.colour a = .black := by rw [hst.colour, if_pos ha]
        unfold visit
        rw [hblack]
      · intro b
        rw [hst.colour]
        split
        · rfl
        · rename_i hb; exact (hcol b hb).symm
      · have hnone : k.filter (· ∉ l) = [] := by
          rw [List.filter_eq_nil_iff]
          intro b hb
          simpa using hkl b hb
        rw [hst.order, hk, List.filter_append, hnone, List.append_nil]
    · have hcol : t.colour a = s.colour a := by rw [hst.colour, if_neg ha]
      obtain ⟨hc, rfl, rfl⟩ | ⟨hc, rfl, rfl⟩ | ⟨hc, s₁, h1, hs'⟩ := visit_cases h
      · refine ⟨t, ?_, hst⟩
        unfold visit
        rw [hcol, hc]
      · refine ⟨t, ?_, hst⟩
        unfold visit
        rw [hcol, hc]
      · have hwalk : ∀ (es : List (Except ε α)) (s t s' : St α) (o : Out ε), Behind l s t →
            visitAll (visit succ n) es s = some (o, s') →
            ∃ t', visitAll (visit succ n) es t = some (o, t') ∧ Behind l s' t' := by
          intro es
          induction es with
          | nil =>
            intro s t s' o hst h
            simp only [visitAll, Option.some.injEq, Prod.mk.injEq] at h
            obtain ⟨rfl, rfl⟩ := h
            exact ⟨t, rfl, hst⟩
          | cons x es ihe =>
            intro s t s' o hst h
            obtain ⟨e, rfl, rfl, rfl⟩ | ⟨b, rfl, ⟨s₂, h2, h3⟩ | ⟨hne, h2⟩⟩ := visitAll_cons h
            · exact ⟨t, rfl, hst⟩
            · obtain ⟨t₂, ht₂, hst₂⟩ := ih b s t s₂ .ok hst h2
              obtain ⟨t', ht', hst'⟩ := ihe s₂ t₂ s' o hst₂ h3
              exact ⟨t', by simp only [visitAll, ht₂, ht'], hst'⟩
            · obtain ⟨t', ht', hst'⟩ := ih b s t s' o hst h2
              refine ⟨t', ?_, hst'⟩
              simp only [visitAll, ht']
              cases o with
              | ok => exact absurd rfl hne
              | cycle => rfl
              | err e => rfl
        obtain ⟨t₁, ht₁, hst₁⟩ := hwalk (succ a) _ _ s₁ o (hst.paint ha .grey) h1
        unfold visit
        rw [hcol, hc]
        simp only [ht₁]
        obtain ⟨rfl, rfl⟩ | ⟨hne, rfl⟩ := hs'
        · refine ⟨_, rfl, (hst₁.paint ha .black).colour, (hst₁.paint ha .black).grey, ?_⟩
          simp [hst₁.order, ha]
        · refine ⟨t₁, ?_, hst₁⟩
          cases o with
          | ok => exact absurd rfl hne
          | cycle => rfl
          | err e => rfl

/-! ## A search from the start -/

variable {V : Finset α} (hV : ∀ a ∈ V, ∀ b, Edge succ a b → b ∈ V)
include hV

/-- **The search succeeds exactly when it should**: no failing edge and no cycle
can be reached. -/
theorem search_ok_iff (ha : a ∈ V) (hn : V.card < n) :
    (∃ s', visit succ n a St.start = some (.ok, s')) ↔
      (∀ b, ReflTransGen (Edge succ) a b → ∀ e, .error e ∉ succ b) ∧
      ∀ b, ReflTransGen (Edge succ) a b → ¬TransGen (Edge succ) b b := by
  constructor
  · rintro ⟨s', h⟩
    obtain ⟨hok, -, hmem⟩ := visit_ok n a _ s' start_ok h
    exact ⟨fun b hb e => hok.topo.no_error (hok.topo.reach hmem hb) e,
      fun b hb => hok.topo.acyclic hok.nodup (hok.topo.reach hmem hb)⟩
  · rintro ⟨herr, hcyc⟩
    have hcard : (V.filter fun b => (St.start : St α).colour b = .white).card < n :=
      lt_of_le_of_lt (Finset.card_filter_le _ _) hn
    obtain ⟨⟨o, s'⟩, h⟩ := Option.isSome_iff_exists.1 (visit_isSome hV n a St.start ha hcard)
    have hstop := visit_stop n a St.start s' o (by simp [St.start]) h
    match o with
    | .ok => exact ⟨s', h⟩
    | .cycle =>
      obtain ⟨c, hac, hc⟩ := hstop (by simp)
      exact absurd hc (hcyc c hac)
    | .err e =>
      obtain ⟨c, hac, hc⟩ := hstop (by simp)
      exact absurd hc (herr c hac e)

end Apg.Dfs
