import Mathlib

/-!
# Taking a list apart from its free ends

A list is taken apart one element at a time: one that no other element left needs,
or the first one if every element left is needed (`Peels`).

* `Peels.perm`: the result is a permutation of the list.
* `Peels.done_closed`: if there is no cycle, those that need an element taken are taken before.
* `Peels.before_iff`: **what is needed comes after what needs it, exactly if the first
  element of every blocked part is in a cycle with all that need it there.** A part
  is blocked if each of its elements is needed by another one (`Blocked`), and its
  first element is the one that goes before the others.
-/

namespace Apg.Peel

open Relation

variable {α : Type*} {r : α → α → Prop} {l order : List α}

/-- `order` is `l` taken apart, where `r b a` says that `b` needs `a`. -/
inductive Peels (r : α → α → Prop) : List α → List α → Prop
  | nil : Peels r [] []
  | free {before after order : List α} {a : α} : (∀ b ∈ before ++ after, ¬r b a) → Peels r (before ++ after) order →
      Peels r (before ++ a :: after) (a :: order)
  | stuck {rest order : List α} {a : α} : (∀ b ∈ a :: rest, ∃ c ∈ a :: rest, c ≠ b ∧ r c b) → Peels r rest order →
      Peels r (a :: rest) (a :: order)

/-- Every element is needed by another one. -/
def Blocked (r : α → α → Prop) (l : List α) : Prop := ∀ b ∈ l, ∃ c ∈ l, c ≠ b ∧ r c b

theorem Peels.perm (h : Peels r l order) : order.Perm l := by
  induction h with
  | nil => exact List.Perm.refl []
  | free _ _ ih => exact (ih.cons _).trans List.perm_middle.symm
  | stuck _ _ ih => exact ih.cons _

/-- The elements needed along a way through the list. -/
def NeededIn (r : α → α → Prop) (l : List α) : α → α → Prop := TransGen fun a b => a ∈ l ∧ b ∈ l ∧ r a b

theorem NeededIn.mono {part : List α} {a b : α} (h : NeededIn r part a b) (hsub : part.Sublist l) : NeededIn r l a b := by
  induction h with
  | single hstep => exact TransGen.single ⟨hsub.subset hstep.1, hsub.subset hstep.2.1, hstep.2.2⟩
  | tail _ hstep ih => exact ih.tail ⟨hsub.subset hstep.1, hsub.subset hstep.2.1, hstep.2.2⟩

/-- In a blocked part there is a cycle: if there was none, some element would be needed by
no other. -/
theorem Blocked.cycle (h : Blocked r l) (hne : l ≠ []) : ∃ a, NeededIn (fun a b => a ≠ b ∧ r a b) l a a := by
  by_contra hno
  let needs : {a // a ∈ l} → {a // a ∈ l} → Prop := fun a b => NeededIn (fun a b => a ≠ b ∧ r a b) l a.1 b.1
  have hirrefl : Std.Irrefl needs := ⟨fun a ha => hno ⟨a.1, ha⟩⟩
  have htrans : IsTrans _ needs := ⟨fun a b c hab hbc => TransGen.trans hab hbc⟩
  have hfinite : Finite {a // a ∈ l} := List.finite_toSet l
  have hwf : WellFounded needs := Finite.wellFounded_of_trans_of_irrefl needs
  obtain ⟨a, hal⟩ := List.exists_mem_of_ne_nil l hne
  obtain ⟨b, -, hmin⟩ := hwf.has_min Set.univ ⟨⟨a, hal⟩, trivial⟩
  obtain ⟨c, hc, hcb, hrel⟩ := h b.1 b.2
  exact hmin ⟨c, hc⟩ trivial (TransGen.single ⟨hc, b.2, hcb, hrel⟩)

section

variable [BEq α] [LawfulBEq α]

theorem idxOf_cons_of_ne {a b : α} (l : List α) (h : a ≠ b) : (a :: l).idxOf b = l.idxOf b + 1 := by
  rw [List.idxOf_cons, beq_false_of_ne h, cond_false]

/-- The first element of a blocked part goes before the others: it is not free as long
as they are there, and neither are they. -/
theorem Peels.head_before (h : Peels r l order) : l.Nodup → ∀ {i : α} {rest : List α}, (i :: rest).Sublist l →
    Blocked r (i :: rest) → ∀ j ∈ rest, order.idxOf i < order.idxOf j := by
  induction h with
  | nil =>
    intro _ i rest hsub
    exact absurd (List.sublist_nil.1 hsub) (by simp)
  | @free before after order a hfree _ ih =>
    intro hnd i rest hsub hblocked j hj
    obtain ⟨hnot, hnd'⟩ := List.nodup_cons.1 (List.nodup_middle.1 hnd)
    -- a free element is in no blocked part
    have hout : a ∉ i :: rest := by
      intro ha
      obtain ⟨c, hc, hne, hca⟩ := hblocked a ha
      have hcl := hsub.subset hc
      rw [List.mem_append, List.mem_cons] at hcl
      refine hfree c ?_ hca
      rw [List.mem_append]
      rcases hcl with h | h | h
      · exact Or.inl h
      · exact absurd h hne
      · exact Or.inr h
    have hsub' : (i :: rest).Sublist (before ++ after) := by
      have hfilter := hsub.filter (· != a)
      have hself : (i :: rest).filter (· != a) = i :: rest := by
        refine List.filter_eq_self.2 fun x hx => ?_
        have hxa : x ≠ a := fun heq => hout (heq ▸ hx)
        simpa using hxa
      have hrest : (before ++ a :: after).filter (· != a) = before ++ after := by
        have hba : ∀ x ∈ before ++ after, x ≠ a := fun x hx heq => hnot (heq ▸ hx)
        rw [List.filter_append, List.filter_cons_of_neg (by simp), ← List.filter_append]
        exact List.filter_eq_self.2 fun x hx => by simpa using hba x hx
      rwa [hself, hrest] at hfilter
    have hlt := ih hnd' hsub' hblocked j hj
    have hai : a ≠ i := fun heq => hout (heq ▸ List.mem_cons_self)
    have haj : a ≠ j := fun heq => hout (heq ▸ List.mem_cons_of_mem _ hj)
    rw [idxOf_cons_of_ne _ hai, idxOf_cons_of_ne _ haj]
    omega
  | @stuck rest' order a _ hpeel ih =>
    intro hnd i rest hsub hblocked j hj
    obtain ⟨hnot, hnd'⟩ := List.nodup_cons.1 hnd
    rcases List.cons_sublist_cons'.1 hsub with hsub' | ⟨rfl, hsub'⟩
    · -- the part is still all there
      have hlt := ih hnd' hsub' hblocked j hj
      have hai : a ≠ i := fun heq => hnot (heq ▸ hsub'.subset List.mem_cons_self)
      have haj : a ≠ j := fun heq => hnot (heq ▸ hsub'.subset (List.mem_cons_of_mem _ hj))
      rw [idxOf_cons_of_ne _ hai, idxOf_cons_of_ne _ haj]
      omega
    · have hij : i ≠ j := fun heq => hnot (heq ▸ hsub'.subset hj)
      rw [List.idxOf_cons_self, idxOf_cons_of_ne _ hij]
      omega

/-- Where an element goes before one that needs it, all that was left was blocked, and
it was the first. -/
theorem Peels.blocked_of_before (h : Peels r l order) {i j : α} (hij : r j i) :
    i ≠ j → j ∈ order → order.idxOf i < order.idxOf j →
      ∃ rest, (i :: rest).Sublist l ∧ Blocked r (i :: rest) ∧ j ∈ rest := by
  induction h with
  | nil =>
    intro _ hj
    exact absurd hj (by simp)
  | @free before after order a hfree hpeel ih =>
    intro hne hj hlt
    by_cases hai : a = i
    · -- `i` was free, so `j` had gone before
      have hjo : j ∈ order := (List.mem_cons.1 hj).resolve_left fun heq => hne (hai ▸ heq.symm)
      exact absurd (hai ▸ hij) (hfree j (hpeel.perm.mem_iff.1 hjo))
    by_cases haj : a = j
    · rw [haj, List.idxOf_cons_self] at hlt
      omega
    have hjo : j ∈ order := (List.mem_cons.1 hj).resolve_left fun heq => haj heq.symm
    rw [idxOf_cons_of_ne _ hai, idxOf_cons_of_ne _ haj] at hlt
    obtain ⟨rest, hsub, hblocked, hjr⟩ := ih hne hjo (by omega)
    exact ⟨rest, hsub.trans ((List.sublist_cons_self a after).append_left before), hblocked, hjr⟩
  | @stuck rest' order a hblocked hpeel ih =>
    intro hne hj hlt
    by_cases hai : a = i
    · have hjo : j ∈ order := (List.mem_cons.1 hj).resolve_left fun heq => hne (hai ▸ heq.symm)
      exact ⟨rest', by rw [hai], hai ▸ hblocked, hpeel.perm.mem_iff.1 hjo⟩
    by_cases haj : a = j
    · rw [haj, List.idxOf_cons_self] at hlt
      omega
    have hjo : j ∈ order := (List.mem_cons.1 hj).resolve_left fun heq => haj heq.symm
    rw [idxOf_cons_of_ne _ hai, idxOf_cons_of_ne _ haj] at hlt
    obtain ⟨rest, hsub, hrest, hjr⟩ := ih hne hjo (by omega)
    exact ⟨rest, hsub.cons a, hrest, hjr⟩

/-- **Whoever needs an element that is taken is taken before**, if there is no cycle. -/
theorem Peels.done_closed {done rest : List α} (h : Peels r l (done ++ rest))
    (hacyclic : ∀ a, ¬NeededIn (fun a b => a ≠ b ∧ r a b) l a a) {i j : α} (hi : i ∈ done) (hj : j ∈ l) (hji : r j i)
    (hne : i ≠ j) : j ∈ done := by
  by_contra hnot
  have hjo : j ∈ done ++ rest := h.perm.mem_iff.2 hj
  have hlt : (done ++ rest).idxOf i < (done ++ rest).idxOf j := by
    rw [List.idxOf_append_of_mem hi, List.idxOf_append_of_notMem hnot]
    have := List.idxOf_lt_length_of_mem hi
    omega
  obtain ⟨part, hsub, hblocked, -⟩ := h.blocked_of_before hji hne hjo hlt
  obtain ⟨a, ha⟩ := hblocked.cycle (List.cons_ne_nil i part)
  exact hacyclic a (ha.mono hsub)

/-- **When what is needed comes after what needs it**, but for elements in a cycle with
each other. -/
theorem Peels.before_iff (h : Peels r l order) (hnd : l.Nodup) :
    (∀ i ∈ l, ∀ j ∈ l, r j i → ¬NeededIn r l i j → order.idxOf j < order.idxOf i) ↔
      ∀ i rest, (i :: rest).Sublist l → Blocked r (i :: rest) → ∀ j ∈ rest, r j i → NeededIn r l i j := by
  constructor
  · intro hbefore i rest hsub hblocked j hj hji
    by_contra hno
    have hafter := hbefore i (hsub.subset List.mem_cons_self) j (hsub.subset (List.mem_cons_of_mem _ hj)) hji hno
    have hhead := h.head_before hnd hsub hblocked j hj
    omega
  · intro hpart i hi j hj hji hno
    have hio : i ∈ order := h.perm.mem_iff.2 hi
    have hjo : j ∈ order := h.perm.mem_iff.2 hj
    have hne : i ≠ j := by
      rintro rfl
      exact hno (TransGen.single ⟨hi, hi, hji⟩)
    by_contra hnot
    -- the two are at different places, so `i` came first
    have hplace : order.idxOf i ≠ order.idxOf j := fun heq => hne ((List.idxOf_inj hio).1 heq)
    obtain ⟨rest, hsub, hblocked, hjr⟩ := h.blocked_of_before hji hne hjo (by omega)
    exact hno (hpart i rest hsub hblocked j hjr hji)

end

end Apg.Peel
