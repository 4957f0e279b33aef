import Mathlib

/-!
# Runs of a separator

`squeeze sep l` keeps one element of every run of separators in `l`: the elements
that may not stand next to an equal one are the separators (`Apart`), and
Mathlib's `List.destutter` drops what is not apart from its predecessor.

* `squeeze_eq_runs`: it is the first element of every run.
* `squeeze_append_left`, `squeeze_append_right`: **squeezing a part first changes
  nothing**, so joins may be grouped in any way.
-/

namespace Apg.Runs

variable {α : Type*} [DecidableEq α] {sep x y : α} {l m : List α}

/-- The two are not both separators. -/
def Apart (sep x y : α) : Prop := ¬ (x = sep ∧ y = sep)

instance (sep : α) : DecidableRel (Apart sep) := fun x y => inferInstanceAs (Decidable ¬ (x = sep ∧ y = sep))

def squeeze (sep : α) (l : List α) : List α := l.destutter (Apart sep)

@[simp] theorem squeeze_nil (sep : α) : squeeze sep [] = [] := rfl

@[simp] theorem squeeze_singleton (sep x : α) : squeeze sep [x] = [x] := rfl

theorem isChain_squeeze (sep : α) (l : List α) : (squeeze sep l).IsChain (Apart sep) := l.isChain_destutter _

theorem squeeze_of_isChain (h : l.IsChain (Apart sep)) : squeeze sep l = l := l.destutter_of_isChain _ h

theorem squeeze_squeeze (sep : α) (l : List α) : squeeze sep (squeeze sep l) = squeeze sep l :=
  squeeze_of_isChain (isChain_squeeze sep l)

/-- The first of two separators goes, for which the second stands in. -/
theorem squeeze_cons_cons (sep x y : α) (l : List α) :
    squeeze sep (x :: y :: l) = if x = sep ∧ y = sep then squeeze sep (y :: l) else x :: squeeze sep (y :: l) := by
  unfold squeeze
  rw [List.destutter_cons_cons, List.destutter_cons']
  by_cases h : x = sep ∧ y = sep
  · obtain ⟨rfl, rfl⟩ := h
    simp [Apart]
  · rw [if_neg h, if_pos (show Apart sep x y from h)]

theorem squeeze_cons_of_ne (h : x ≠ sep) (l : List α) : squeeze sep (x :: l) = x :: squeeze sep l := by
  cases l with
  | nil => rfl
  | cons y l => rw [squeeze_cons_cons, if_neg fun hxy => h hxy.1]

/-- A separator stands for the whole run it begins. -/
theorem squeeze_cons_sep (sep : α) (l : List α) :
    squeeze sep (sep :: l) = sep :: squeeze sep (l.dropWhile (· = sep)) := by
  induction l with
  | nil => rfl
  | cons y l ih =>
    rw [squeeze_cons_cons]
    by_cases hy : y = sep
    · subst hy
      rw [if_pos ⟨rfl, rfl⟩, ih, List.dropWhile_cons_of_pos (by simp)]
    · rw [if_neg fun h => hy h.2, List.dropWhile_cons_of_neg (by simpa using hy)]

/-- Squeezing keeps the first element. -/
theorem exists_squeeze_cons (sep x : α) (l : List α) : ∃ t, squeeze sep (x :: l) = x :: t := by
  by_cases hx : x = sep
  · subst hx
    exact ⟨_, squeeze_cons_sep x l⟩
  · exact ⟨_, squeeze_cons_of_ne hx l⟩

/-- **Squeezing the left part first changes nothing.** -/
theorem squeeze_append_left (sep : α) (l m : List α) : squeeze sep (squeeze sep l ++ m) = squeeze sep (l ++ m) := by
  induction l with
  | nil => rfl
  | cons x l ih =>
    cases l with
    | nil => rfl
    | cons y l =>
      rw [squeeze_cons_cons, List.cons_append, List.cons_append, squeeze_cons_cons]
      rw [List.cons_append] at ih
      split_ifs with h
      · exact ih
      · -- the seam is behind the first element
        obtain ⟨t, ht⟩ := exists_squeeze_cons sep y l
        rw [ht, List.cons_append] at ih
        rw [ht, List.cons_append, List.cons_append, squeeze_cons_cons, if_neg h, ih]

/-- **Squeezing the right part first changes nothing.** -/
theorem squeeze_append_right (sep : α) (l m : List α) : squeeze sep (l ++ squeeze sep m) = squeeze sep (l ++ m) := by
  induction l with
  | nil => exact squeeze_squeeze sep m
  | cons x l ih =>
    cases l with
    | cons y l =>
      rw [List.cons_append, List.cons_append, squeeze_cons_cons, List.cons_append, List.cons_append, squeeze_cons_cons]
      rw [List.cons_append, List.cons_append] at ih
      rw [ih]
    | nil =>
      cases m with
      | nil => rfl
      | cons y m =>
        obtain ⟨t, ht⟩ := exists_squeeze_cons sep y m
        rw [List.nil_append, List.nil_append] at ih
        rw [ht] at ih ⊢
        simp only [List.singleton_append, squeeze_cons_cons, ih, ht]

/-- What is kept behind `x`. -/
theorem runs_loop (sep : α) : ∀ (l : List α) (x : α) (g : List α) (gs : List (List α)),
    (List.splitBy.loop (fun x y => x = sep && y = sep) l x g gs).flatMap (·.take 1) =
      gs.reverse.flatMap (·.take 1) ++ (g.reverse ++ [x]).take 1 ++ (squeeze sep (x :: l)).tail := by
  intro l
  induction l with
  | nil => intro x g gs; simp [List.splitBy.loop]
  | cons y l ih =>
    intro x g gs
    rw [List.splitBy.loop, squeeze_cons_cons]
    obtain ⟨t, ht⟩ := exists_squeeze_cons sep y l
    by_cases h : x = sep ∧ y = sep
    · obtain ⟨rfl, rfl⟩ := h
      simp only [decide_true, Bool.and_self, and_self, if_true]
      rw [ih, List.reverse_cons]
      cases g.reverse <;> simp
    · have hb : (decide (x = sep) && decide (y = sep)) = false := by simpa using h
      rw [if_neg h]
      simp only [hb]
      rw [ih, ht]
      simp

/-- **One element of every run is kept.** -/
theorem squeeze_eq_runs (sep : α) (l : List α) :
    squeeze sep l = (l.splitBy fun x y => x = sep && y = sep).flatMap (·.take 1) := by
  cases l with
  | nil => rfl
  | cons x l =>
    obtain ⟨t, ht⟩ := exists_squeeze_cons sep x l
    rw [List.splitBy, runs_loop, ht]
    simp

end Apg.Runs
