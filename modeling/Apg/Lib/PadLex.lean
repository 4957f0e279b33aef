import Mathlib

/-!
# Streams of numbers and letters, padded with zeros

A stream is a list of numbers (`inl`) and letters (`inr`). Two streams are
compared from the left; where one has a number and the other does not, the
missing number counts as `0` and only the number is passed. The end of a stream
is below every letter.

* `cmp_num`: **one step for every pair of streams.** Passing the number in
  front, if there is one, is a step of the comparison whatever the other stream
  starts with.
* `cmp_letter`: two streams that start with no number are compared by their
  letters first.
* `cmp_self`, `cmp_swap`, `cmp_trans`: `cmp` is a total preorder.
-/

namespace Apg.PadLex

variable {β : Type*}

/-- The number in front of a stream; a missing one counts as `0`. -/
def hd : List (ℤ ⊕ β) → ℤ
  | .inl n :: _ => n
  | _ => 0

/-- The stream behind the number in front. -/
def tl : List (ℤ ⊕ β) → List (ℤ ⊕ β)
  | .inl _ :: s => s
  | s => s

/-- The letter in front of a stream that starts with no number; `⊥` is the end. -/
def letter : List (ℤ ⊕ β) → WithBot β
  | .inr c :: _ => c
  | _ => ⊥

/-- The stream starts with a number. -/
def isNum : List (ℤ ⊕ β) → Bool
  | .inl _ :: _ => true
  | _ => false

theorem length_tl_lt {s : List (ℤ ⊕ β)} (h : isNum s = true) : (tl s).length < s.length := by
  match s with
  | .inl n :: s => simp [tl]

theorem length_tl_le (s : List (ℤ ⊕ β)) : (tl s).length ≤ s.length := by
  match s with
  | [] => simp [tl]
  | .inl n :: s => simp [tl]
  | .inr c :: s => simp [tl]

theorem hd_tl_of_not {s : List (ℤ ⊕ β)} (h : isNum s = false) : hd s = 0 ∧ tl s = s := by
  match s with
  | [] => exact ⟨rfl, rfl⟩
  | .inr c :: s => exact ⟨rfl, rfl⟩

/-- Induction over the steps of comparing the streams of a list with each other:
either some of them starts with a number, and all pass theirs, or none does, and
all pass their letter. -/
theorem steps_induction {P : List (List (ℤ ⊕ β)) → Prop}
    (nil : ∀ l, (∀ s ∈ l, s = []) → P l)
    (num : ∀ l, (∃ s ∈ l, isNum s = true) → P (l.map tl) → P l)
    (let' : ∀ l, (∀ s ∈ l, isNum s = false) → P (l.map List.tail) → P l) : ∀ l, P l := by
  intro l
  -- every step shortens some stream and lengthens none
  generalize hn : (l.map List.length).sum = n
  induction n using Nat.strongRecOn generalizing l with
  | _ n ih =>
    subst hn
    by_cases h0 : ∀ s ∈ l, s = []
    · exact nil l h0
    by_cases h : ∃ s ∈ l, isNum s = true
    · refine num l h (ih _ ?_ _ rfl)
      obtain ⟨s, hs, hns⟩ := h
      rw [List.map_map]
      exact List.sum_lt_sum _ _ (fun x _ => length_tl_le x) ⟨s, hs, length_tl_lt hns⟩
    · push Not at h h0
      refine let' l (fun s hs => by simpa using h s hs) (ih _ ?_ _ rfl)
      obtain ⟨s, hs, hne⟩ := h0
      rw [List.map_map]
      refine List.sum_lt_sum _ _ (fun x _ => by simp) ⟨s, hs, ?_⟩
      have := List.length_pos_iff.2 hne
      simp only [Function.comp_apply, List.length_tail]; omega

variable [LinearOrder β]

/-- **The comparison.** -/
def cmp (s t : List (ℤ ⊕ β)) : Ordering :=
  if s = [] ∧ t = [] then .eq
  else if isNum s = true ∨ isNum t = true then (compare (hd s) (hd t)).then (cmp (tl s) (tl t))
  else (compare (letter s) (letter t)).then (cmp s.tail t.tail)
termination_by s.length + t.length
decreasing_by
  · rename_i h
    rcases h with h | h
    · have := length_tl_lt h; have := length_tl_le t; omega
    · have := length_tl_lt h; have := length_tl_le s; omega
  · rename_i h _
    have : s.length ≠ 0 ∨ t.length ≠ 0 := by
      by_contra hc
      simp only [not_or, not_not] at hc
      exact h ⟨List.eq_nil_of_length_eq_zero hc.1, List.eq_nil_of_length_eq_zero hc.2⟩
    simp only [List.length_tail]; omega

theorem cmp_nil : cmp ([] : List (ℤ ⊕ β)) [] = .eq := by rw [cmp, if_pos ⟨rfl, rfl⟩]

/-- **One step for every pair of streams.** -/
theorem cmp_num (s t : List (ℤ ⊕ β)) : cmp s t = (compare (hd s) (hd t)).then (cmp (tl s) (tl t)) := by
  by_cases h : isNum s = true ∨ isNum t = true
  · have h0 : ¬(s = [] ∧ t = []) := by
      rintro ⟨rfl, rfl⟩; simp [isNum] at h
    rw [cmp, if_neg h0, if_pos h]
  · simp only [not_or, Bool.not_eq_true] at h
    obtain ⟨h1, h2⟩ := hd_tl_of_not h.1
    obtain ⟨h3, h4⟩ := hd_tl_of_not h.2
    -- neither starts with a number: the step compares 0 with 0 and passes nothing
    rw [h1, h2, h3, h4, Std.ReflOrd.compare_self]
    rfl

theorem cmp_letter {s t : List (ℤ ⊕ β)} (hs : isNum s = false) (ht : isNum t = false) :
    cmp s t = (compare (letter s) (letter t)).then (cmp s.tail t.tail) := by
  by_cases h : s = [] ∧ t = []
  · obtain ⟨rfl, rfl⟩ := h
    rw [cmp_nil, Std.ReflOrd.compare_self]
    exact cmp_nil.symm
  · rw [cmp, if_neg h, if_neg (by simp [hs, ht])]

/-- A common beginning does not matter. -/
theorem cmp_append (u s t : List (ℤ ⊕ β)) : cmp (u ++ s) (u ++ t) = cmp s t := by
  induction u with
  | nil => rfl
  | cons x u ih =>
    cases x with
    | inl v =>
      rw [cmp_num, List.cons_append, List.cons_append]
      simp only [hd, tl, Std.ReflOrd.compare_self, Ordering.eq_then]
      exact ih
    | inr c =>
      rw [List.cons_append, List.cons_append, cmp_letter rfl rfl]
      simp only [letter, Std.ReflOrd.compare_self, List.tail_cons, Ordering.eq_then]
      exact ih

theorem cmp_self (s : List (ℤ ⊕ β)) : cmp s s = .eq := by
  suffices h : ∀ l : List (List (ℤ ⊕ β)), ∀ s ∈ l, cmp s s = .eq from h [s] s (by simp)
  intro l
  induction l using steps_induction with
  | nil l h => intro s hs; rw [h s hs, cmp_nil]
  | num l _ ih => intro s hs; rw [cmp_num, ih _ (List.mem_map_of_mem hs), Std.ReflOrd.compare_self]; rfl
  | let' l h ih =>
    intro s hs
    rw [cmp_letter (h s hs) (h s hs), ih _ (List.mem_map_of_mem hs), Std.ReflOrd.compare_self]; rfl

theorem cmp_swap (s t : List (ℤ ⊕ β)) : (cmp s t).swap = cmp t s := by
  suffices h : ∀ l : List (List (ℤ ⊕ β)), ∀ s ∈ l, ∀ t ∈ l, (cmp s t).swap = cmp t s from
    h [s, t] s (by simp) t (by simp)
  intro l
  induction l using steps_induction with
  | nil l h => intro s hs t ht; rw [h s hs, h t ht, cmp_nil]; rfl
  | num l _ ih =>
    intro s hs t ht
    rw [cmp_num s, cmp_num t, Ordering.swap_then, ih _ (List.mem_map_of_mem hs) _ (List.mem_map_of_mem ht),
      ← Std.OrientedOrd.eq_swap]
  | let' l h ih =>
    intro s hs t ht
    rw [cmp_letter (h s hs) (h t ht), cmp_letter (h t ht) (h s hs), Ordering.swap_then,
      ih _ (List.mem_map_of_mem hs) _ (List.mem_map_of_mem ht), ← Std.OrientedOrd.eq_swap]

/-- Comparing by a first key and then by a rest is transitive when the rest is. -/
theorem isLE_then_trans {κ : Type*} [LinearOrder κ] {a b c : κ} {x y z : Ordering}
    (h : x.isLE → y.isLE → z.isLE) (h1 : ((compare a b).then x).isLE) (h2 : ((compare b c).then y).isLE) :
    ((compare a c).then z).isLE := by
  rw [Ordering.isLE_then_iff_or] at h1 h2 ⊢
  simp only [compare_lt_iff_lt, compare_eq_iff_eq] at h1 h2 ⊢
  rcases h1 with h1 | ⟨rfl, h1⟩
  · rcases h2 with h2 | ⟨rfl, -⟩
    · exact Or.inl (lt_trans h1 h2)
    · exact Or.inl h1
  · rcases h2 with h2 | ⟨rfl, h2⟩
    · exact Or.inl h2
    · exact Or.inr ⟨rfl, h h1 h2⟩

theorem cmp_trans {s t u : List (ℤ ⊕ β)} (h1 : (cmp s t).isLE) (h2 : (cmp t u).isLE) : (cmp s u).isLE := by
  -- the three streams move together, so the induction is over the list of them
  suffices h : ∀ l : List (List (ℤ ⊕ β)), ∀ s ∈ l, ∀ t ∈ l, ∀ u ∈ l,
      (cmp s t).isLE → (cmp t u).isLE → (cmp s u).isLE from
    h [s, t, u] s (by simp) t (by simp) u (by simp) h1 h2
  intro l
  induction l using steps_induction with
  | nil l h => intro s hs t ht u hu _ _; rw [h s hs, h u hu, cmp_nil]; rfl
  | num l _ ih =>
    intro s hs t ht u hu
    rw [cmp_num s t, cmp_num t u, cmp_num s u]
    exact isLE_then_trans (ih _ (List.mem_map_of_mem hs) _ (List.mem_map_of_mem ht) _ (List.mem_map_of_mem hu))
  | let' l h ih =>
    intro s hs t ht u hu
    rw [cmp_letter (h s hs) (h t ht), cmp_letter (h t ht) (h u hu), cmp_letter (h s hs) (h u hu)]
    exact isLE_then_trans (ih _ (List.mem_map_of_mem hs) _ (List.mem_map_of_mem ht) _ (List.mem_map_of_mem hu))

end Apg.PadLex
