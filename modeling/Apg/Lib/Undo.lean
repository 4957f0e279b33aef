import Mathlib

/-!
# Taking writes back

Values are written under keys, some of them in groups that may be taken back, the last
write first. A log says what is written, but not what was there before.

* `Run.replay`: **the log tells every value**, to a reader who keeps a stack for each key.
-/

namespace Apg.Undo

variable {κ ν : Type*} [DecidableEq κ]

/-- What is in the log: a write that may be taken back, one that failed, one that stays, and
a write taken back. -/
inductive Entry (κ ν : Type*)
  | put (k : κ) (v : ν)
  | failed (k : κ)
  | set (k : κ) (v : ν)
  | back (k : κ)
  deriving DecidableEq

/-- The values, what the writes of the group would go back to, and the log. -/
structure State (κ ν : Type*) where
  value : κ → ν
  pending : List (κ × ν) := []
  log : List (Entry κ ν) := []

/-- **One step.** A write that failed either joins those to be taken back, or is about a key
with none. -/
inductive Step : State κ ν → State κ ν → Prop
  | put (s : State κ ν) (k : κ) (v : ν) :
      Step s ⟨Function.update s.value k v, s.pending ++ [(k, s.value k)], s.log ++ [.put k v]⟩
  | failed (s : State κ ν) (k : κ) : Step s ⟨s.value, s.pending ++ [(k, s.value k)], s.log ++ [.failed k]⟩
  | noted (s : State κ ν) (k : κ) : (∀ e ∈ s.pending, e.1 ≠ k) → Step s ⟨s.value, s.pending, s.log ++ [.failed k]⟩
  | set (s : State κ ν) (k : κ) (v : ν) : Step s ⟨Function.update s.value k v, s.pending, s.log ++ [.set k v]⟩
  | back (s : State κ ν) (k : κ) (v : ν) (pending : List (κ × ν)) : s.pending = pending ++ [(k, v)] →
      Step s ⟨Function.update s.value k v, pending, s.log ++ [.back k]⟩
  | close (s : State κ ν) : Step s ⟨s.value, [], s.log⟩

def Run : State κ ν → State κ ν → Prop := Relation.ReflTransGen Step

/-! ## Reading the log -/

/-- For each key, its value above those it would go back to. -/
abbrev Stacks (κ ν : Type*) := κ → List ν

def read (stackOf : Stacks κ ν) : Entry κ ν → Stacks κ ν
  | .put k v => Function.update stackOf k (v :: stackOf k)
  | .failed k => Function.update stackOf k ((stackOf k).take 1 ++ stackOf k)
  | .set k v => Function.update stackOf k (v :: (stackOf k).tail)
  | .back k => Function.update stackOf k (stackOf k).tail

def replay (value : κ → ν) (log : List (Entry κ ν)) : Stacks κ ν := log.foldl read fun k => [value k]

/-- What the pending writes to a key go back to, the last one first. -/
def goesBack (pending : List (κ × ν)) (k : κ) : List ν := ((pending.filter fun e => e.1 = k).map Prod.snd).reverse

theorem goesBack_push (pending : List (κ × ν)) (k k' : κ) (v : ν) :
    goesBack (pending ++ [(k, v)]) k' = if k = k' then v :: goesBack pending k' else goesBack pending k' := by
  unfold goesBack
  by_cases hk : k = k' <;> simp [List.filter_append, hk]

theorem goesBack_eq_nil {pending : List (κ × ν)} {k : κ} (h : ∀ e ∈ pending, e.1 ≠ k) : goesBack pending k = [] := by
  unfold goesBack
  rw [List.filter_eq_nil_iff.2 fun e he => by simpa using h e he]
  rfl

/-- The stack of a key has its value, and below it what it goes back to. -/
def Covers (s : State κ ν) (stackOf : Stacks κ ν) : Prop :=
  ∀ k, ∃ rest, stackOf k = s.value k :: (goesBack s.pending k ++ rest)

variable {s s' : State κ ν} {value : κ → ν}

/-- A change of one stack. -/
theorem Covers.update {stackOf : Stacks κ ν} (h : Covers s stackOf) (k : κ) {stack : List ν}
    (hk : ∃ rest, stack = s'.value k :: (goesBack s'.pending k ++ rest))
    (hother : ∀ k', k' ≠ k → s'.value k' = s.value k' ∧ goesBack s'.pending k' = goesBack s.pending k') :
    Covers s' (Function.update stackOf k stack) := by
  intro k'
  by_cases hkk : k' = k
  · subst hkk
    rw [Function.update_self]
    exact hk
  · obtain ⟨hvalue, hback⟩ := hother k' hkk
    rw [Function.update_of_ne hkk, hvalue, hback]
    exact h k'

theorem Step.covers (h : Step s s') (hs : Covers s (replay value s.log)) : Covers s' (replay value s'.log) := by
  have hread : ∀ e, replay value (s.log ++ [e]) = read (replay value s.log) e := fun e => by
    rw [replay, List.foldl_append]
    rfl
  cases h with
  | put k v =>
    rw [hread]
    refine hs.update k ?_ fun k' hk => ⟨Function.update_of_ne hk _ _, by rw [goesBack_push, if_neg hk.symm]⟩
    obtain ⟨rest, hrest⟩ := hs k
    exact ⟨rest, by simp [hrest, goesBack_push]⟩
  | failed k =>
    rw [hread]
    refine hs.update k ?_ fun k' hk => ⟨rfl, by rw [goesBack_push, if_neg hk.symm]⟩
    obtain ⟨rest, hrest⟩ := hs k
    exact ⟨rest, by simp [hrest, goesBack_push]⟩
  | noted k hfree =>
    rw [hread]
    refine hs.update k ?_ fun _ _ => ⟨rfl, rfl⟩
    -- what is below a value that is repeated is not looked at again
    obtain ⟨rest, hrest⟩ := hs k
    rw [goesBack_eq_nil hfree] at hrest
    exact ⟨s.value k :: rest, by rw [hrest, goesBack_eq_nil hfree]; rfl⟩
  | set k v =>
    rw [hread]
    refine hs.update k ?_ fun k' hk => ⟨Function.update_of_ne hk _ _, rfl⟩
    obtain ⟨rest, hrest⟩ := hs k
    exact ⟨rest, by simp [hrest]⟩
  | back k v pending hpending =>
    rw [hread]
    obtain ⟨rest, hrest⟩ := hs k
    rw [hpending, goesBack_push, if_pos rfl] at hrest
    refine hs.update k ⟨rest, by simp [hrest]⟩ fun k' hk => ⟨Function.update_of_ne hk _ _, ?_⟩
    rw [hpending, goesBack_push, if_neg hk.symm]
  | close =>
    intro k
    obtain ⟨rest, hrest⟩ := hs k
    exact ⟨goesBack s.pending k ++ rest, hrest⟩

theorem Run.covers (h : Run s s') (hs : Covers s (replay value s.log)) : Covers s' (replay value s'.log) := by
  induction h with
  | refl => exact hs
  | tail _ hstep ih => exact hstep.covers ih

/-- **The log tells every value**: it is at the top of the stack of its key. -/
theorem Run.replay (h : Run ⟨value, [], []⟩ s) (k : κ) : (replay value s.log k).head? = some (s.value k) := by
  have hstart : Covers (⟨value, [], []⟩ : State κ ν) (Undo.replay value []) := fun k => ⟨[], rfl⟩
  obtain ⟨rest, hrest⟩ := h.covers hstart k
  rw [hrest]
  rfl

end Apg.Undo
