import Mathlib

/-!
# Traces

The states a run goes through, in order: every one is a step from the one before.
What a step keeps, a trace keeps (`Trace.keeps`).
-/

namespace Apg

variable {σ : Type*} {r r' : σ → σ → Prop} {s s' s'' : σ} {states states' : List σ}

/-- From `s` through the states listed, the last of which is `s'`. -/
inductive Trace (r : σ → σ → Prop) : σ → List σ → σ → Prop
  | nil (s : σ) : Trace r s [] s
  | cons {s s₁ s' : σ} {states : List σ} : r s s₁ → Trace r s₁ states s' → Trace r s (s₁ :: states) s'

namespace Trace

theorem one (h : r s s') : Trace r s [s'] s' := .cons h (.nil s')

theorem append (h : Trace r s states s') (h' : Trace r s' states' s'') : Trace r s (states ++ states') s'' := by
  induction h with
  | nil => exact h'
  | cons hstep _ ih => exact .cons hstep (ih h')

theorem mono (hr : ∀ s s', r s s' → r' s s') (h : Trace r s states s') : Trace r' s states s' := by
  induction h with
  | nil => exact .nil _
  | cons hstep _ ih => exact .cons (hr _ _ hstep) ih

/-- **What every step keeps holds all along a trace.** -/
theorem keeps {I : σ → Prop} (hstep : ∀ s s', I s → r s s' → I s') (h : Trace r s states s') (hs : I s) :
    (∀ t ∈ states, I t) ∧ I s' := by
  induction h with
  | nil => exact ⟨by simp, hs⟩
  | cons hr _ ih =>
    have h₁ := hstep _ _ hs hr
    obtain ⟨hall, hend⟩ := ih h₁
    exact ⟨List.forall_mem_cons.2 ⟨h₁, hall⟩, hend⟩

end Trace

end Apg
