import Mathlib

/-!
# Clauses and partial assignments

Clauses over the variables `1 .. n`: a literal is a variable or its negative, and
an assignment gives a variable `1`, `-1`, or `0` as long as it is open.

* `Refuted`: no model extends the assignment. A falsified clause refutes
  (`refuted_of_false`), a unit clause may be made true (`refuted_of_unit`), and
  two refuted branches refute (`refuted_of_branches`).
-/

namespace Apg.Cnf

/-- The literal is true. -/
def Holds (σ : ℕ → ℤ) (l : ℤ) : Prop := l > 0 ∧ σ l.natAbs = 1 ∨ l < 0 ∧ σ l.natAbs = -1

instance (σ : ℕ → ℤ) (l : ℤ) : Decidable (Holds σ l) :=
  inferInstanceAs (Decidable (l > 0 ∧ σ l.natAbs = 1 ∨ l < 0 ∧ σ l.natAbs = -1))

def SatBy (σ : ℕ → ℤ) (c : List ℤ) : Prop := ∃ l ∈ c, Holds σ l

def Models (σ : ℕ → ℤ) (f : List (List ℤ)) : Prop := ∀ c ∈ f, SatBy σ c

/-- Every variable is `1` or `-1`. -/
def Total (n : ℕ) (σ : ℕ → ℤ) : Prop := ∀ v, 1 ≤ v → v ≤ n → σ v = 1 ∨ σ v = -1

/-- `τ` keeps what `σ` assigns. -/
def Extends (τ σ : ℕ → ℤ) : Prop := ∀ v, σ v ≠ 0 → τ v = σ v

/-- No total assignment that extends `σ` is a model. -/
def Refuted (n : ℕ) (f : List (List ℤ)) (σ : ℕ → ℤ) : Prop := ∀ τ, Total n τ → Extends τ σ → ¬Models τ f

/-- The value that makes a literal true. -/
def sign (l : ℤ) : ℤ := if l > 0 then 1 else -1

variable {n : ℕ} {f : List (List ℤ)} {σ τ : ℕ → ℤ}

theorem holds_open {l : ℤ} (h : σ l.natAbs = 0) : ¬Holds σ l := by
  rintro (⟨-, h'⟩ | ⟨-, h'⟩) <;> rw [h] at h' <;> omega

theorem holds_iff_sign {l : ℤ} (hl : l ≠ 0) : Holds σ l ↔ σ l.natAbs = sign l := by
  unfold Holds sign
  split <;> omega

theorem holds_of_extends (h : Extends τ σ) {l : ℤ} (hl : σ l.natAbs ≠ 0) : Holds τ l ↔ Holds σ l := by
  unfold Holds
  rw [h _ hl]

theorem refuted_of_false {c : List ℤ} (hc : c ∈ f) (hfalse : ∀ l ∈ c, σ l.natAbs ≠ 0 ∧ ¬Holds σ l) :
    Refuted n f σ := by
  intro τ _ hext hmod
  obtain ⟨l, hl, hτ⟩ := hmod c hc
  obtain ⟨h1, h2⟩ := hfalse l hl
  exact h2 ((holds_of_extends hext h1).1 hτ)

/-- If a clause has one open literal and the others are false, a model makes the
open literal true. -/
theorem refuted_of_unit {c : List ℤ} (hc : c ∈ f) {u : ℤ} (hu : u ≠ 0)
    (hunit : ∀ l ∈ c, l = u ∨ σ l.natAbs ≠ 0 ∧ ¬Holds σ l)
    (h : Refuted n f (Function.update σ u.natAbs (sign u))) : Refuted n f σ := by
  intro τ htot hext hmod
  obtain ⟨l, hl, hτ⟩ := hmod c hc
  have hτu : Holds τ u := by
    rcases hunit l hl with rfl | ⟨h1, h2⟩
    · exact hτ
    · exact absurd ((holds_of_extends hext h1).1 hτ) h2
  refine h τ htot ?_ hmod
  intro v hv
  by_cases hvu : v = u.natAbs
  · subst hvu
    rw [Function.update_self]; exact (holds_iff_sign hu).1 hτu
  · rw [Function.update_of_ne hvu] at hv ⊢
    exact hext v hv

theorem extends_update {v : ℕ} (hext : Extends τ σ) {x : ℤ} (hx : τ v = x) : Extends τ (Function.update σ v x) := by
  intro w hw
  by_cases hwv : w = v
  · subst hwv
    rw [Function.update_self]; exact hx
  · rw [Function.update_of_ne hwv] at hw ⊢
    exact hext w hw

theorem Extends.trans {ρ : ℕ → ℤ} (h1 : Extends ρ τ) (h2 : Extends τ σ) : Extends ρ σ := by
  intro v hv
  have hτ := h2 v hv
  rw [← hτ]; exact h1 v (by rw [hτ]; exact hv)

theorem Extends.update (h : Extends τ σ) (v : ℕ) (x : ℤ) :
    Extends (Function.update τ v x) (Function.update σ v x) := by
  intro w hw
  by_cases hwv : w = v
  · subst hwv; rw [Function.update_self, Function.update_self]
  · rw [Function.update_of_ne hwv] at hw ⊢
    rw [Function.update_of_ne hwv]; exact h w hw

theorem Refuted.of_extends (h : Extends τ σ) (hσ : Refuted n f σ) : Refuted n f τ :=
  fun ρ htot hext => hσ ρ htot (hext.trans h)

/-- Both values of a variable lead nowhere. -/
theorem refuted_of_branches {v : ℕ} (h1 : 1 ≤ v) (hn : v ≤ n) {x : ℤ} (hx : x = 1 ∨ x = -1)
    (hpos : Refuted n f (Function.update σ v x)) (hneg : Refuted n f (Function.update σ v (-x))) :
    Refuted n f σ := by
  intro τ htot hext hmod
  have hv := htot v h1 hn
  by_cases hτ : τ v = x
  · exact hpos τ htot (extends_update hext hτ) hmod
  · refine hneg τ htot (extends_update hext ?_) hmod
    omega

theorem Refuted.not_models (h : Refuted n f fun _ => 0) : ¬∃ τ, Total n τ ∧ Models τ f := by
  rintro ⟨τ, htot, hmod⟩
  exact h τ htot (fun v hv => absurd rfl hv) hmod

end Apg.Cnf
