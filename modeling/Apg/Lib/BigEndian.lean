import Mathlib

/-!
# Numbers as bytes, the most significant first

Lists are compared from the left, so numbers written with the same number of bytes
compare like their lists.

* `bytes_lt_iff`: **the order of the bytes is the order of the numbers.**
* `append_lt_iff`: a field of a fixed width decides before the fields behind it.
-/

namespace Apg.BigEndian

/-- The last `k` bytes of a number. -/
def bytes : ℕ → ℕ → List ℕ
  | 0, _ => []
  | k + 1, n => bytes k (n / 256) ++ [n % 256]

/-- The number of a list of bytes. -/
def value (bs : List ℕ) : ℕ := bs.foldl (fun v b => 256 * v + b) 0

@[simp] theorem length_bytes (k : ℕ) : ∀ n, (bytes k n).length = k := by
  induction k with
  | zero => intro n; rfl
  | succ k ih => intro n; rw [bytes, List.length_append, ih, List.length_singleton]

theorem value_bytes (k : ℕ) : ∀ n, value (bytes k n) = n % 256 ^ k := by
  induction k with
  | zero => intro n; simp [bytes, value, Nat.mod_one]
  | succ k ih =>
    intro n
    have hsnoc : value (bytes (k + 1) n) = 256 * value (bytes k (n / 256)) + n % 256 := by
      simp only [value, bytes, List.foldl_append, List.foldl_cons, List.foldl_nil]
    rw [hsnoc, ih, pow_succ, mul_comm (256 ^ k) 256, Nat.mod_mul]
    omega

theorem append_lt_iff : ∀ {l₁ l₂ : List ℕ} (m₁ m₂ : List ℕ), l₁.length = l₂.length →
    (l₁ ++ m₁ < l₂ ++ m₂ ↔ l₁ < l₂ ∨ l₁ = l₂ ∧ m₁ < m₂) := by
  intro l₁
  induction l₁ with
  | nil =>
    intro l₂ m₁ m₂ hlen
    have hnil : l₂ = [] := List.length_eq_zero_iff.1 hlen.symm
    simp [hnil]
  | cons a l₁ ih =>
    intro l₂ m₁ m₂ hlen
    cases l₂ with
    | nil => simp at hlen
    | cons b l₂ =>
      have hlen' : l₁.length = l₂.length := by simpa using hlen
      simp only [List.cons_append, List.cons_lt_cons_iff, ih m₁ m₂ hlen', List.cons.injEq]
      tauto

theorem bytes_lt_iff (k : ℕ) : ∀ {n m : ℕ}, n < 256 ^ k → m < 256 ^ k → (bytes k n < bytes k m ↔ n < m) := by
  induction k with
  | zero =>
    intro n m hn hm
    have : n = m := by omega
    simp [bytes, this]
  | succ k ih =>
    intro n m hn hm
    rw [pow_succ] at hn hm
    have hn' : n / 256 < 256 ^ k := Nat.div_lt_of_lt_mul (by rwa [mul_comm])
    have hm' : m / 256 < 256 ^ k := Nat.div_lt_of_lt_mul (by rwa [mul_comm])
    -- equal leading bytes are those of equal quotients
    have heq : bytes k (n / 256) = bytes k (m / 256) ↔ n / 256 = m / 256 := by
      refine ⟨fun h => ?_, fun h => by rw [h]⟩
      have hval := congrArg value h
      rwa [value_bytes, value_bytes, Nat.mod_eq_of_lt hn', Nat.mod_eq_of_lt hm'] at hval
    rw [bytes, bytes, append_lt_iff _ _ (by simp), ih hn' hm', heq]
    simp only [List.cons_lt_cons_iff, List.not_lt_nil, and_false, or_false]
    omega

end Apg.BigEndian
