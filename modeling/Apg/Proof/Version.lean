import Apg.Lib.PadLex
import Apg.Spec.Version

/-!
# `ver_compare` is a total preorder

The loop of `ver_compare` moves through its two strings at different speeds, but
what it reads off each string does not depend on the other one: `toks` is the
stream of numbers and letters of a string, and the loop is the padded comparison
of the two streams (`verLoop_cmp`). The laws of `ver_compare` are those of
`PadLex.cmp`, below the epochs and the `NULL` test (`verCompare_key`).
-/

namespace Apg

open PadLex

/-! ## What `strtol` consumes -/

theorem length_dropWhile_le {α : Type*} (p : α → Bool) (l : List α) : (l.dropWhile p).length ≤ l.length :=
  (List.dropWhile_suffix p).length_le

theorem readSign_length (s : CStr) : (readSign s).2.length ≤ s.length := by
  cases s with
  | nil => rfl
  | cons c s => simp only [readSign]; split_ifs <;> simp

/-- `strtol` converts nothing and stays, or it advances. -/
theorem strtol_cases (s : CStr) : strtol s = (0, s) ∨ (strtol s).2.length < s.length := by
  simp only [strtol]
  by_cases h : (readSign (s.dropWhile CChar.isSpace)).2.takeWhile CChar.isDigit = []
  · rw [if_pos h]; exact Or.inl rfl
  · rw [if_neg h]
    right
    have h1 := readSign_length (s.dropWhile CChar.isSpace)
    have h2 := length_dropWhile_le CChar.isSpace s
    have h3 := congrArg List.length
      (List.takeWhile_append_dropWhile (p := CChar.isDigit) (l := (readSign (s.dropWhile CChar.isSpace)).2))
    have h4 := List.length_pos_iff.2 h
    rw [List.length_append] at h3
    simp only
    omega

theorem strtol_stay {s : CStr} (h : (strtol s).2 = s) : strtol s = (0, s) := by
  rcases strtol_cases s with h' | h'
  · exact h'
  · rw [h] at h'; omega

theorem strtol_lt {s : CStr} (h : (strtol s).2 ≠ s) : (strtol s).2.length < s.length := by
  rcases strtol_cases s with h' | h'
  · rw [h'] at h; exact absurd rfl h
  · exact h'

theorem skipDots_skipDots (s : CStr) : skipDots (skipDots s) = skipDots s := by
  unfold skipDots; exact List.dropWhile_idempotent _ s

theorem skipDots_length (s : CStr) : (skipDots s).length ≤ s.length := length_dropWhile_le _ s

/-! ## The stream of a string -/

/-- The numbers and letters the loop of `ver_compare` reads off a string. -/
def toks (s : CStr) : List (ℤ ⊕ CChar) :=
  match _h : skipDots s with
  | [] => []
  | c :: t =>
    if _h' : (strtol (c :: t)).2 = c :: t then .inr c :: toks t
    else .inl (strtol (c :: t)).1 :: toks (strtol (c :: t)).2
termination_by s.length
decreasing_by
  · have := skipDots_length s; rw [_h, List.length_cons] at this; omega
  · have := skipDots_length s; rw [_h] at this; have := strtol_lt _h'; omega

theorem toks_skipDots (s : CStr) : toks (skipDots s) = toks s := by
  rw [toks, toks, skipDots_skipDots]

/-- Where `strtol` converts, the stream starts with its number. -/
theorem toks_num {s : CStr} (h : (strtol (skipDots s)).2 ≠ skipDots s) :
    toks s = .inl (strtol (skipDots s)).1 :: toks (strtol (skipDots s)).2 := by
  rw [toks]
  split
  · rename_i hs; rw [hs] at h; exact absurd (by decide) h
  · rename_i c t hs; rw [hs] at h ⊢; rw [dif_neg h]

/-- Where it does not, the stream starts with the next character, if there is one. -/
theorem toks_letter {s : CStr} (h : (strtol (skipDots s)).2 = skipDots s) :
    (skipDots s = [] ∧ toks s = []) ∨ ∃ c t, skipDots s = c :: t ∧ toks s = .inr c :: toks t := by
  rw [toks]
  split
  · rename_i hs; exact Or.inl ⟨hs, rfl⟩
  · rename_i c t hs; rw [hs] at h; rw [dif_pos h]; exact Or.inr ⟨c, t, hs, rfl⟩

theorem isNum_toks (s : CStr) : isNum (toks s) = true ↔ (strtol (skipDots s)).2 ≠ skipDots s := by
  constructor
  · intro h hs
    rcases toks_letter hs with ⟨-, h'⟩ | ⟨c, t, -, h'⟩ <;> rw [h'] at h <;> simp [isNum] at h
  · intro h; rw [toks_num h]; rfl

/-- Passing the number in front of the stream is what one `strtol` does, whether
it converts or not. -/
theorem hd_tl_toks (s : CStr) :
    hd (toks s) = (strtol (skipDots s)).1 ∧ tl (toks s) = toks (strtol (skipDots s)).2 := by
  by_cases h : (strtol (skipDots s)).2 = skipDots s
  · have hn : isNum (toks s) = false := by
      rw [← Bool.not_eq_true, isNum_toks]; exact fun h' => h' h
    rw [strtol_stay h, toks_skipDots]
    exact hd_tl_of_not hn
  · rw [toks_num h]; exact ⟨rfl, rfl⟩

/-! ## The loop compares the streams -/

theorem compare_sign {x y : ℤ} (h : x ≠ y) : compare (if x > y then 1 else -1 : ℤ) 0 = compare x y := by
  rcases lt_or_gt_of_ne h with h' | h'
  · rw [if_neg (by omega), compare_lt_iff_lt.2 h']; rfl
  · rw [if_pos h', compare_gt_iff_gt.2 h']; rfl

theorem compare_sub {x y : CChar} (h : x ≠ y) : compare ((x.val : ℤ) - y.val) 0 = compare x y := by
  rcases lt_or_gt_of_ne h with h' | h'
  · have hv : x.val < y.val := h'
    rw [compare_lt_iff_lt.2 h', compare_lt_iff_lt.2 (by omega)]
  · have hv : y.val < x.val := h'
    rw [compare_gt_iff_gt.2 h', compare_gt_iff_gt.2 (by omega)]

/-- **The loop of `ver_compare` compares the streams of its strings.** -/
theorem verLoop_cmp : ∀ (n : ℕ) (a b : CStr), a.length + b.length < n →
    compare (verLoop n a b) 0 = cmp (toks a) (toks b) := by
  intro n
  induction n with
  | zero => intro a b h; omega
  | succ n ih =>
    intro a b hn
    have ha := skipDots_length a
    have hb := skipDots_length b
    -- `n` bounds what is left of the two strings
    simp only [verLoop]
    split_ifs with h hv
    · -- no number on either side
      obtain ⟨h1, h2⟩ := h
      have hna : isNum (toks a) = false := by rw [← Bool.not_eq_true, isNum_toks]; exact fun h' => h' h1
      have hnb : isNum (toks b) = false := by rw [← Bool.not_eq_true, isNum_toks]; exact fun h' => h' h2
      rw [cmp_letter hna hnb]
      rcases toks_letter h1 with ⟨hsa, hta⟩ | ⟨c, s, hsa, hta⟩ <;>
        rcases toks_letter h2 with ⟨hsb, htb⟩ | ⟨d, t, hsb, htb⟩ <;>
        rw [hsa, hsb, hta, htb] <;> simp only [letter, List.tail_cons, List.tail_nil]
      · rw [cmp_nil]; rfl
      · rw [compare_lt_iff_lt.2 (WithBot.bot_lt_coe d), compare_lt_iff_lt.2 (by have := d.2; omega)]; rfl
      · rw [compare_gt_iff_gt.2 (WithBot.bot_lt_coe c), compare_gt_iff_gt.2 (by have := c.2; omega)]; rfl
      · rw [hsa, List.length_cons] at ha
        rw [hsb, List.length_cons] at hb
        split_ifs with hcd
        · have hne : compare (c : WithBot CChar) d = compare c d := by
            rcases lt_or_gt_of_ne hcd with h' | h'
            · rw [compare_lt_iff_lt.2 h', compare_lt_iff_lt.2 (WithBot.coe_lt_coe.2 h')]
            · rw [compare_gt_iff_gt.2 h', compare_gt_iff_gt.2 (WithBot.coe_lt_coe.2 h')]
          rw [compare_sub hcd, hne]
          rcases lt_or_gt_of_ne hcd with h' | h'
          · rw [compare_lt_iff_lt.2 h']; rfl
          · rw [compare_gt_iff_gt.2 h']; rfl
        · rw [ih _ _ (by omega), not_not.1 hcd, Std.ReflOrd.compare_self]; rfl
    all_goals
      rw [cmp_num, (hd_tl_toks a).1, (hd_tl_toks b).1, (hd_tl_toks a).2, (hd_tl_toks b).2]
    · -- two different numbers, one of them perhaps a missing one
      rename_i hgt
      have := compare_sign hv; rw [if_pos hgt] at this
      rw [this, compare_gt_iff_gt.2 hgt]; rfl
    · rename_i hgt
      have := compare_sign hv; rw [if_neg hgt] at this
      rw [this, compare_lt_iff_lt.2 (by omega)]; rfl
    -- equal numbers: at least one of the two strings gets shorter
    · rw [not_not.1 hv, Std.ReflOrd.compare_self, Ordering.eq_then]
      apply ih
      rcases strtol_cases (skipDots a) with h1 | h1 <;> rcases strtol_cases (skipDots b) with h2 | h2
      · exact absurd ⟨by rw [h1], by rw [h2]⟩ h
      · rw [h1]; simp only; omega
      · rw [h2]; simp only; omega
      · omega

/-! ## The laws of `ver_compare` -/

/-- **The key of a version**: its epoch, and below it the stream of the rest. -/
theorem verCompare_key (a b : CStr) : compare (verCompare (some a) (some b)) 0 =
    (compare (splitEpoch a).1 (splitEpoch b).1).then
      (cmp (toks (splitEpoch a).2) (toks (splitEpoch b).2)) := by
  simp only [verCompare]
  by_cases h : (splitEpoch a).1 = (splitEpoch b).1
  · rw [if_neg (by simpa using h), verLoop_cmp _ _ _ (by omega), h, Std.ReflOrd.compare_self]; rfl
  · rw [if_pos h, compare_sign h]
    rcases lt_or_gt_of_ne h with h' | h'
    · rw [compare_lt_iff_lt.2 h']; rfl
    · rw [compare_gt_iff_gt.2 h']; rfl

theorem verCompare_swap (a b : Option CStr) :
    (compare (verCompare a b) 0).swap = compare (verCompare b a) 0 := by
  match a, b with
  | none, none => rfl
  | none, some b => rfl
  | some a, none => rfl
  | some a, some b =>
    rw [verCompare_key, verCompare_key, Ordering.swap_then, PadLex.cmp_swap, ← Std.OrientedOrd.eq_swap]

theorem sign_eq_neg_of_swap {x y : ℤ} (h : (compare x 0).swap = compare y 0) : x.sign = -y.sign := by
  rcases lt_trichotomy x 0 with hx | hx | hx
  · rw [compare_lt_iff_lt.2 hx] at h
    have hy : 0 < y := compare_gt_iff_gt.1 h.symm
    rw [Int.sign_eq_neg_one_of_neg hx, Int.sign_eq_one_of_pos hy]
  · rw [compare_eq_iff_eq.2 hx] at h
    have hy : y = 0 := compare_eq_iff_eq.1 h.symm
    rw [hx, hy]; rfl
  · rw [compare_gt_iff_gt.2 hx] at h
    have hy : y < 0 := compare_lt_iff_lt.1 h.symm
    rw [Int.sign_eq_one_of_pos hx, Int.sign_eq_neg_one_of_neg hy]; rfl

theorem nonpos_iff_isLE (x : ℤ) : x ≤ 0 ↔ (compare x 0).isLE := by
  rw [Ordering.isLE_iff_ne_gt, compare_gt_iff_gt, not_lt]

theorem verCompare_self (a : Option CStr) : verCompare a a = 0 := by
  cases a with
  | none => rfl
  | some a =>
    rw [← compare_eq_iff_eq, verCompare_key, cmp_self, Std.ReflOrd.compare_self]; rfl

theorem verCompare_trans {a b c : Option CStr} (h1 : verCompare a b ≤ 0) (h2 : verCompare b c ≤ 0) :
    verCompare a c ≤ 0 := by
  match a, b, c with
  | none, _, none => exact le_rfl
  | none, _, some c => exact (by decide : (-1 : ℤ) ≤ 0)
  | some a, none, _ => exact absurd h1 (by decide : ¬(1 : ℤ) ≤ 0)
  | some a, some b, none => exact absurd h2 (by decide : ¬(1 : ℤ) ≤ 0)
  | some a, some b, some c =>
    rw [nonpos_iff_isLE, verCompare_key] at h1 h2 ⊢
    exact isLE_then_trans cmp_trans h1 h2

/-- **`ver_compare` is a total preorder** on all version strings, `NULL` included:
it is reflexive, the sign flips with the order of the arguments (so any two
versions are comparable), and it is transitive. -/
theorem verCompare_total_preorder :
    (∀ a, verCompare a a = 0) ∧ (∀ a b, (verCompare a b).sign = -(verCompare b a).sign) ∧
      ∀ a b c, verCompare a b ≤ 0 → verCompare b c ≤ 0 → verCompare a c ≤ 0 :=
  ⟨verCompare_self, fun a b => sign_eq_neg_of_swap (verCompare_swap a b), fun _ _ _ => verCompare_trans⟩

end Apg
