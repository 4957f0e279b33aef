import Apg.Proof.Version

/-!
# A higher number is a newer version

Two versions that differ only in a number at their end: `p` followed by the
decimals of `m` and of `n`. `ver_compare` reads the two strings in step until it
meets the numbers, and then it depends on what `strtol` finds right before them.

* `toks_append`: the stream of `p` with a number behind it, the number being
  negative exactly if `p` ends in a dash.
* `verCompare_number_iff`: **the higher number is newer, unless `p` ends in a dash.**
-/

namespace Apg

open PadLex

/-! ## Decimals -/

def digitChar (k : ℕ) : CChar := ⟨48 + k % 10, by omega⟩

/-- The decimal of a number, without leading zeros. -/
def decimal (m : ℕ) : CStr :=
  if m < 10 then [digitChar m] else decimal (m / 10) ++ [digitChar m]

theorem decimal_of_lt {m : ℕ} (h : m < 10) : decimal m = [digitChar m] := by
  rw [decimal, if_pos h]

theorem decimal_digits (m : ℕ) : ∀ c ∈ decimal m, c.isDigit = true := by
  have hdigit : ∀ k, (digitChar k).isDigit = true := by
    intro k
    have hk : k % 10 < 10 := Nat.mod_lt _ (by omega)
    have hval : (digitChar k).val = 48 + k % 10 := rfl
    simp only [CChar.isDigit, hval, Bool.and_eq_true, decide_eq_true_eq]
    omega
  induction m using Nat.strong_induction_on with
  | _ m ih =>
    rw [decimal]
    intro c hc
    split at hc
    · rw [List.mem_singleton.1 hc]; exact hdigit m
    · rcases List.mem_append.1 hc with hc | hc
      · exact ih (m / 10) (by omega) c hc
      · rw [List.mem_singleton.1 hc]; exact hdigit m

theorem decimal_ne_nil (m : ℕ) : decimal m ≠ [] := by
  rw [decimal]
  split <;> simp

theorem digitsVal_decimal (m : ℕ) : digitsVal (decimal m) = m := by
  have hdigit : ∀ k, ((digitChar k).val : ℤ) - 48 = (k % 10 : ℕ) := by
    intro k
    simp [digitChar]
  induction m using Nat.strong_induction_on with
  | _ m ih =>
    rw [decimal]
    split
    · rename_i hm
      simp only [digitsVal, List.foldl_cons, List.foldl_nil, hdigit]
      omega
    · have hrec := ih (m / 10) (by omega)
      unfold digitsVal at hrec ⊢
      rw [List.foldl_append, hrec, List.foldl_cons, List.foldl_nil, hdigit]
      omega

/-! ## What stands before a number -/

/-- A string of digits, at least one. -/
structure Digits (d : CStr) : Prop where
  all : ∀ c ∈ d, c.isDigit = true
  nonempty : d ≠ []

/-- What stops before a digit stops at the end of `p`, if not in it. -/
theorem dropWhile_digits {d : CStr} (hd : Digits d) {f : CChar → Bool} (hf : ∀ c : CChar, c.isDigit = true → f c = false)
    (p : CStr) : (p ++ d).dropWhile f = p.dropWhile f ++ d := by
  obtain ⟨c, d', rfl⟩ := List.exists_cons_of_ne_nil hd.nonempty
  have hstop : (c :: d').dropWhile f = c :: d' := by
    rw [List.dropWhile_cons, hf c (hd.all c List.mem_cons_self)]
    rfl
  rw [List.dropWhile_append, hstop]
  split
  · rename_i hnil
    rw [List.isEmpty_iff.1 hnil, List.nil_append]
  · rfl

theorem isDigit_ne {c x : CChar} (hc : c.isDigit = true) (hx : x.isDigit = false) : c ≠ x := by
  intro h
  rw [h, hx] at hc
  simp at hc

theorem skipDots_digits {d : CStr} (hd : Digits d) (p : CStr) : skipDots (p ++ d) = skipDots p ++ d := by
  refine dropWhile_digits hd ?_ p
  intro c hc
  simpa using isDigit_ne hc (by decide)

theorem dropSpace_digits {d : CStr} (hd : Digits d) (p : CStr) :
    (p ++ d).dropWhile CChar.isSpace = p.dropWhile CChar.isSpace ++ d := by
  refine dropWhile_digits hd ?_ p
  intro c hc
  simp only [CChar.isDigit, CChar.isSpace, Bool.and_eq_true, decide_eq_true_eq, Bool.or_eq_false_iff,
    decide_eq_false_iff_not, Bool.and_eq_false_iff] at hc ⊢
  omega

theorem readSign_digits {d : CStr} (hd : Digits d) (w : CStr) :
    readSign (w ++ d) = ((readSign w).1, (readSign w).2 ++ d) := by
  cases w with
  | nil =>
    obtain ⟨c, d', rfl⟩ := List.exists_cons_of_ne_nil hd.nonempty
    have hc := hd.all c List.mem_cons_self
    simp only [List.nil_append, readSign]
    rw [if_neg (isDigit_ne hc (by decide)), if_neg (isDigit_ne hc (by decide))]
  | cons c w =>
    simp only [List.cons_append, readSign]
    split_ifs <;> rfl

/-- What is left of a string after blanks and a sign. -/
def afterSign (s : CStr) : CStr := (readSign (s.dropWhile CChar.isSpace)).2

/-- `strtol` stays within `p` if something else than a digit follows the sign in it. -/
theorem strtol_within {d : CStr} (hd : Digits d) {p : CStr} {c : CChar} (hc : c ∈ afterSign p)
    (hnot : c.isDigit = false) : strtol (p ++ d) = ((strtol p).1, (strtol p).2 ++ d) := by
  have hlen : ((afterSign p).takeWhile CChar.isDigit).length ≠ (afterSign p).length := by
    intro h
    have hall := List.takeWhile_prefix CChar.isDigit |>.eq_of_length h
    rw [← hall] at hc
    have := List.mem_takeWhile_imp hc
    rw [hnot] at this
    simp at this
  have htake : (afterSign p ++ d).takeWhile CChar.isDigit = (afterSign p).takeWhile CChar.isDigit := by
    rw [List.takeWhile_append, if_neg hlen]
  have hdrop : (afterSign p ++ d).dropWhile CChar.isDigit = (afterSign p).dropWhile CChar.isDigit ++ d := by
    rw [List.dropWhile_append, if_neg]
    rw [List.isEmpty_iff, List.dropWhile_eq_nil_iff]
    intro hall
    have := hall c hc
    rw [hnot] at this
    simp at this
  have hsign : readSign ((p ++ d).dropWhile CChar.isSpace) =
      ((readSign (p.dropWhile CChar.isSpace)).1, afterSign p ++ d) := by
    rw [dropSpace_digits hd, readSign_digits hd]
    rfl
  simp only [strtol, hsign, htake, hdrop]
  unfold afterSign
  split_ifs <;> rfl

/-- Else it reads the number behind `p`. -/
theorem strtol_reads {d : CStr} (hd : Digits d) {p : CStr} (hp : afterSign p = []) (hmax : digitsVal d ≤ longMax)
    (hpos : 0 ≤ digitsVal d) :
    strtol (p ++ d) =
      (if (readSign (p.dropWhile CChar.isSpace)).1 then -digitsVal d else digitsVal d, []) := by
  have hsign : readSign ((p ++ d).dropWhile CChar.isSpace) = ((readSign (p.dropWhile CChar.isSpace)).1, d) := by
    rw [dropSpace_digits hd, readSign_digits hd]
    unfold afterSign at hp
    rw [hp, List.nil_append]
  have htake : d.takeWhile CChar.isDigit = d := List.takeWhile_eq_self_iff.2 hd.all
  have hdrop : d.dropWhile CChar.isDigit = [] := List.dropWhile_eq_nil_iff.2 hd.all
  simp only [strtol, hsign, htake, hdrop, if_neg hd.nonempty]
  congr 1
  unfold longMin longMax at *
  split_ifs <;> omega

/-! ## The stream -/

/-- The string is empty or ends in something else than a digit. -/
def EndsNonDigit (p : CStr) : Prop := ∀ c, p.getLast? = some c → c.isDigit = false

/-- The string ends in a dash. -/
def EndsDash (p : CStr) : Prop := p.getLast? = some .minus

instance (p : CStr) : Decidable (EndsDash p) := inferInstanceAs (Decidable (_ = _))

theorem getLast?_suffix {p q : CStr} (h : q <:+ p) (hq : q ≠ []) : p.getLast? = q.getLast? := by
  obtain ⟨r, rfl⟩ := h
  exact List.getLast?_append_of_ne_nil r hq

theorem endsNonDigit_suffix {p q : CStr} (h : q <:+ p) (hp : EndsNonDigit p) : EndsNonDigit q := by
  intro c hc
  have hq : q ≠ [] := by
    intro hnil
    simp [hnil] at hc
  exact hp c ((getLast?_suffix h hq).trans hc)

theorem afterSign_suffix (s : CStr) : afterSign s <:+ s := by
  have hread : ∀ w : CStr, (readSign w).2 <:+ w := by
    intro w
    cases w with
    | nil => exact List.suffix_refl _
    | cons c w =>
      simp only [readSign]
      split_ifs
      · exact List.suffix_cons c w
      · exact List.suffix_cons c w
      · exact List.suffix_refl _
  exact (hread _).trans (List.dropWhile_suffix _)

/-- Where nothing but blanks and a sign is left, the sign read is a dash exactly if
the string ends in one. -/
theorem readSign_dash {p : CStr} (hp : afterSign (skipDots p) = []) :
    (readSign ((skipDots p).dropWhile CChar.isSpace)).1 = true ↔ EndsDash p := by
  unfold EndsDash
  unfold afterSign at hp
  have hsuffix : (skipDots p).dropWhile CChar.isSpace <:+ p :=
    (List.dropWhile_suffix _).trans (List.dropWhile_suffix _)
  cases hw : (skipDots p).dropWhile CChar.isSpace with
  | cons c w =>
    rw [hw] at hp hsuffix
    rw [getLast?_suffix hsuffix (by simp)]
    simp only [readSign] at hp ⊢
    split_ifs at hp ⊢ with hminus hplus
    · simp only at hp
      simp [hp, hminus]
    · simp only at hp
      simp [hp, hminus]
  | nil =>
    -- only blanks and dots: neither is a dash
    simp only [readSign, Bool.false_eq_true, false_iff]
    intro hlast
    have hmem : CChar.minus ∈ p := List.mem_of_getLast? hlast
    have hdots : CChar.minus ∈ skipDots p := by
      rw [← List.takeWhile_append_dropWhile (p := fun c => decide (c = CChar.dot)) (l := p), List.mem_append] at hmem
      rcases hmem with hmem | hmem
      · exact absurd (List.mem_takeWhile_imp hmem) (by decide)
      · exact hmem
    have hspace := List.dropWhile_eq_nil_iff.1 hw _ hdots
    exact absurd hspace (by decide)

/-- Where `strtol` converts, it goes to the end of the digits. -/
theorem strtol_rest {s : CStr} (h : (strtol s).2 ≠ s) : (strtol s).2 = (afterSign s).dropWhile CChar.isDigit := by
  simp only [strtol] at h ⊢
  by_cases hds : (readSign (s.dropWhile CChar.isSpace)).2.takeWhile CChar.isDigit = []
  · rw [if_pos hds] at h
    exact absurd rfl h
  · rw [if_neg hds]
    rfl

/-- **The stream of a string with a number behind it**, up to a part that does not
depend on the number. -/
theorem toks_append : ∀ (p : CStr), EndsNonDigit p → ∃ before, ∀ m : ℕ, (m : ℤ) ≤ longMax →
    toks (p ++ decimal m) = before ++ [.inl (if EndsDash p then -(m : ℤ) else m)] := by
  intro p
  induction hn : p.length using Nat.strong_induction_on generalizing p with
  | _ n ih =>
    intro hp
    have hd : ∀ m, Digits (decimal m) := fun m => ⟨decimal_digits m, decimal_ne_nil m⟩
    have hdots : skipDots p <:+ p := List.dropWhile_suffix _
    have hafter : afterSign (skipDots p) <:+ p := (afterSign_suffix _).trans hdots
    by_cases hend : afterSign (skipDots p) = []
    -- the number is next
    · refine ⟨[], ?_⟩
      intro m hm
      have hval : digitsVal (decimal m) = m := digitsVal_decimal m
      have hread := strtol_reads (hd m) hend (by rw [hval]; exact hm) (by rw [hval]; omega)
      have hskip := skipDots_digits (hd m) p
      have hnum : (strtol (skipDots (p ++ decimal m))).2 ≠ skipDots (p ++ decimal m) := by
        rw [hskip, hread]
        intro h
        exact decimal_ne_nil m (List.append_eq_nil_iff.1 h.symm).2
      rw [toks_num hnum, hskip, hread, hval, List.nil_append]
      have hnil : toks [] = [] := by rw [toks]; rfl
      simp only [hnil, readSign_dash hend]
    -- something of `p` is next, and the rest of `p` is shorter
    · obtain ⟨c, hc⟩ := Option.ne_none_iff_exists'.1 (mt List.getLast?_eq_none_iff.1 hend)
      have hnot : c.isDigit = false := endsNonDigit_suffix hafter hp c hc
      have hwithin : ∀ m, strtol (skipDots p ++ decimal m) =
          ((strtol (skipDots p)).1, (strtol (skipDots p)).2 ++ decimal m) :=
        fun m => strtol_within (hd m) (List.mem_of_getLast? hc) hnot
      have hstep : ∀ m, (strtol (skipDots (p ++ decimal m))).2 = (strtol (skipDots p)).2 ++ decimal m := by
        intro m
        rw [skipDots_digits (hd m), hwithin m]
      by_cases hnum : (strtol (skipDots p)).2 = skipDots p
      · obtain ⟨x, t, ht⟩ : ∃ x t, skipDots p = x :: t := by
          refine List.exists_cons_of_ne_nil ?_
          intro hnil
          rw [hnil] at hend
          exact hend rfl
        have hsuffix : t <:+ p := (List.suffix_cons x t).trans (ht ▸ hdots)
        have hshort : t.length < n := by
          have := hdots.length_le
          rw [ht, List.length_cons] at this
          omega
        obtain ⟨before, hbefore⟩ := ih t.length hshort t rfl (endsNonDigit_suffix hsuffix hp)
        -- a dash that is the last character is read with the number
        have hdash : EndsDash p ↔ EndsDash t := by
          unfold EndsDash
          cases t with
          | nil =>
            rw [getLast?_suffix hdots (by rw [ht]; simp), ht]
            have hx : x ≠ .minus := by
              rintro rfl
              rw [ht] at hend
              exact hend (by decide)
            simp [hx]
          | cons y t => rw [getLast?_suffix hsuffix (by simp)]
        refine ⟨.inr x :: before, ?_⟩
        intro m hm
        have hstay : (strtol (skipDots (p ++ decimal m))).2 = skipDots (p ++ decimal m) := by
          rw [hstep, skipDots_digits (hd m), hnum]
        obtain ⟨hnil, -⟩ | ⟨y, t', hy, htoks⟩ := toks_letter hstay
        · rw [skipDots_digits (hd m)] at hnil
          exact absurd (List.append_eq_nil_iff.1 hnil).2 (decimal_ne_nil m)
        · rw [skipDots_digits (hd m), ht, List.cons_append, List.cons.injEq] at hy
          rw [htoks, ← hy.1, ← hy.2, hbefore m hm, List.cons_append]
          simp only [hdash]
      · have hrest := strtol_rest hnum
        have hsuffix : (strtol (skipDots p)).2 <:+ p := by
          rw [hrest]
          exact (List.dropWhile_suffix _).trans hafter
        have hne : (strtol (skipDots p)).2 ≠ [] := by
          rw [hrest, Ne, List.dropWhile_eq_nil_iff]
          intro hall
          have := hall c (List.mem_of_getLast? hc)
          rw [hnot] at this
          simp at this
        have hshort : (strtol (skipDots p)).2.length < n := by
          have h1 := strtol_lt hnum
          have h2 := hdots.length_le
          omega
        obtain ⟨before, hbefore⟩ := ih _ hshort _ rfl (endsNonDigit_suffix hsuffix hp)
        refine ⟨.inl (strtol (skipDots p)).1 :: before, ?_⟩
        intro m hm
        have hgoes : (strtol (skipDots (p ++ decimal m))).2 ≠ skipDots (p ++ decimal m) := by
          rw [hstep, skipDots_digits (hd m)]
          exact fun h => hnum (List.append_cancel_right h)
        have hdash : EndsDash p ↔ EndsDash (strtol (skipDots p)).2 := by
          unfold EndsDash
          rw [getLast?_suffix hsuffix hne]
        rw [toks_num hgoes, hstep, hbefore m hm, skipDots_digits (hd m), hwithin m, List.cons_append]
        simp only [hdash]

/-! ## Versions -/

/-- A colon of `p` ends the epoch before the number. -/
theorem splitEpoch_append {p : CStr} (hp : EndsNonDigit p) :
    ∃ e q, EndsNonDigit q ∧ (EndsDash q ↔ EndsDash p) ∧ ∀ m, splitEpoch (p ++ decimal m) = (e, q ++ decimal m) := by
  have hd : ∀ m, Digits (decimal m) := fun m => ⟨decimal_digits m, decimal_ne_nil m⟩
  have hnocolon : ∀ m, CChar.colon ∉ decimal m := by
    intro m hmem
    exact absurd (decimal_digits m _ hmem) (by decide)
  by_cases hcolon : CChar.colon ∈ p
  · obtain ⟨t, ht⟩ : ∃ t, p.dropWhile (· ≠ CChar.colon) = .colon :: t := by
      cases hdrop : p.dropWhile (· ≠ CChar.colon) with
      | nil => exact absurd (List.dropWhile_eq_nil_iff.1 hdrop _ hcolon) (by simp)
      | cons c t =>
        have hc := List.head?_dropWhile_not (fun c => decide (c ≠ CChar.colon)) p
        rw [hdrop] at hc
        simp only [List.head?_cons, ne_eq, decide_not, Bool.not_eq_eq_eq_not, Bool.not_false, decide_eq_true_eq] at hc
        exact ⟨t, by rw [hc]⟩
    have hsuffix : CChar.colon :: t <:+ p := ht ▸ List.dropWhile_suffix _
    have hsuffix' : t <:+ p := (List.suffix_cons _ _).trans hsuffix
    refine ⟨(strtol p).1, t, endsNonDigit_suffix hsuffix' hp, ?_, ?_⟩
    · unfold EndsDash
      cases t with
      | nil =>
        rw [getLast?_suffix hsuffix (by simp)]
        decide
      | cons y t => rw [getLast?_suffix hsuffix' (by simp)]
    · intro m
      have hnext : strchrNext (p ++ decimal m) .colon = some (t ++ decimal m) := by
        unfold strchrNext
        rw [List.dropWhile_append, ht]
        rfl
      -- the colon is neither a blank nor a sign, so `strtol` does not pass it
      have hafter : CChar.colon ∈ afterSign p := by
        have hspace : CChar.colon ∈ p.dropWhile CChar.isSpace := by
          rw [← List.takeWhile_append_dropWhile (p := CChar.isSpace) (l := p), List.mem_append] at hcolon
          rcases hcolon with h | h
          · exact absurd (List.mem_takeWhile_imp h) (by decide)
          · exact h
        unfold afterSign
        cases hw : p.dropWhile CChar.isSpace with
        | nil => rw [hw] at hspace; simp at hspace
        | cons c w =>
          rw [hw, List.mem_cons] at hspace
          simp only [readSign]
          split_ifs with h1 h2
          · rcases hspace with h | h
            · exact absurd (h.trans h1) (by decide)
            · exact h
          · rcases hspace with h | h
            · exact absurd (h.trans h2) (by decide)
            · exact h
          · exact List.mem_cons.2 hspace
      unfold splitEpoch
      rw [hnext, strtol_within (hd m) hafter (by decide)]
  · refine ⟨0, p, hp, Iff.rfl, ?_⟩
    intro m
    have hnone : strchrNext (p ++ decimal m) .colon = none := by
      unfold strchrNext
      have hdrop : (p ++ decimal m).dropWhile (· ≠ CChar.colon) = [] := by
        rw [List.dropWhile_eq_nil_iff]
        intro c hc
        rw [decide_eq_true_eq]
        rintro rfl
        rcases List.mem_append.1 hc with h | h
        · exact hcolon h
        · exact hnocolon m h
      rw [hdrop]
    unfold splitEpoch
    rw [hnone]

/-- **How versions compare that differ in the number at their end.** -/
theorem verCompare_number {p : CStr} (hp : EndsNonDigit p) {m n : ℕ} (hm : (m : ℤ) ≤ longMax) (hn : (n : ℤ) ≤ longMax) :
    compare (verCompare (some (p ++ decimal m)) (some (p ++ decimal n))) 0 =
      if EndsDash p then compare n m else compare m n := by
  obtain ⟨e, q, hq, hdash, hsplit⟩ := splitEpoch_append hp
  obtain ⟨before, hbefore⟩ := toks_append q hq
  rw [verCompare_key, hsplit, hsplit]
  simp only [Std.ReflOrd.compare_self, Ordering.eq_then]
  rw [hbefore m hm, hbefore n hn, cmp_append, cmp_num]
  simp only [hd, tl, cmp_nil, Ordering.then_eq, hdash]
  split_ifs with h
  · rcases lt_trichotomy m n with hlt | rfl | hlt
    · rw [compare_gt_iff_gt.2 hlt, compare_gt_iff_gt.2 (by omega)]
    · rw [Std.ReflOrd.compare_self, Std.ReflOrd.compare_self]
    · rw [compare_lt_iff_lt.2 hlt, compare_lt_iff_lt.2 (by omega)]
  · rcases lt_trichotomy m n with hlt | rfl | hlt
    · rw [compare_lt_iff_lt.2 hlt, compare_lt_iff_lt.2 (by omega)]
    · rw [Std.ReflOrd.compare_self, Std.ReflOrd.compare_self]
    · rw [compare_gt_iff_gt.2 hlt, compare_gt_iff_gt.2 (by omega)]

/-- The version with the number `n` is newer than the one with `m`: for the
comparison and for the constraints. -/
structure NewerNumber (p : CStr) (m n : ℕ) : Prop where
  compared : verCompare (some (p ++ decimal m)) (some (p ++ decimal n)) < 0
  accepted : verSatisfies (some (p ++ decimal n)) .gt (some (p ++ decimal m)) = true
  rejected : verSatisfies (some (p ++ decimal n)) .lt (some (p ++ decimal m)) = false

/-- **The higher number is newer, exactly if no dash stands before it.** -/
theorem verCompare_number_iff {p : CStr} (hp : EndsNonDigit p) {m n : ℕ} (hmn : m < n) (hn : (n : ℤ) ≤ longMax) :
    NewerNumber p m n ↔ ¬EndsDash p := by
  have hm : (m : ℤ) ≤ longMax := by omega
  have hup := verCompare_number hp hm hn
  have hdown := verCompare_number hp hn hm
  constructor
  · intro h hdash
    rw [if_pos hdash, compare_lt_iff_lt.2 h.compared, compare_gt_iff_gt.2 hmn] at hup
    simp at hup
  · intro hdash
    rw [if_neg hdash, compare_lt_iff_lt.2 hmn, compare_lt_iff_lt] at hup
    rw [if_neg hdash, compare_gt_iff_gt.2 hmn, compare_gt_iff_gt] at hdown
    refine ⟨hup, ?_, ?_⟩
    · simpa [verSatisfies] using hdown
    · simp only [verSatisfies]
      simp
      omega

/-- The release 1.0-2 counts as newer than 1.0-3. -/
theorem verCompare_number_release : EndsNonDigit (cstr "1.0-") ∧ ¬NewerNumber (cstr "1.0-") 2 3 ∧
    verCompare (some (cstr "1.0-2")) (some (cstr "1.0-3")) = 1 := by
  have hends : EndsNonDigit (cstr "1.0-") := by
    intro c hc
    have hlast : (cstr "1.0-").getLast? = some .minus := by decide
    rw [hlast, Option.some.injEq] at hc
    rw [← hc]
    decide
  have htwo : cstr "1.0-" ++ decimal 2 = cstr "1.0-2" := by
    rw [decimal_of_lt (by omega)]
    decide
  have hthree : cstr "1.0-" ++ decimal 3 = cstr "1.0-3" := by
    rw [decimal_of_lt (by omega)]
    decide
  have hval : verCompare (some (cstr "1.0-2")) (some (cstr "1.0-3")) = 1 := by decide
  refine ⟨hends, ?_, hval⟩
  intro h
  have hneg := h.compared
  rw [htwo, hthree, hval] at hneg
  omega

theorem verCompare_number_minor : EndsNonDigit (cstr "1.") ∧ NewerNumber (cstr "1.") 9 10 := by
  have hends : EndsNonDigit (cstr "1.") := by
    intro c hc
    have hlast : (cstr "1.").getLast? = some .dot := by decide
    rw [hlast, Option.some.injEq] at hc
    rw [← hc]
    decide
  exact ⟨hends, (verCompare_number_iff hends (by omega) (by decide)).2 (by decide)⟩

end Apg
