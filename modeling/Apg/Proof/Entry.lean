import Apg.Proof.Journal
import Apg.Proof.Newer

/-!
# What is read of a journal entry

The fields of an entry stand between bars and are not escaped, `-` stands for no string,
and what does not fit into the buffer is cut off.

* `readEntry_written_iff`: **when an entry is read as it was written.**
-/

namespace Apg.Journal

/-! ## Numbers -/

theorem toDigits_decimal (m : ℕ) : cstr (String.ofList (Nat.toDigits 10 m)) = decimal m := by
  induction m using Nat.strong_induction_on with
  | _ m ih =>
    have happend : ∀ s t : List Char, cstr (String.ofList (s ++ t)) = cstr (String.ofList s) ++ cstr (String.ofList t) := by
      intro s t
      simp [cstr]
    have hdigit : ∀ k < 10, cstr (String.ofList [k.digitChar]) = [digitChar k] := by decide
    rw [Nat.toDigits_eq_if (by omega), decimal]
    split
    · rename_i hm
      exact hdigit m hm
    · rw [happend, ih (m / 10) (by omega), hdigit (m % 10) (Nat.mod_lt _ (by omega))]
      simp [digitChar]

theorem cstr_toString (m : ℕ) : cstr (toString m) = decimal m := by
  rw [← toDigits_decimal m, ← Nat.repr_eq_ofList_toDigits]
  rfl

/-- A decimal that is cut off is at most a tenth. -/
theorem digitsVal_take (m : ℕ) : ∀ k < (decimal m).length, digitsVal ((decimal m).take k) ≤ (m / 10 : ℕ) := by
  induction m using Nat.strong_induction_on with
  | _ m ih =>
    intro k hk
    rw [decimal] at hk ⊢
    split
    · rename_i hm
      rw [if_pos hm] at hk
      obtain rfl : k = 0 := by simpa using hk
      simp only [List.take_zero, digitsVal, List.foldl_nil]
      omega
    · rename_i hm
      rw [if_neg hm, List.length_append] at hk
      have hk' : k ≤ (decimal (m / 10)).length := by simpa using Nat.lt_succ_iff.1 hk
      rw [List.take_append_of_le_length hk']
      rcases Nat.lt_or_ge k (decimal (m / 10)).length with hlt | hge
      · have := ih (m / 10) (by omega) k hlt
        omega
      · rw [List.take_of_length_le hge, digitsVal_decimal]

theorem strtoul_digits {s : CStr} (h : ∀ c ∈ s, c.isDigit = true) : strtoul s = min (digitsVal s).toNat (2 ^ 64 - 1) := by
  have hspace : s.dropWhile CChar.isSpace = s := by
    cases s with
    | nil => rfl
    | cons c s =>
      have hc := h c List.mem_cons_self
      rw [List.dropWhile_cons_of_neg]
      simp only [CChar.isDigit, CChar.isSpace, Bool.and_eq_true, Bool.or_eq_true, decide_eq_true_eq] at hc ⊢
      omega
  have hsign : readSign s = (false, s) := by
    cases s with
    | nil => rfl
    | cons c s =>
      have hc := h c List.mem_cons_self
      have hminus : c ≠ .minus := by rintro rfl; exact absurd hc (by decide)
      have hplus : c ≠ .plus := by rintro rfl; exact absurd hc (by decide)
      rw [readSign, if_neg hminus, if_neg hplus]
  have htake : s.takeWhile CChar.isDigit = s := List.takeWhile_eq_self_iff.2 h
  unfold strtoul
  rw [hspace, hsign]
  simp only [htake, Bool.false_eq_true, if_false]
  split <;> omega

/-! ## Fields -/

theorem splitFields_plain (n : ℕ) (field : CStr) {s : CStr} (h : bar ∉ s) : splitFields n field s = [field ++ s] := by
  induction s generalizing field with
  | nil => cases n <;> simp [splitFields]
  | cons c s ih =>
    cases n with
    | zero => rfl
    | succ n =>
      have hc : c ≠ bar := by rintro rfl; exact h List.mem_cons_self
      rw [splitFields, if_neg hc, ih _ fun hs => h (List.mem_cons_of_mem _ hs), List.append_assoc]
      rfl

theorem splitFields_bar (n : ℕ) (field : CStr) {a : CStr} (h : bar ∉ a) (s : CStr) :
    splitFields (n + 1) field (a ++ bar :: s) = (field ++ a) :: splitFields n [] s := by
  induction a generalizing field with
  | nil => rw [List.nil_append, splitFields, if_pos rfl, List.append_nil]
  | cons c a ih =>
    have hc : c ≠ bar := by rintro rfl; exact h List.mem_cons_self
    rw [List.cons_append, splitFields, if_neg hc, ih _ fun ha => h (List.mem_cons_of_mem _ ha), List.append_assoc]
    rfl

/-- Only the last field can hold a bar. -/
theorem bar_notMem_splitFields : ∀ (s : CStr) (n : ℕ) (field : CStr), bar ∉ field →
    ∀ f ∈ (splitFields n field s).dropLast, bar ∉ f := by
  intro s
  induction s with
  | nil => intro n field _ f hf; cases n <;> simp [splitFields] at hf
  | cons c s ih =>
    intro n field hfield f hf
    cases n with
    | zero => simp [splitFields] at hf
    | succ n =>
      rw [splitFields] at hf
      split at hf
      · have hne : splitFields n [] s ≠ [] := by
          intro h
          have := length_splitFields s n []
          rw [h] at this
          simp at this
        rw [List.dropLast_cons_of_ne_nil hne] at hf
        rcases List.mem_cons.1 hf with rfl | hf
        · exact hfield
        · exact ih n [] (by simp) f hf
      · rename_i hc
        refine ih (n + 1) (field ++ [c]) ?_ f hf
        simp [hfield, Ne.symm hc]

/-- The first fields of what is cut off after `m` characters. -/
theorem take_bar {a s : CStr} {m : ℕ} (h : a.length < m) :
    (a ++ bar :: s).take m = a ++ bar :: s.take (m - a.length - 1) := by
  rw [List.take_append, List.take_of_length_le (by omega)]
  obtain ⟨k, hk⟩ : ∃ k, m - a.length = k + 1 := ⟨m - a.length - 1, by omega⟩
  rw [hk, List.take_succ_cons]
  rfl

theorem take_plain {a s : CStr} {m : ℕ} (h : m ≤ a.length) (ha : bar ∉ a) : bar ∉ (a ++ s).take m := by
  rw [List.take_append_of_le_length h]
  exact fun hin => ha (List.mem_of_mem_take hin)

/-! ## The end of an entry -/

/-- What stands behind the version. -/
def tailText (ok : Bool) (uid : ℕ) (explicitOp : Bool) : CStr :=
  statusToStr ok ++ bar :: decimal uid ++ bar :: cstr (if explicitOp then "1" else "0")

/-- What is read of it. -/
def readTail (fields : List CStr) : Option (Bool × ℕ × Bool) :=
  match fields with
  | f :: rest => some (f = cstr "ok", ((rest[0]?.map strtoul).getD 0) % 2 ^ 32, (rest[1]?.bind (·.head?)) = (cstr "1").head?)
  | [] => none

/-- The end is read as it was written when `m` characters of it are kept: all of it, or
nothing is cut off but what is read of nothing anyway. -/
def TailFits (m : ℕ) (ok : Bool) (uid : ℕ) (explicitOp : Bool) : Prop :=
  (tailText ok uid explicitOp).length ≤ m ∨
    explicitOp = false ∧ ((statusToStr ok).length + 1 + (decimal uid).length ≤ m ∨
      uid = 0 ∧ ((statusToStr ok).length ≤ m ∨ ok = false))

theorem head_flag : ¬none = (cstr "1").head? := by decide

theorem bar_notMem_status (ok : Bool) : bar ∉ statusToStr ok := by cases ok <;> decide

theorem bar_notMem_decimal (m : ℕ) : bar ∉ decimal m := fun h => absurd (decimal_digits m bar h) (by decide)

/-- A status that is cut off is read as a failure. -/
theorem status_take_iff (ok : Bool) {m : ℕ} (h : m ≤ (statusToStr ok).length) :
    decide ((statusToStr ok).take m = cstr "ok") = ok ↔ (statusToStr ok).length ≤ m ∨ ok = false := by
  cases ok with
  | true =>
    have hlen : (statusToStr true).length = 2 := by decide
    rw [hlen] at h ⊢
    interval_cases m <;> decide
  | false =>
    have hlen : (statusToStr false).length = 6 := by decide
    rw [hlen] at h ⊢
    interval_cases m <;> decide

/-- A number that is cut off is only read as itself if it is zero. -/
theorem strtoul_take_iff {m uid : ℕ} (huid : uid < 2 ^ 32) :
    strtoul ((decimal uid).take m) % 2 ^ 32 = uid ↔ (decimal uid).length ≤ m ∨ uid = 0 := by
  have hdigits : ∀ c ∈ (decimal uid).take m, c.isDigit = true := fun c hc => decimal_digits uid c (List.mem_of_mem_take hc)
  rw [strtoul_digits hdigits]
  rcases Nat.lt_or_ge m (decimal uid).length with hlt | hge
  · have hle := digitsVal_take uid m hlt
    have hpos : uid = 0 → digitsVal ((decimal uid).take m) ≤ 0 := by rintro rfl; simpa using hle
    omega
  · rw [List.take_of_length_le hge, digitsVal_decimal]
    omega

theorem readTail_iff {m uid : ℕ} (huid : uid < 2 ^ 32) (ok explicitOp : Bool) :
    readTail (splitFields 2 [] ((tailText ok uid explicitOp).take m)) = some (ok, uid, explicitOp) ↔
      TailFits m ok uid explicitOp := by
  have htext : tailText ok uid explicitOp =
      statusToStr ok ++ bar :: (decimal uid ++ bar :: cstr (if explicitOp then "1" else "0")) := by simp [tailText]
  have hflag : (cstr (if explicitOp then "1" else "0")).length = 1 := by cases explicitOp <;> decide
  have hlen : (tailText ok uid explicitOp).length = (statusToStr ok).length + 1 + (decimal uid).length + 2 := by
    rw [htext]
    simp only [List.length_append, List.length_cons, hflag]
    omega
  unfold TailFits
  rw [hlen, htext]
  rcases Nat.lt_or_ge (statusToStr ok).length m with hst | hst
  · rw [take_bar hst, splitFields_bar 1 [] (bar_notMem_status ok), List.nil_append]
    have hok : decide (statusToStr ok = cstr "ok") = ok := by cases ok <;> decide
    rcases Nat.lt_or_ge (decimal uid).length (m - (statusToStr ok).length - 1) with hu | hu
    · -- the number is there
      rw [take_bar hu, splitFields_bar 0 [] (bar_notMem_decimal uid), List.nil_append]
      have hnum : strtoul (decimal uid) % 2 ^ 32 = uid := by
        have := (strtoul_take_iff (m := (decimal uid).length) huid).2 (Or.inl (Nat.le_refl _))
        rwa [List.take_length] at this
      generalize hk : m - (statusToStr ok).length - 1 - (decimal uid).length - 1 = k
      cases k with
      | zero =>
        rw [List.take_zero]
        simp only [splitFields, readTail, List.getElem?_cons_zero, List.getElem?_cons_succ, Option.map_some,
          Option.getD_some, Option.bind_some, List.head?_nil, hok, hnum]
        cases explicitOp <;> simp [head_flag] <;> omega
      | succ k =>
        rw [List.take_of_length_le (by omega)]
        have hread : ((splitFields 0 [] (cstr (if explicitOp then "1" else "0")))[0]?.bind (·.head?) =
            (cstr "1").head?) ↔ explicitOp = true := by cases explicitOp <;> decide
        simp only [readTail, List.getElem?_cons_zero, List.getElem?_cons_succ, Option.map_some, Option.getD_some, hok,
          hnum, hread]
        simp
        omega
    · rw [splitFields_plain 1 [] (take_plain hu (bar_notMem_decimal uid)), List.nil_append,
        List.take_append_of_le_length hu]
      have hnum := strtoul_take_iff (m := m - (statusToStr ok).length - 1) huid
      simp only [readTail, List.getElem?_cons_zero, List.getElem?_cons_succ, List.getElem?_nil, Option.map_some,
        Option.getD_some, Option.bind_none, hok, Option.some.injEq, Prod.mk.injEq, hnum]
      cases explicitOp <;> simp [head_flag] <;> omega
  · -- the status is the last field
    rw [splitFields_plain 2 [] (take_plain hst (bar_notMem_status ok)), List.nil_append, List.take_append_of_le_length hst]
    have hstatus := status_take_iff ok hst
    simp only [readTail, List.getElem?_nil, Option.map_none, Option.getD_none, Option.bind_none, Option.some.injEq,
      Prod.mk.injEq, hstatus]
    have hall : ¬(statusToStr ok).length + 1 + (decimal uid).length + 2 ≤ m := by omega
    have hnum : ¬(statusToStr ok).length + 1 + (decimal uid).length ≤ m := by omega
    have hzero : 0 = uid ↔ uid = 0 := eq_comm
    cases explicitOp <;> simp [hall, hnum, hzero, head_flag, and_comm]

/-! ## A whole entry -/

/-- A name or a version that can be told from what stands around it. -/
def Storable (s : Option CStr) : Prop := ∀ t ∈ s, bar ∉ t ∧ t ≠ cstr "-"

/-- The length of an entry up to the bar behind its version. -/
def headLength (c : JournalCall) : ℕ :=
  (opToStr c.op).length + (c.pkgName.getD (cstr "-")).length + (c.pkgVersion.getD (cstr "-")).length + 3

section

variable {c : JournalCall}

theorem Storable.bar_notMem {s : Option CStr} (h : Storable s) : bar ∉ s.getD (cstr "-") := by
  cases s with
  | none => decide
  | some t => exact (h t rfl).1

theorem Storable.strOfField {s : Option CStr} (h : Storable s) : strOfField (s.getD (cstr "-")) = s := by
  cases s with
  | none => rfl
  | some t => exact if_neg (h t rfl).2

/-- A field without bars is read as a name that can be told. -/
theorem storable_strOfField {f : CStr} (h : bar ∉ f) : Storable (strOfField f) := by
  intro t ht
  unfold strOfField at ht
  split at ht
  · cases ht
  · rename_i hne
    cases ht
    exact ⟨h, hne⟩

theorem bar_notMem_op (op : JournalOp) : bar ∉ opToStr op := by cases op <;> decide

theorem opOfStr_opToStr (op : JournalOp) : opOfStr (opToStr op) = op := by cases op <;> decide

theorem journalVal_eq (c : JournalCall) : journalVal c =
    (opToStr c.op ++ bar :: (c.pkgName.getD (cstr "-") ++ bar :: (c.pkgVersion.getD (cstr "-") ++
      bar :: tailText c.ok c.uid.toNat c.explicitOp))).take 511 := by
  unfold journalVal tailText
  rw [cstr_toString]
  simp

/-- The fields of an entry that is not cut off before its status. -/
theorem splitFields_journalVal (hname : bar ∉ c.pkgName.getD (cstr "-")) (hversion : bar ∉ c.pkgVersion.getD (cstr "-"))
    (h : headLength c ≤ 511) :
    splitFields 5 [] (journalVal c) = opToStr c.op :: c.pkgName.getD (cstr "-") :: c.pkgVersion.getD (cstr "-") ::
      splitFields 2 [] ((tailText c.ok c.uid.toNat c.explicitOp).take (511 - headLength c)) := by
  unfold headLength at h ⊢
  rw [journalVal_eq, take_bar (by omega), splitFields_bar 4 [] (bar_notMem_op c.op), take_bar (by omega),
    splitFields_bar 3 [] hname, take_bar (by omega), splitFields_bar 2 [] hversion]
  simp only [List.nil_append]
  rw [show 511 - (opToStr c.op).length - 1 - (c.pkgName.getD (cstr "-")).length - 1 -
    (c.pkgVersion.getD (cstr "-")).length - 1 = 511 - ((opToStr c.op).length + (c.pkgName.getD (cstr "-")).length +
      (c.pkgVersion.getD (cstr "-")).length + 3) by omega]

/-- An entry that is cut off before its status has too few bars. -/
theorem headLength_le_of_count (hname : bar ∉ c.pkgName.getD (cstr "-")) (hversion : bar ∉ c.pkgVersion.getD (cstr "-"))
    (h : 3 ≤ (journalVal c).count bar) : headLength c ≤ 511 := by
  by_contra hlong
  unfold headLength at hlong
  have hsplit : journalVal c = (opToStr c.op ++ bar :: (c.pkgName.getD (cstr "-") ++ bar :: c.pkgVersion.getD (cstr "-"))).take 511 := by
    rw [journalVal_eq]
    have hassoc : opToStr c.op ++ bar :: (c.pkgName.getD (cstr "-") ++ bar :: (c.pkgVersion.getD (cstr "-") ++
        bar :: tailText c.ok c.uid.toNat c.explicitOp)) =
        (opToStr c.op ++ bar :: (c.pkgName.getD (cstr "-") ++ bar :: c.pkgVersion.getD (cstr "-"))) ++
          bar :: tailText c.ok c.uid.toNat c.explicitOp := by simp
    rw [hassoc, List.take_append_of_le_length]
    simp only [List.length_append, List.length_cons]
    omega
  have hcount := (List.take_sublist 511
    (opToStr c.op ++ bar :: (c.pkgName.getD (cstr "-") ++ bar :: c.pkgVersion.getD (cstr "-")))).count_le bar
  rw [← hsplit] at hcount
  simp only [List.count_append, List.count_cons_self, List.count_eq_zero_of_not_mem (bar_notMem_op c.op),
    List.count_eq_zero_of_not_mem hname, List.count_eq_zero_of_not_mem hversion] at hcount
  omega

end

/-- What is read of the fields of an entry. -/
theorem readEntry_fields {key : List ℕ} (hkey : key.length = 12) {val f₀ f₁ f₂ f₃ : CStr} {rest : List CStr}
    (h : splitFields 5 [] val = f₀ :: f₁ :: f₂ :: f₃ :: rest) :
    ∃ e tail, readEntry key val = some e ∧ readTail (f₃ :: rest) = some tail ∧
      e.toJournalEntry = ⟨opOfStr f₀, strOfField f₁, strOfField f₂, tail.1, tail.2.2⟩ ∧ e.uid = tail.2.1 := by
  have hshort : ¬key.length < 12 := by omega
  unfold readEntry
  rw [if_neg hshort, h]
  exact ⟨_, _, rfl, rfl, rfl, rfl⟩

/-- An entry that is read has the fields of the head, none of which holds a bar. -/
theorem readEntry_head {key : List ℕ} (hkey : key.length = 12) {val : CStr} (h : (readEntry key val).isSome) :
    ∃ f₀ f₁ f₂ f₃ rest, splitFields 5 [] val = f₀ :: f₁ :: f₂ :: f₃ :: rest ∧ bar ∉ f₁ ∧ bar ∉ f₂ := by
  have hcount := (readEntry_isSome_iff hkey val).1 h
  have hlen := length_splitFields val 5 []
  have hplain := bar_notMem_splitFields val 5 [] (by simp)
  have hfour : 4 ≤ (splitFields 5 [] val).length := by omega
  rcases hfields : splitFields 5 [] val with _ | ⟨f₀, _ | ⟨f₁, _ | ⟨f₂, _ | ⟨f₃, rest⟩⟩⟩⟩
  · simp [hfields] at hfour
  · simp [hfields] at hfour
  · simp [hfields] at hfour
  · simp [hfields] at hfour
  · rw [hfields] at hplain
    exact ⟨f₀, f₁, f₂, f₃, rest, rfl, hplain f₁ (by simp [List.dropLast]), hplain f₂ (by simp [List.dropLast])⟩

/-- An entry that is read as it was written can be told, and fits. -/
theorem fits_of_readEntry {c : JournalCall} {seq : ℕ} {e : ReadEntry}
    (he : readEntry (packKey c.time seq) (journalVal c) = some e)
    (hentry : e.toJournalEntry = ⟨c.op, c.pkgName, c.pkgVersion, c.ok, c.explicitOp⟩) (heuid : e.uid = c.uid.toNat) :
    Storable c.pkgName ∧ Storable c.pkgVersion ∧ headLength c ≤ 511 ∧
      TailFits (511 - headLength c) c.ok c.uid.toNat c.explicitOp := by
  have hkey : (packKey c.time seq).length = 12 := by simp [packKey, BigEndian.length_bytes]
  have huid : c.uid.toNat < 2 ^ 32 := c.uid.toNat_lt
  have hread := readTail_iff (m := 511 - headLength c) huid c.ok c.explicitOp
  have hcount := (readEntry_isSome_iff hkey (journalVal c)).1 (by rw [he]; rfl)
  obtain ⟨f₀, f₁, f₂, f₃, rest, hfields, hf₁, hf₂⟩ := readEntry_head hkey (by rw [he]; rfl)
  obtain ⟨e', tail, he', htail, hentry', huid'⟩ := readEntry_fields hkey hfields
  rw [he] at he'
  cases he'
  rw [hentry'] at hentry
  rw [huid'] at heuid
  obtain ⟨ok, n, flag⟩ := tail
  simp only [JournalEntry.mk.injEq] at hentry heuid
  obtain ⟨-, hpkgName, hpkgVersion, rfl, rfl⟩ := hentry
  subst heuid
  have hname : Storable c.pkgName := by
    rw [← hpkgName]
    exact storable_strOfField hf₁
  have hversion : Storable c.pkgVersion := by
    rw [← hpkgVersion]
    exact storable_strOfField hf₂
  have hhead := headLength_le_of_count hname.bar_notMem hversion.bar_notMem hcount
  refine ⟨hname, hversion, hhead, hread.1 ?_⟩
  -- the fields behind the version are those of the end
  have hsplit := splitFields_journalVal hname.bar_notMem hversion.bar_notMem hhead
  rw [hfields] at hsplit
  simp only [List.cons.injEq] at hsplit
  rw [← hsplit.2.2.2]
  exact htail

/-- One that can be told, and fits, is read as it was written. -/
theorem readEntry_of_fits {c : JournalCall} (hname : Storable c.pkgName) (hversion : Storable c.pkgVersion)
    (hhead : headLength c ≤ 511) (htail : TailFits (511 - headLength c) c.ok c.uid.toNat c.explicitOp) (seq : ℕ) :
    ∃ e, readEntry (packKey c.time seq) (journalVal c) = some e ∧
      e.toJournalEntry = ⟨c.op, c.pkgName, c.pkgVersion, c.ok, c.explicitOp⟩ ∧ e.uid = c.uid.toNat := by
  have hkey : (packKey c.time seq).length = 12 := by simp [packKey, BigEndian.length_bytes]
  have huid : c.uid.toNat < 2 ^ 32 := c.uid.toNat_lt
  have hread := readTail_iff (m := 511 - headLength c) huid c.ok c.explicitOp
  have hsplit := splitFields_journalVal hname.bar_notMem hversion.bar_notMem hhead
  have htail' := hread.2 htail
  cases hend : splitFields 2 [] ((tailText c.ok c.uid.toNat c.explicitOp).take (511 - headLength c)) with
  | nil => rw [hend] at htail'; cases htail'
  | cons f₃ rest =>
    rw [hend] at hsplit htail'
    obtain ⟨e, tail, he, hread', hentry, heuid⟩ := readEntry_fields hkey hsplit
    rw [htail'] at hread'
    cases hread'
    refine ⟨e, he, ?_, heuid⟩
    rw [hentry, opOfStr_opToStr, hname.strOfField, hversion.strOfField]

/-- **When an entry is read as it was written.** -/
theorem readEntry_written_iff (c : JournalCall) (seq : ℕ) :
    (∃ e, readEntry (packKey c.time seq) (journalVal c) = some e ∧
        e.toJournalEntry = ⟨c.op, c.pkgName, c.pkgVersion, c.ok, c.explicitOp⟩ ∧ e.uid = c.uid.toNat) ↔
      Storable c.pkgName ∧ Storable c.pkgVersion ∧ headLength c ≤ 511 ∧
        TailFits (511 - headLength c) c.ok c.uid.toNat c.explicitOp := by
  constructor
  · rintro ⟨e, he, hentry, heuid⟩
    exact fits_of_readEntry he hentry heuid
  · rintro ⟨hname, hversion, hhead, htail⟩
    exact readEntry_of_fits hname hversion hhead htail seq

/-- A name with a bar in it. -/
theorem readEntry_written_barred :
    (readEntry (packKey ⟨0, by decide⟩ 0) (journalVal
      { op := .install, pkgName := some (cstr "a|b"), pkgVersion := some (cstr "1"), ok := true, uid := 0,
        explicitOp := true, time := ⟨0, by decide⟩ })).map (fun e => (e.pkgName, e.pkgVersion, e.ok)) =
      some (some (cstr "a"), some (cstr "b"), false) := by
  decide

end Apg.Journal
