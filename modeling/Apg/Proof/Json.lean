import Apg.Spec.Json

/-!
# Records survive JSON

* `depConstraintParse_toStr`: **parsing a printed constraint gives it back**, for
  every constraint that was parsed.
* `depConstraint_roundtrip`: the same, and the parts of a joined constraint are found.
* `packageFromJson_toJson`: **a record is read back as it was written**, up to
  what the writer makes of absent strings.
* `packageFromJson_survives`: the same for every package read from a document.
-/

namespace Apg

/-! ## Searching and trimming -/

theorem prefix_of_prefix_append {pat a b : CStr} {c : CChar} (hc : c ∉ pat) (h : pat <+: a ++ c :: b) :
    pat <+: a := by
  rcases List.prefix_or_prefix_of_prefix h (List.prefix_append a (c :: b)) with h' | ⟨t, rfl⟩
  · exact h'
  · have ht := (List.prefix_append_right_inj a).1 h
    cases t with
    | nil => simp
    | cons d t =>
      rw [List.cons_prefix_cons] at ht
      exact absurd (ht.1 ▸ List.mem_append_right _ List.mem_cons_self) hc

/-- A pattern without the character `c` stands before or after it. -/
theorem infix_append_iff {pat : CStr} (hne : pat ≠ []) {c : CChar} (hc : c ∉ pat) (b : CStr) : ∀ a : CStr,
    pat <:+: a ++ c :: b ↔ pat <:+: a ∨ pat <:+: b := by
  intro a
  induction a with
  | nil =>
    rw [List.nil_append, List.infix_cons_iff]
    have hpre : ¬pat <+: c :: b := fun h => hne (List.prefix_nil.1 (prefix_of_prefix_append (a := []) hc h))
    simp [hpre, hne]
  | cons d a ih =>
    rw [List.cons_append, List.infix_cons_iff, List.infix_cons_iff, ih]
    have hpre : pat <+: d :: (a ++ c :: b) ↔ pat <+: d :: a := by
      constructor
      · exact fun h => prefix_of_prefix_append (a := d :: a) hc h
      · exact fun h => h.trans (List.prefix_append (d :: a) (c :: b))
    rw [hpre, or_assoc]

theorem strstr_eq_none {pat : CStr} (hne : pat ≠ []) : ∀ s : CStr, strstr s pat = none ↔ ¬pat <:+: s := by
  intro s
  induction s with
  | nil => simp [strstr, hne]
  | cons c s ih =>
    rw [strstr, List.infix_cons_iff]
    by_cases hpre : pat <+: c :: s
    · rw [if_pos (List.isPrefixOf_iff_prefix.2 hpre)]
      simp [hpre]
    · rw [if_neg (fun h => hpre (List.isPrefixOf_iff_prefix.1 h)), Option.map_eq_none_iff, ih]
      simp [hpre]

/-- What stands before the first occurrence holds none. -/
theorem strstr_take {pat : CStr} (hne : pat ≠ []) : ∀ (s : CStr) (i : ℕ), strstr s pat = some i →
    ¬pat <:+: s.take i := by
  intro s
  induction s with
  | nil => intro i _; simp [hne]
  | cons c s ih =>
    intro i h
    rw [strstr] at h
    by_cases hpre : pat <+: c :: s
    · rw [if_pos (List.isPrefixOf_iff_prefix.2 hpre), Option.some.injEq] at h
      rw [← h]; simp [hne]
    · rw [if_neg (fun h => hpre (List.isPrefixOf_iff_prefix.1 h))] at h
      obtain ⟨j, hj, rfl⟩ := Option.map_eq_some_iff.1 h
      rw [List.take_succ_cons, List.infix_cons_iff, not_or]
      refine ⟨fun hp => hpre ?_, ih j hj⟩
      exact hp.trans ((List.prefix_cons_inj c).2 (List.take_prefix j s))

/-- Behind a part without the pattern and a character that is not in it, the
search goes on as if it started there. -/
theorem strstr_append {pat : CStr} (hne : pat ≠ []) {c : CChar} (hc : c ∉ pat) (b : CStr) : ∀ a : CStr,
    ¬pat <:+: a → strstr (a ++ c :: b) pat = (strstr b pat).map (· + (a.length + 1)) := by
  intro a
  induction a with
  | nil =>
    intro _
    have hpre : ¬pat <+: c :: b := fun h => hne (List.prefix_nil.1 (prefix_of_prefix_append (a := []) hc h))
    rw [List.nil_append, strstr, if_neg (fun h => hpre (List.isPrefixOf_iff_prefix.1 h))]
    rfl
  | cons d a ih =>
    intro ha
    rw [List.infix_cons_iff, not_or] at ha
    have hpre : ¬pat <+: d :: (a ++ c :: b) := fun h => ha.1 (prefix_of_prefix_append (a := d :: a) hc h)
    rw [List.cons_append, strstr, if_neg (fun h => hpre (List.isPrefixOf_iff_prefix.1 h)), ih ha.2, Option.map_map]
    rfl

theorem strstr_self_append (pat b : CStr) (hne : pat ≠ []) : strstr (pat ++ b) pat = some 0 := by
  obtain ⟨c, s, rfl⟩ := List.exists_cons_of_ne_nil hne
  rw [List.cons_append, strstr, if_pos]
  exact List.isPrefixOf_iff_prefix.2 (List.prefix_append (c :: s) b)

theorem trimStrdup_part (s : CStr) : trimStrdup s <:+: s :=
  (List.rdropWhile_prefix _ _).isInfix.trans (List.dropWhile_suffix _).isInfix

theorem dropWhile_trimStrdup (s : CStr) : (trimStrdup s).dropWhile isBlank = trimStrdup s := by
  unfold trimStrdup
  cases hu : s.dropWhile isBlank with
  | nil => rfl
  | cons c u =>
    -- what was trimmed on the left starts with no blank, and so does every start of it
    have hc : isBlank c = false := by
      have := List.head_dropWhile_not isBlank (l := s) (by rw [hu]; simp)
      simpa [hu] using this
    cases hr : (c :: u).rdropWhile isBlank with
    | nil => rfl
    | cons d r =>
      have hpre := List.rdropWhile_prefix isBlank (c :: u)
      rw [hr, List.cons_prefix_cons] at hpre
      rw [List.dropWhile_cons_of_neg (by rw [hpre.1, hc]; simp)]

theorem trimStrdup_trimStrdup (s : CStr) : trimStrdup (trimStrdup s) = trimStrdup s := by
  rw [trimStrdup, dropWhile_trimStrdup]
  unfold trimStrdup
  exact List.rdropWhile_idempotent _ _

/-- Blanks on the left are trimmed. -/
theorem trimStrdup_blanks_append {blanks : CStr} (h : ∀ c ∈ blanks, isBlank c = true) (s : CStr) :
    trimStrdup (blanks ++ s) = trimStrdup s := by
  unfold trimStrdup
  rw [List.dropWhile_append_of_pos h]

/-- Blanks on the right are trimmed. -/
theorem trimStrdup_append_blanks (s : CStr) {blanks : CStr} (h : ∀ c ∈ blanks, isBlank c = true) :
    trimStrdup (s ++ blanks) = trimStrdup s := by
  induction blanks using List.reverseRecOn with
  | nil => rw [List.append_nil]
  | append_singleton blanks c ih =>
    have hc : isBlank c = true := h c (by simp)
    rw [← ih fun d hd => h d (by simp [hd]), ← List.append_assoc]
    unfold trimStrdup
    generalize s ++ blanks = u
    rw [List.dropWhile_append]
    split
    · rename_i hu
      rw [List.isEmpty_iff.1 hu, List.dropWhile_cons_of_pos hc]
      simp
    · rw [List.rdropWhile_concat_pos _ _ _ hc]

theorem trimStrdup_cons_blank (s : CStr) : trimStrdup (.blank :: s) = trimStrdup s := by
  have hblank : ∀ c ∈ [CChar.blank], isBlank c = true := by decide
  exact trimStrdup_blanks_append hblank s

theorem trimStrdup_append_blank (s : CStr) : trimStrdup (s ++ [.blank]) = trimStrdup s :=
  trimStrdup_append_blanks s (by decide)

/-- Neither the first nor the last character is a blank. -/
def Trimmed (s : CStr) : Prop := (∀ c ∈ s.head?, isBlank c = false) ∧ ∀ c ∈ s.getLast?, isBlank c = false

theorem Trimmed.eq {s : CStr} (h : Trimmed s) : trimStrdup s = s := by
  unfold trimStrdup
  have hleft : s.dropWhile isBlank = s := by
    cases s with
    | nil => rfl
    | cons c s => rw [List.dropWhile_cons_of_neg (by rw [h.1 c rfl]; simp)]
  rw [hleft, List.rdropWhile_eq_self_iff]
  intro hs
  rw [h.2 _ (List.getLast?_eq_getLast_of_ne_nil hs)]
  simp

/-! ## Constraints -/

/-- The operators of a table: none is empty or has a blank, and none stands in a
later one. -/
structure OpsOK (tbl : List (CStr × VerOp)) : Prop where
  sym : ∀ e ∈ tbl, e.1 ≠ [] ∧ .blank ∉ e.1
  later : tbl.Pairwise fun a b => ¬a.1 <:+: b.1

theorem ops_ok : OpsOK ops := ⟨by decide, by decide⟩

theorem opStr_ops : ∀ e ∈ ops, e.2 ≠ .any ∧ opStr e.2 = e.1 := by decide

theorem findOp_none : ∀ {tbl : List (CStr × VerOp)}, OpsOK tbl → ∀ {s t : CStr}, t <:+: s → findOp s tbl = none →
    findOp t tbl = none := by
  intro tbl
  induction tbl with
  | nil => intro _ s t _ _; rfl
  | cons e tbl ih =>
    intro hT s t hts h
    obtain ⟨sym, op⟩ := e
    obtain ⟨hne, -⟩ := hT.sym (sym, op) List.mem_cons_self
    have hT' : OpsOK tbl := ⟨fun e he => hT.sym e (List.mem_cons_of_mem _ he), (List.pairwise_cons.1 hT.later).2⟩
    unfold findOp at h ⊢
    split at h
    · exact absurd h (by simp)
    · rename_i hs
      have ht : strstr t sym = none := by
        rw [strstr_eq_none hne] at hs ⊢
        exact fun hin => hs (hin.trans hts)
      rw [ht]; exact ih hT' hts h

theorem findOp_mem : ∀ {tbl : List (CStr × VerOp)} {s sym : CStr} {i : ℕ} {op : VerOp},
    findOp s tbl = some (i, sym, op) → (sym, op) ∈ tbl ∧ strstr s sym = some i := by
  intro tbl
  induction tbl with
  | nil => intro s sym i op h; simp [findOp] at h
  | cons e tbl ih =>
    intro s sym i op h
    obtain ⟨sym', op'⟩ := e
    unfold findOp at h
    split at h
    · rename_i j hj
      simp only [Option.some.injEq, Prod.mk.injEq] at h
      obtain ⟨rfl, rfl, rfl⟩ := h
      exact ⟨List.mem_cons_self, hj⟩
    · obtain ⟨h1, h2⟩ := ih h
      exact ⟨List.mem_cons_of_mem _ h1, h2⟩

/-- The text a found operator is printed to is searched with the same outcome. -/
theorem findOp_print : ∀ {tbl : List (CStr × VerOp)}, OpsOK tbl → ∀ {s sym a b : CStr} {i : ℕ} {op : VerOp},
    findOp s tbl = some (i, sym, op) → a <:+: s.take i → b <:+: s →
    findOp (a ++ .blank :: (sym ++ .blank :: b)) tbl = some (a.length + 1, sym, op) := by
  intro tbl
  induction tbl with
  | nil => intro _ s sym a b i op h; simp [findOp] at h
  | cons e tbl ih =>
    intro hT s sym a b i op h ha hb
    obtain ⟨sym', op'⟩ := e
    obtain ⟨hne, hblank⟩ := hT.sym (sym', op') List.mem_cons_self
    obtain ⟨hlater, hpair⟩ := List.pairwise_cons.1 hT.later
    have hT' : OpsOK tbl := ⟨fun e he => hT.sym e (List.mem_cons_of_mem _ he), hpair⟩
    unfold findOp at h ⊢
    split at h
    · rename_i j hj
      simp only [Option.some.injEq, Prod.mk.injEq] at h
      obtain ⟨rfl, rfl, rfl⟩ := h
      -- the first occurrence is the only one before its place
      have hnot : ¬sym' <:+: a := fun hin => strstr_take hne s j hj (hin.trans ha)
      rw [strstr_append hne hblank _ a hnot, strstr_self_append sym' _ hne]
      simp
    · rename_i hs
      obtain ⟨hmem, -⟩ := findOp_mem h
      rw [strstr_eq_none hne] at hs
      -- an earlier operator is in none of the parts
      have hnone : strstr (a ++ .blank :: (sym ++ .blank :: b)) sym' = none := by
        rw [strstr_eq_none hne, infix_append_iff hne hblank, infix_append_iff hne hblank]
        rintro (hin | hin | hin)
        · exact hs (hin.trans (ha.trans (List.take_prefix i s).isInfix))
        · exact hlater _ hmem hin
        · exact hs (hin.trans hb)
      rw [hnone]; exact ih hT' h ha hb

/-- **A printed constraint is parsed to the constraint**, if that was parsed
itself. -/
theorem depConstraintParse_toStr (o : Option CStr) {t : CStr}
    (h : depConstraintToStr (depConstraintParse o) = some t) :
    depConstraintParse (some t) = depConstraintParse o := by
  cases o with
  | none => simp [depConstraintParse, depConstraintToStr] at h
  | some s =>
    cases hf : findOp s ops with
    | none =>
      simp only [depConstraintParse, hf, depConstraintToStr, if_true, Option.some.injEq] at h
      subst h
      simp only [depConstraintParse, hf, findOp_none ops_ok (trimStrdup_part s) hf, trimStrdup_trimStrdup]
    | some r =>
      obtain ⟨i, sym, op⟩ := r
      obtain ⟨hmem, -⟩ := findOp_mem hf
      obtain ⟨hany, hsym⟩ := opStr_ops _ hmem
      simp only at hany hsym
      simp only [depConstraintParse, hf, depConstraintToStr, hany, if_false, hsym, Option.some.injEq,
        List.append_assoc, List.cons_append] at h
      subst h
      -- the two halves are trimmed already, so printing puts exactly one blank beside the operator
      set a := trimStrdup (s.take i) with ha
      set b := trimStrdup (s.drop (i + sym.length)) with hb
      have hprint := findOp_print ops_ok hf (a := a) (b := b) (trimStrdup_part _)
        ((trimStrdup_part _).trans (List.drop_suffix _ s).isInfix)
      have htake : (a ++ CChar.blank :: (sym ++ CChar.blank :: b)).take (a.length + 1) = a ++ [CChar.blank] := by
        simp [List.take_append]
      have hdrop : (a ++ CChar.blank :: (sym ++ CChar.blank :: b)).drop (a.length + 1 + sym.length) =
          CChar.blank :: b := by
        rw [show a ++ CChar.blank :: (sym ++ CChar.blank :: b) = (a ++ [CChar.blank] ++ sym) ++ CChar.blank :: b by simp]
        rw [List.drop_left' (by simp; omega)]
      have haa : trimStrdup a = a := trimStrdup_trimStrdup _
      have hbb : trimStrdup b = b := trimStrdup_trimStrdup _
      simp only [depConstraintParse, hprint, hf, htake, hdrop, trimStrdup_append_blank, trimStrdup_cons_blank, haa, hbb]
      rw [ha, hb]

/-! ## Constraints joined from parts -/

/-- The characters of the operators. -/
def isOpChar (c : CChar) : Bool := (cstr "<>=!").contains c

theorem ops_opChars : ∀ e ∈ ops, ∀ c ∈ e.1, isOpChar c = true := by decide

/-- Where there is no operator character, no operator starts. -/
theorem strstr_skip {pat : CStr} (hne : pat ≠ []) (hpat : ∀ c ∈ pat, isOpChar c = true) (b : CStr) : ∀ a : CStr,
    (∀ c ∈ a, isOpChar c = false) → strstr (a ++ b) pat = (strstr b pat).map (· + a.length) := by
  intro a
  induction a with
  | nil => intro _; simp
  | cons d a ih =>
    intro ha
    have hpre : ¬pat <+: d :: (a ++ b) := by
      obtain ⟨c, pat', rfl⟩ := List.exists_cons_of_ne_nil hne
      intro h
      have hd := ha d List.mem_cons_self
      rw [← (List.cons_prefix_cons.1 h).1, hpat c List.mem_cons_self] at hd
      cases hd
    rw [List.cons_append, strstr, if_neg (fun h => hpre (List.isPrefixOf_iff_prefix.1 h)),
      ih fun c hc => ha c (List.mem_cons_of_mem _ hc), Option.map_map]
    rfl

/-- An operator is not found in what has none of its characters. -/
theorem infix_of_append_plain {pat a b : CStr} (hne : pat ≠ []) (hpat : ∀ c ∈ pat, isOpChar c = true)
    (hb : ∀ c ∈ b, isOpChar c = false) (h : pat <:+: a ++ b) : pat <:+: a := by
  have hnot : ∀ {t : CStr}, (∀ c ∈ t, isOpChar c = false) → ¬pat <:+: t := by
    intro t ht hin
    obtain ⟨c, pat', rfl⟩ := List.exists_cons_of_ne_nil hne
    have hc := ht c (hin.subset List.mem_cons_self)
    rw [hpat c List.mem_cons_self] at hc
    cases hc
  cases b with
  | nil => rwa [List.append_nil] at h
  | cons d b =>
    have hd : d ∉ pat := by
      intro hd
      have := hb d List.mem_cons_self
      rw [hpat d hd] at this
      cases this
    rcases (infix_append_iff hne hd b a).1 h with h | h
    · exact h
    · exact absurd h (hnot fun c hc => hb c (List.mem_cons_of_mem _ hc))

/-- An operator between two parts without operator characters is the one that is found. -/
theorem findOp_joined : ∀ {tbl : List (CStr × VerOp)}, OpsOK tbl → (∀ e ∈ tbl, ∀ c ∈ e.1, isOpChar c = true) →
    ∀ {sym a b : CStr} {op : VerOp}, (sym, op) ∈ tbl → (∀ c ∈ a, isOpChar c = false) →
    (∀ c ∈ b, isOpChar c = false) → findOp (a ++ (sym ++ b)) tbl = some (a.length, sym, op) := by
  intro tbl
  induction tbl with
  | nil => intro _ _ sym a b op h; cases h
  | cons e tbl ih =>
    intro hT hchars sym a b op hmem ha hb
    obtain ⟨sym', op'⟩ := e
    obtain ⟨hne, -⟩ := hT.sym (sym', op') List.mem_cons_self
    obtain ⟨hlater, hpair⟩ := List.pairwise_cons.1 hT.later
    have hpat : ∀ c ∈ sym', isOpChar c = true := hchars _ List.mem_cons_self
    unfold findOp
    rw [strstr_skip hne hpat _ a ha]
    rcases List.mem_cons.1 hmem with h | h
    · cases h
      rw [strstr_self_append sym _ hne]
      simp
    · -- an earlier operator of the table does not stand in a later one
      have hnone : strstr (sym ++ b) sym' = none := by
        rw [strstr_eq_none hne]
        exact fun hin => hlater _ h (infix_of_append_plain hne hpat hb hin)
      rw [hnone]
      have hT' : OpsOK tbl := ⟨fun e he => hT.sym e (List.mem_cons_of_mem _ he), hpair⟩
      exact ih hT' (fun e he => hchars e (List.mem_cons_of_mem _ he)) h ha hb

theorem isOpChar_blank {c : CChar} (h : isBlank c = true) : isOpChar c = false := by
  simp only [isBlank, Bool.or_eq_true, decide_eq_true_eq] at h
  rcases h with rfl | rfl <;> decide

/-- **Constraints round-trip**: what was parsed and printed is parsed to the same, and a
name, an operator and a version joined with blanks are parsed to what they are. -/
theorem depConstraint_roundtrip :
    (∀ s : CStr, depConstraintParse (depConstraintToStr (depConstraintParse (some s))) = depConstraintParse (some s)) ∧
      ∀ sym op, (sym, op) ∈ ops → ∀ name version before after : CStr,
        (∀ c ∈ name, isOpChar c = false) → (∀ c ∈ version, isOpChar c = false) → Trimmed name → Trimmed version →
        (∀ c ∈ before, isBlank c = true) → (∀ c ∈ after, isBlank c = true) →
        depConstraintParse (some (name ++ before ++ sym ++ after ++ version)) = ⟨some name, op, some version⟩ := by
  refine ⟨fun s => ?_, ?_⟩
  · cases h : depConstraintToStr (depConstraintParse (some s)) with
    | some t => exact depConstraintParse_toStr (some s) h
    | none =>
      -- a string has a name, so it is printed
      exfalso
      cases hf : findOp s ops with
      | none => simp [depConstraintParse, hf, depConstraintToStr] at h
      | some r =>
        obtain ⟨i, sym, op⟩ := r
        have hany : op ≠ .any := (opStr_ops _ (findOp_mem hf).1).1
        simp [depConstraintParse, hf, depConstraintToStr, hany] at h
  · intro sym op hmem name version before after hname hversion htn htv hbefore hafter
    have ha : ∀ c ∈ name ++ before, isOpChar c = false := by
      intro c hc
      rcases List.mem_append.1 hc with hc | hc
      · exact hname c hc
      · exact isOpChar_blank (hbefore c hc)
    have hb : ∀ c ∈ after ++ version, isOpChar c = false := by
      intro c hc
      rcases List.mem_append.1 hc with hc | hc
      · exact isOpChar_blank (hafter c hc)
      · exact hversion c hc
    have hs : name ++ before ++ sym ++ after ++ version = (name ++ before) ++ (sym ++ (after ++ version)) := by simp
    have htake : ((name ++ before) ++ (sym ++ (after ++ version))).take (name ++ before).length = name ++ before :=
      List.take_left
    have hdrop : ((name ++ before) ++ (sym ++ (after ++ version))).drop ((name ++ before).length + sym.length) =
        after ++ version := by
      rw [← List.append_assoc]
      exact List.drop_left' (by simp; omega)
    rw [hs]
    simp only [depConstraintParse, findOp_joined ops_ok ops_opChars hmem ha hb, htake, hdrop]
    rw [trimStrdup_append_blanks name hbefore, trimStrdup_blanks_append hafter, htn.eq, htv.eq]

theorem depConstraint_roundtrip_spaced :
    depConstraintParse (some (cstr "zlib" ++ cstr " " ++ cstr ">=" ++ cstr "\t " ++ cstr "1.2")) =
      ⟨some (cstr "zlib"), .ge, some (cstr "1.2")⟩ :=
  depConstraint_roundtrip.2 (cstr ">=") .ge (by decide) (cstr "zlib") (cstr "1.2") (cstr " ") (cstr "\t ") (by decide)
    (by decide) (by unfold Trimmed; decide) (by unfold Trimmed; decide) (by decide) (by decide)

/-! ## Records -/

theorem cstrOf_jstr (s : CStr) : cstrOf (jstr s) = s := by
  unfold jstr
  induction s with
  | nil => rfl
  | cons c s ih =>
    have hc : 0 < c.val := c.property.1
    simp [cstrOf, hc, ih]

/-- What `package_to_json` makes of the metadata: absent strings are empty, an
absent type is `misc`, `NULL` entries and nameless dependencies are dropped. -/
def Metadata.written (m : Metadata) : Metadata where
  name := some (m.name.getD [])
  version := some (m.version.getD [])
  type := some (m.type.getD (cstr "misc"))
  architecture := some (m.architecture.getD [])
  description := some (m.description.getD [])
  maintainer := some (m.maintainer.getD [])
  license := some (m.license.getD [])
  homepage := some (m.homepage.getD [])
  tags := m.tags.reduceOption.map some
  dependencies := m.dependencies.filter (·.name.isSome)
  conflicts := m.conflicts.reduceOption.map some
  provides := m.provides.reduceOption.map some
  replaces := m.replaces.reduceOption.map some
  conf := m.conf.reduceOption.map some

/-- What is read back of a package: its list of files is not in the record, and
an empty path is none. -/
def Package.written (p : Package) : Package where
  metadata := p.metadata.written
  pkgPath := nonEmpty p.pkgPath
  packageFiles := []
  installedByHand := p.installedByHand
  held := p.held

/-- Every dependency was parsed from a string. -/
def Metadata.Parsed (m : Metadata) : Prop := ∀ c ∈ m.dependencies, ∃ o, c = depConstraintParse o

theorem parsed_fromRoot (root : Json) : (parseMetadataFromRoot root).Parsed := by
  intro c hc
  simp only [parseMetadataFromRoot, parseDepArray] at hc
  split at hc
  · obtain ⟨j, -, rfl⟩ := List.mem_map.1 hc
    exact ⟨_, rfl⟩
  · simp at hc

theorem parsed_fromJson {root : Json} {m : Metadata} (h : packageMetadataFromJson root = some m) : m.Parsed := by
  unfold packageMetadataFromJson at h
  split at h
  · rw [Option.some.injEq] at h
    rw [← h]; exact parsed_fromRoot root
  · exact absurd h (by simp)

theorem parseStrArray_add (key : String) (list : List (Option CStr)) :
    parseStrArray (some (addStrArray key list).2) = list.reduceOption.map some := by
  simp [parseStrArray, addStrArray, getStr, cstrOf_jstr, Function.comp_def]

theorem parseDepArray_add (key : String) : ∀ {list : List DepConstraint}, (∀ c ∈ list, ∃ o, c = depConstraintParse o) →
    parseDepArray (some (addDepArray key list).2) = list.filter (·.name.isSome) := by
  intro list h
  simp only [parseDepArray, addDepArray, List.map_map, Function.comp_def, getStr, cstrOf_jstr]
  induction list with
  | nil => rfl
  | cons c list ih =>
    have ih' := ih fun c hc => h c (List.mem_cons_of_mem _ hc)
    obtain ⟨o, ho⟩ := h c List.mem_cons_self
    cases ht : depConstraintToStr c with
    | none =>
      have hn : c.name = none := by
        unfold depConstraintToStr at ht
        cases hn : c.name with
        | none => rfl
        | some n =>
          rw [hn] at ht
          simp only at ht
          split_ifs at ht
          split at ht <;> simp at ht
      rw [List.filterMap_cons_none ht, List.filter_cons_of_neg (by simp [hn])]
      exact ih'
    | some t =>
      have hn : c.name.isSome := by
        cases hn : c.name with
        | none => simp [depConstraintToStr, hn] at ht
        | some n => rfl
      -- this is where the dependency has to be one that was parsed
      have hback : depConstraintParse (some t) = c := by
        rw [ho] at ht ⊢
        exact depConstraintParse_toStr o ht
      rw [List.filterMap_cons_some ht, List.map_cons, List.filter_cons_of_pos (by simpa using hn), hback, ih']

theorem getStr_add (key absent : String) (s : Option CStr) :
    getStr (some (addStr key s absent).2) = some (s.getD (cstr absent)) := by
  simp [addStr, getStr, cstrOf_jstr]

/-- The fields of a written record are found under their keys. -/
theorem objGet_toJson (p : Package) :
    objGet "name" (packageToJson p) = some (addStr "name" p.metadata.name "").2 ∧
    objGet "version" (packageToJson p) = some (addStr "version" p.metadata.version "").2 ∧
    objGet "type" (packageToJson p) = some (addStr "type" p.metadata.type "misc").2 ∧
    objGet "architecture" (packageToJson p) = some (addStr "architecture" p.metadata.architecture "").2 ∧
    objGet "description" (packageToJson p) = some (addStr "description" p.metadata.description "").2 ∧
    objGet "maintainer" (packageToJson p) = some (addStr "maintainer" p.metadata.maintainer "").2 ∧
    objGet "license" (packageToJson p) = some (addStr "license" p.metadata.license "").2 ∧
    objGet "homepage" (packageToJson p) = some (addStr "homepage" p.metadata.homepage "").2 ∧
    objGet "installed_by_hand" (packageToJson p) = some (.bool p.installedByHand) ∧
    objGet "held" (packageToJson p) = some (.bool p.held) ∧
    objGet "pkg_path" (packageToJson p) = some (addStr "pkg_path" p.pkgPath "").2 ∧
    objGet "tags" (packageToJson p) = some (addStrArray "tags" p.metadata.tags).2 ∧
    objGet "dependencies" (packageToJson p) = some (addDepArray "dependencies" p.metadata.dependencies).2 ∧
    objGet "conflicts" (packageToJson p) = some (addStrArray "conflicts" p.metadata.conflicts).2 ∧
    objGet "provides" (packageToJson p) = some (addStrArray "provides" p.metadata.provides).2 ∧
    objGet "replaces" (packageToJson p) = some (addStrArray "replaces" p.metadata.replaces).2 ∧
    objGet "conf" (packageToJson p) = some (addStrArray "conf" p.metadata.conf).2 :=
  ⟨rfl, rfl, rfl, rfl, rfl, rfl, rfl, rfl, rfl, rfl, rfl, rfl, rfl, rfl, rfl, rfl, rfl⟩

/-- **A record is read back as it was written.** -/
theorem packageFromJson_toJson {p : Package} (hp : p.metadata.Parsed) :
    packageFromJson (packageToJson p) = some p.written := by
  obtain ⟨h1, h2, h3, h4, h5, h6, h7, h8, h9, h10, h11, h12, h13, h14, h15, h16, h17⟩ := objGet_toJson p
  have hempty : cstr "" = [] := rfl
  have hmeta : parseMetadataFromRoot (packageToJson p) = p.metadata.written := by
    simp only [parseMetadataFromRoot, Metadata.written, h1, h2, h3, h4, h5, h6, h7, h8, h12, h13, h14, h15, h16, h17,
      getStr_add, parseStrArray_add, parseDepArray_add "dependencies" hp, hempty]
  have hpath : nonEmpty (some (p.pkgPath.getD [])) = nonEmpty p.pkgPath := by
    cases p.pkgPath with
    | none => rfl
    | some s => rfl
  have hobj : (packageToJson p).isObj = true := rfl
  unfold packageFromJson Package.written
  simp only [hobj, if_true, hmeta, h9, h10, h11, getBool, getStr_add, hempty, hpath]

/-- A dependency that was read has a name. -/
theorem parseDepArray_named (key : String) (list : List DepConstraint) :
    ∀ c ∈ parseDepArray (some (addDepArray key list).2), c.name.isSome := by
  intro c hc
  simp only [parseDepArray, addDepArray, List.map_map, List.mem_map, Function.comp_apply, getStr, cstrOf_jstr] at hc
  obtain ⟨s, -, rfl⟩ := hc
  unfold depConstraintParse
  simp only
  split <;> rfl

/-- **What was read of a record does not change any more**: writing it again makes
nothing else of it. -/
theorem written_of_fromJson {p q : Package} (h : packageFromJson (packageToJson p) = some q) :
    q.metadata.Parsed ∧ q.packageFiles = [] ∧ q.metadata.written = q.metadata ∧ nonEmpty q.pkgPath = q.pkgPath := by
  have hobj : (packageToJson p).isObj = true := rfl
  unfold packageFromJson at h
  rw [if_pos hobj, Option.some.injEq] at h
  rw [← h]
  obtain ⟨h1, h2, h3, h4, h5, h6, h7, h8, -, -, h11, h12, h13, h14, h15, h16, h17⟩ := objGet_toJson p
  refine ⟨parsed_fromRoot _, rfl, ?_, ?_⟩
  · have hdeps : (parseDepArray (some (addDepArray "dependencies" p.metadata.dependencies).2)).filter (·.name.isSome) =
        parseDepArray (some (addDepArray "dependencies" p.metadata.dependencies).2) :=
      List.filter_eq_self.2 (parseDepArray_named _ _)
    have hlist : ∀ l : List CStr, (l.map some).reduceOption.map some = l.map some := by simp [List.reduceOption]
    simp only [parseMetadataFromRoot, Metadata.written, h1, h2, h3, h4, h5, h6, h7, h8, h12, h13, h14, h15, h16, h17,
      getStr_add, parseStrArray_add, hdeps, hlist, Option.getD_some]
  · simp only [h11, getStr_add]
    unfold nonEmpty
    split_ifs with hnil hnone
    · rfl
    · rfl
    · rfl

theorem addDepArray_filter (key : String) (list : List DepConstraint) :
    addDepArray key (list.filter (·.name.isSome)) = addDepArray key list := by
  unfold addDepArray
  have hprint : (list.filter (·.name.isSome)).filterMap depConstraintToStr = list.filterMap depConstraintToStr := by
    induction list with
    | nil => rfl
    | cons c list ih =>
      cases hn : c.name with
      | none =>
        have hnone : depConstraintToStr c = none := by simp [depConstraintToStr, hn]
        rw [List.filter_cons_of_neg (by simp [hn]), List.filterMap_cons_none hnone, ih]
      | some n =>
        rw [List.filter_cons_of_pos (by simp [hn]), List.filterMap_cons, List.filterMap_cons, ih]
  rw [hprint]

/-- **What is read back of a record is written as the same record.** -/
theorem packageToJson_written (p : Package) : packageToJson p.written = packageToJson p := by
  have hlist : ∀ (key : String) (l : List (Option CStr)), addStrArray key (l.reduceOption.map some) = addStrArray key l := by
    intro key l
    unfold addStrArray
    rw [List.reduceOption, List.filterMap_map, Function.id_comp, List.filterMap_some]
  have hpath : (nonEmpty p.pkgPath).getD (cstr "") = p.pkgPath.getD (cstr "") := by
    unfold nonEmpty
    by_cases h : p.pkgPath = some []
    · rw [if_pos h, h]; rfl
    · rw [if_neg h]
  unfold packageToJson Package.written Metadata.written
  simp only [addDepArray_filter, hlist]
  simp only [addStr, hpath]
  rfl

/-- The metadata was read from a document. -/
def Metadata.FromJson (m : Metadata) : Prop :=
  ∃ root, packageMetadataFromJson root = some m ∨ ∃ q, packageFromJson root = some q ∧ q.metadata = m

theorem Metadata.FromJson.parsed {m : Metadata} (h : m.FromJson) : m.Parsed := by
  obtain ⟨root, hm | ⟨q, hq, rfl⟩⟩ := h
  · exact parsed_fromJson hm
  · unfold packageFromJson at hq
    split at hq
    · rw [← Option.some.inj hq]
      exact parsed_fromRoot root
    · cases hq

/-- **Records survive JSON**: a package is read back as the writer puts it, with every
dependency that has a name, and is written as the same record again. -/
theorem packageFromJson_survives {p : Package} (h : p.metadata.FromJson) :
    ∃ q, packageFromJson (packageToJson p) = some q ∧ q = p.written ∧
      q.metadata.dependencies = p.metadata.dependencies.filter (·.name.isSome) ∧ packageToJson q = packageToJson p :=
  ⟨p.written, packageFromJson_toJson h.parsed, rfl, rfl, packageToJson_written p⟩

/-- A document with a dependency that has no name. -/
def curlJson : Json :=
  .obj [(jstr (cstr "name"), .str (jstr (cstr "curl"))),
    (jstr (cstr "dependencies"), .arr [.null, .str (jstr (cstr "zlib>=1.2"))])]

theorem packageFromJson_survives_curl :
    ∃ q, packageFromJson (packageToJson { metadata := parseMetadataFromRoot curlJson }) = some q ∧
      q.metadata.dependencies = [⟨some (cstr "zlib"), .ge, some (cstr "1.2")⟩] := by
  have hread : (parseMetadataFromRoot curlJson).FromJson := ⟨curlJson, Or.inl rfl⟩
  obtain ⟨q, hq, -, hdeps, -⟩ := packageFromJson_survives (p := { metadata := parseMetadataFromRoot curlJson }) hread
  refine ⟨q, hq, ?_⟩
  rw [hdeps]
  decide

end Apg
