import Apg.Proof.SatSolve
import Apg.Proof.StrMap

/-!
# What the clauses of a model say

`ModelOK` is the invariant of a built model (`satBuilt_ok`): the index takes every
package to its variable, and literals are those of variables.

A set `S` of packages meets a model (`Meets`) if it makes every clause true. Every
operation adds one condition on `S` (`Adds`); for a selection problem these are
the dependencies, the conflicts and the roots (`selectionModel_meets`).
-/

namespace Apg

open Cnf

variable {m m' m'' : SatModel} {p : Ptr} {S : Set Ptr}

/-! ## Variables -/

/-- The invariant of a built model. -/
structure ModelOK (m : SatModel) : Prop where
  chains : m.varBuckets = [] ∨ Chain.OK ptrHash m.varBuckets
  index : ∀ p v, varIndexGet m p = some v ↔ 1 ≤ v ∧ m.vars[v - 1]? = some p
  inRange : m.InRange
  nonempty : ∀ c ∈ m.clauses, c.lits ≠ []

theorem satModelInit_ok : ModelOK satModelInit := by
  refine ⟨Or.inl rfl, ?_, ?_, ?_⟩
  · intro p v; simp [satModelInit, varIndexGet]
  · intro c hc; simp [satModelInit] at hc
  · intro c hc; simp [satModelInit] at hc

/-- The buckets a new variable goes to hold the old ones. -/
theorem varIndexGrow_spec (hm : ModelOK m) :
    Chain.OK ptrHash (varIndexGrow m) ∧ ∀ p, Chain.find ptrHash (varIndexGrow m) p = varIndexGet m p := by
  unfold varIndexGrow
  rcases hm.chains with hnil | hok
  · have hrep : Chain.OK ptrHash (List.replicate 16 ([] : List (Ptr × ℕ))) := Chain.ok_replicate (by omega)
    have hgrow : (if m.varCount + 1 > m.varBuckets.length - m.varBuckets.length / 4 then
        Chain.rehash ptrHash m.varBuckets (if m.varBuckets.length > 0 then m.varBuckets.length * 2 else 16)
        else m.varBuckets) = List.replicate 16 [] := by
      rw [hnil]; simp [Chain.rehash]
    simp only
    rw [hgrow]
    refine ⟨hrep, ?_⟩
    intro p
    have hnone : varIndexGet m p = none := by simp [varIndexGet, hnil]
    rw [hnone, Chain.find_eq_none_iff hrep]
    simp
  · have hpos := hok.pos
    have hget : ∀ p, varIndexGet m p = Chain.find ptrHash m.varBuckets p := by
      intro p; unfold varIndexGet; rw [if_pos hpos]
    simp only
    split
    · have hn : 0 < m.varBuckets.length * 2 := by omega
      exact ⟨Chain.rehash_ok hok hn, fun p => (Chain.find_rehash hok hn p).trans (hget p).symm⟩
    · exact ⟨hok, fun p => (hget p).symm⟩

/-- `v` is the variable of `p`. -/
def IsVar (m : SatModel) (p : Ptr) (v : ℕ) : Prop := 1 ≤ v ∧ m.vars[v - 1]? = some p

theorem IsVar.le {v : ℕ} (h : IsVar m p v) : v ≤ m.varCount := by
  obtain ⟨h1, h2⟩ := h
  have := (List.getElem?_eq_some_iff.1 h2).1
  unfold SatModel.varCount
  omega

theorem IsVar.mono (hpre : m.vars <+: m'.vars) {v : ℕ} (h : IsVar m p v) : IsVar m' p v := by
  obtain ⟨l, hl⟩ := hpre
  have hlt := (List.getElem?_eq_some_iff.1 h.2).1
  exact ⟨h.1, by rw [← hl, List.getElem?_append_left hlt]; exact h.2⟩

theorem isVar_unique (hm : ModelOK m) {v w : ℕ} (hv : IsVar m p v) (hw : IsVar m p w) : v = w := by
  have h1 := (hm.index p v).2 hv
  have h2 := (hm.index p w).2 hw
  rw [h1, Option.some.injEq] at h2
  exact h2

/-- **`sat_model_var` finds or makes the variable of a package.** -/
theorem satModelVar_spec (hm : ModelOK m) (p : Ptr) :
    ModelOK (satModelVar m p).1 ∧ IsVar (satModelVar m p).1 p (satModelVar m p).2 ∧
      m.vars <+: (satModelVar m p).1.vars ∧ (satModelVar m p).1.clauses = m.clauses ∧
      ∀ q ∈ (satModelVar m p).1.vars, q ∈ m.vars ∨ q = p := by
  unfold satModelVar
  cases hget : varIndexGet m p with
  | some v => exact ⟨hm, (hm.index p v).1 hget, List.prefix_rfl, rfl, fun q hq => Or.inl hq⟩
  | none =>
    obtain ⟨hok, hfind⟩ := varIndexGrow_spec hm
    have hvar : (m.vars ++ [p])[m.varCount]? = some p := by simp [SatModel.varCount]
    refine ⟨⟨Or.inr (Chain.push_ok hok ((hfind p).trans hget) _), ?_, ?_, hm.nonempty⟩, ⟨by simp, ?_⟩,
      List.prefix_append _ _, rfl, ?_⟩
    -- the new variable is found for `p`, the old ones as before
    · intro q v
      unfold varIndexGet
      simp only [Chain.length_push, hok.pos, if_true]
      rw [Chain.find_push hok.pos, hfind q, getElem?_concat_iff]
      have hnew : m.vars.length = m.varCount := rfl
      by_cases hqp : q = p
      · subst hqp
        rw [if_pos rfl, Option.some.injEq]
        constructor
        · rintro rfl; exact ⟨by omega, Or.inr ⟨by omega, rfl⟩⟩
        · rintro ⟨h1, h2 | ⟨h2, -⟩⟩
          · have := (hm.index q v).2 ⟨h1, h2⟩
            rw [hget] at this; exact absurd this (by simp)
          · omega
      · rw [if_neg hqp, hm.index q v]
        simp [Ne.symm hqp]
    · intro c hc l hl
      obtain ⟨h1, h2⟩ := hm.inRange c hc l hl
      refine ⟨h1, ?_⟩
      unfold SatModel.varCount at h2 ⊢
      rw [List.length_append]; omega
    · simpa using hvar
    · intro q hq
      rcases List.mem_append.1 hq with hq | hq
      · exact Or.inl hq
      · exact Or.inr (List.mem_singleton.1 hq)

/-! ## What a set of packages makes true -/

/-- The literal is true for `S`. -/
def LitFor (m : SatModel) (S : Set Ptr) (l : ℤ) : Prop :=
  ∃ q, IsVar m q l.natAbs ∧ (0 < l ∧ q ∈ S ∨ l < 0 ∧ q ∉ S)

/-- `S` makes every clause true. -/
def Meets (m : SatModel) (S : Set Ptr) : Prop := ∀ c ∈ m.clauses, ∃ l ∈ c.lits, LitFor m S l

theorem isVar_pkg_unique {q : Ptr} {v : ℕ} (hp : IsVar m p v) (hq : IsVar m q v) : p = q := by
  have h := hp.2.symm.trans hq.2
  rwa [Option.some.injEq] at h

theorem litFor_pos {v : ℕ} (h : IsVar m p v) : LitFor m S (v : ℤ) ↔ p ∈ S := by
  have h1 := h.1
  constructor
  · rintro ⟨q, hq, ⟨-, hS⟩ | ⟨hneg, -⟩⟩
    · rw [isVar_pkg_unique h (by simpa using hq)]; exact hS
    · omega
  · intro hS
    exact ⟨p, by simpa using h, Or.inl ⟨by omega, hS⟩⟩

theorem litFor_neg {v : ℕ} (h : IsVar m p v) : LitFor m S (-(v : ℤ)) ↔ p ∉ S := by
  have h1 := h.1
  constructor
  · rintro ⟨q, hq, ⟨hpos, -⟩ | ⟨-, hS⟩⟩
    · omega
    · rw [isVar_pkg_unique h (by simpa using hq)]; exact hS
  · intro hS
    exact ⟨p, by simpa using h, Or.inr ⟨by omega, hS⟩⟩

/-- New variables do not touch the old ones. -/
theorem isVar_mono_iff (hpre : m.vars <+: m'.vars) {q : Ptr} {v : ℕ} (hle : v ≤ m.varCount) :
    IsVar m' q v ↔ IsVar m q v := by
  constructor
  · intro hq
    have h1 := hq.1
    have hlt : v - 1 < m.vars.length := by unfold SatModel.varCount at hle; omega
    obtain ⟨r, hr⟩ : ∃ r, m.vars[v - 1]? = some r := ⟨_, List.getElem?_eq_getElem hlt⟩
    have hold : IsVar m r v := ⟨h1, hr⟩
    rw [isVar_pkg_unique hq (hold.mono hpre)]; exact hold
  · exact fun hq => hq.mono hpre

/-- New variables do not change what an old literal says. -/
theorem litFor_mono (hpre : m.vars <+: m'.vars) {l : ℤ} (hle : l.natAbs ≤ m.varCount) :
    LitFor m' S l ↔ LitFor m S l := by
  unfold LitFor
  simp only [isVar_mono_iff hpre hle]

theorem meets_mono (hm : ModelOK m) (hpre : m.vars <+: m'.vars) (hcl : m'.clauses = m.clauses) :
    Meets m' S ↔ Meets m S := by
  unfold Meets
  rw [hcl]
  refine forall₂_congr fun c hc => exists_congr fun l => and_congr_right fun hl => ?_
  exact litFor_mono hpre (hm.inRange c hc l hl).2

/-- From `m` to `m'` the condition `P` was added, and variables of `Q` packages. -/
structure Adds (P : Set Ptr → Prop) (Q : Ptr → Prop) (m m' : SatModel) : Prop where
  ok : ModelOK m'
  vars : m.vars <+: m'.vars
  meets : ∀ S, Meets m' S ↔ Meets m S ∧ P S
  new : ∀ q ∈ m'.vars, q ∈ m.vars ∨ Q q

theorem Adds.refl {Q : Ptr → Prop} (hm : ModelOK m) : Adds (fun _ => True) Q m m :=
  ⟨hm, List.prefix_rfl, fun S => by simp, fun q hq => Or.inl hq⟩

theorem Adds.trans {P P' : Set Ptr → Prop} {Q : Ptr → Prop} (h1 : Adds P Q m m') (h2 : Adds P' Q m' m'') :
    Adds (fun S => P S ∧ P' S) Q m m'' := by
  refine ⟨h2.ok, h1.vars.trans h2.vars, ?_, ?_⟩
  · intro S
    rw [h2.meets, h1.meets, and_assoc]
  · intro q hq
    rcases h2.new q hq with hq | hq
    · exact h1.new q hq
    · exact Or.inr hq

theorem Adds.congr {P P' : Set Ptr → Prop} {Q : Ptr → Prop} (h : Adds P Q m m') (hP : ∀ S, P S ↔ P' S) :
    Adds P' Q m m' :=
  ⟨h.ok, h.vars, fun S => (h.meets S).trans (and_congr_right fun _ => hP S), h.new⟩

theorem satModelVar_adds {Q : Ptr → Prop} (hm : ModelOK m) (hp : Q p) :
    Adds (fun _ => True) Q m (satModelVar m p).1 := by
  obtain ⟨h1, -, h3, h4, h5⟩ := satModelVar_spec hm p
  refine ⟨h1, h3, fun S => by rw [meets_mono hm h3 h4]; simp, ?_⟩
  intro q hq
  rcases h5 q hq with hq | rfl
  · exact Or.inl hq
  · exact Or.inr hp

/-- A clause of literals of the model adds that one of them is true. -/
theorem addClause_adds {Q : Ptr → Prop} (hm : ModelOK m) {lits : List ℤ} (hne : lits ≠ [])
    (hlits : ∀ l ∈ lits, l ≠ 0 ∧ l.natAbs ≤ m.varCount) (kind : SatClauseKind) (depName : Option CStr) :
    Adds (fun S => ∃ l ∈ lits, LitFor m S l) Q m (addClause m lits kind depName) := by
  refine ⟨⟨hm.chains, hm.index, ?_, ?_⟩, List.prefix_rfl, ?_, fun q hq => Or.inl hq⟩
  · intro c hc l hl
    rcases List.mem_append.1 hc with hc | hc
    · exact hm.inRange c hc l hl
    · rw [List.mem_singleton.1 hc] at hl; exact hlits l hl
  · intro c hc
    rcases List.mem_append.1 hc with hc | hc
    · exact hm.nonempty c hc
    · rw [List.mem_singleton.1 hc]; exact hne
  · intro S
    have hlit : ∀ l, LitFor (addClause m lits kind depName) S l ↔ LitFor m S l := fun l => Iff.rfl
    unfold Meets
    simp only [hlit]
    constructor
    · intro h
      exact ⟨fun c hc => h c (List.mem_append_left _ hc), h ⟨lits, kind, depName⟩ (List.mem_append_right _ (by simp))⟩
    · rintro ⟨h1, h2⟩ c hc
      rcases List.mem_append.1 hc with hc | hc
      · exact h1 c hc
      · rw [List.mem_singleton.1 hc]; exact h2

/-! ## Candidates -/

/-- The invariant of a candidate set. -/
structure CandidatesOK (cs : CandidateSet) : Prop where
  index : cs.index.OK
  groups : Indexes cs.index (cs.groups.map (·.name))

variable {cs : CandidateSet}

theorem candidateSetInit_ok : CandidatesOK candidateSetInit := ⟨strMapInit_ok, indexes_init⟩

/-- The candidates that answer to a name. -/
def answering (cs : CandidateSet) (name : CStr) : List Ptr := groupItems (candidateSetLookup cs name)

theorem findOrCreateGroup_spec (hcs : CandidatesOK cs) (name : CStr) :
    CandidatesOK (findOrCreateGroup cs name).1 ∧
      strMapGet (findOrCreateGroup cs name).1.index name = some (findOrCreateGroup cs name).2 ∧
      ∀ n, answering (findOrCreateGroup cs name).1 n = answering cs n := by
  unfold findOrCreateGroup
  cases hget : strMapGet cs.index name with
  | some idx => exact ⟨hcs, hget, fun _ => rfl⟩
  | none =>
    have hset : ∀ n, strMapGet (strMapSet cs.index name cs.groups.length) n =
        if n = name then some cs.groups.length else strMapGet cs.index n :=
      fun n => strMapGet_set hcs.index name n _
    refine ⟨⟨strMapSet_ok hcs.index _ _, ?_⟩, by simp [hset], ?_⟩
    · have := indexes_concat hcs.index hcs.groups hget
      simpa using this
    · intro n
      unfold answering candidateSetLookup
      simp only [hset]
      by_cases hn : n = name
      · subst hn
        simp [hget, groupItems]
      · rw [if_neg hn]
        cases hn' : strMapGet cs.index n with
        | none => rfl
        | some i =>
          have hlt : i < cs.groups.length := by
            have := (hcs.groups n i).1 hn'
            simpa using (List.getElem?_eq_some_iff.1 this).1
          simp [List.getElem?_append_left hlt]

theorem candidateSetAdd_spec (hcs : CandidatesOK cs) (name : CStr) (pkg : Ptr) :
    CandidatesOK (candidateSetAdd cs name pkg) ∧
      ∀ n, answering (candidateSetAdd cs name pkg) n = answering cs n ++ if n = name then [pkg] else [] := by
  obtain ⟨hok, hidx, hsame⟩ := findOrCreateGroup_spec hcs name
  unfold candidateSetAdd
  generalize findOrCreateGroup cs name = r at hok hidx hsame ⊢
  obtain ⟨cs', idx⟩ := r
  simp only at hok hidx hsame ⊢
  refine ⟨⟨hok.index, ?_⟩, ?_⟩
  · have hnames := map_modify_eq (f := CandidateGroup.name)
      (u := fun g => { g with items := g.items ++ [pkg] }) (fun _ => rfl) cs'.groups idx
    rw [hnames]; exact hok.groups
  · intro n
    rw [← hsame n]
    unfold answering candidateSetLookup
    by_cases hn : n = name
    · subst hn
      rw [if_pos rfl]
      simp only [hidx, Option.bind_some]
      have hgroup := (hok.groups n idx).1 hidx
      rw [List.getElem?_map, Option.map_eq_some_iff] at hgroup
      obtain ⟨g, hg, -⟩ := hgroup
      simp [groupItems, hg]
    · rw [if_neg hn, List.append_nil]
      cases hget : strMapGet cs'.index n with
      | none => rfl
      | some i =>
        -- another name has another group
        have hi : idx ≠ i := by
          rintro rfl
          have h1 := (hok.groups n idx).1 hget
          have h2 := (hok.groups name idx).1 hidx
          rw [h1, Option.some.injEq] at h2
          exact hn h2
        simp [hi]

theorem candidateSetAddAll_spec {pkg : Ptr} : ∀ (names : List (Option CStr)) {cs cs' : CandidateSet},
    CandidatesOK cs → candidateSetAddAll pkg names cs = some cs' →
    CandidatesOK cs' ∧ ∀ n q, q ∈ answering cs' n ↔ q ∈ answering cs n ∨ q = pkg ∧ some n ∈ names := by
  intro names
  induction names with
  | nil =>
    intro cs cs' hcs h
    simp only [candidateSetAddAll, Option.some.injEq] at h
    subst h
    exact ⟨hcs, by simp⟩
  | cons o names ih =>
    intro cs cs' hcs h
    cases o with
    | none => simp [candidateSetAddAll] at h
    | some name =>
      simp only [candidateSetAddAll] at h
      obtain ⟨hok, hadd⟩ := candidateSetAdd_spec hcs name pkg
      obtain ⟨hok', hmem⟩ := ih hok h
      refine ⟨hok', ?_⟩
      intro n q
      rw [hmem, hadd]
      by_cases hn : n = name
      · subst hn; simp; tauto
      · simp [hn]

variable (mem : Ptr → Metadata)

/-- The package answers to the name. -/
def AnswersTo (mem : Ptr → Metadata) (q : Ptr) (n : CStr) : Prop :=
  (mem q).name = some n ∨ some n ∈ (mem q).provides

theorem candidateSetAddPackages_spec : ∀ (pkgs : List Ptr) {cs cs' : CandidateSet}, CandidatesOK cs →
    candidateSetAddPackages mem pkgs cs = some cs' →
    CandidatesOK cs' ∧ ∀ n q, q ∈ answering cs' n ↔ q ∈ answering cs n ∨ q ∈ pkgs ∧ AnswersTo mem q n := by
  intro pkgs
  induction pkgs with
  | nil =>
    intro cs cs' hcs h
    simp only [candidateSetAddPackages, Option.some.injEq] at h
    subst h
    exact ⟨hcs, by simp⟩
  | cons pkg pkgs ih =>
    intro cs cs' hcs h
    simp only [candidateSetAddPackages] at h
    split at h
    · exact absurd h (by simp)
    · rename_i cs₁ h1
      obtain ⟨hok, hmem⟩ := candidateSetAddAll_spec _ hcs h1
      obtain ⟨hok', hmem'⟩ := ih hok h
      refine ⟨hok', ?_⟩
      intro n q
      have hname : some n ∈ (mem pkg).name :: (mem pkg).provides ↔ AnswersTo mem pkg n := by
        unfold AnswersTo; rw [List.mem_cons, eq_comm]
      rw [hmem', hmem, hname, List.mem_cons]
      constructor
      · rintro ((h | ⟨rfl, h⟩) | ⟨h, h'⟩)
        · exact Or.inl h
        · exact Or.inr ⟨Or.inl rfl, h⟩
        · exact Or.inr ⟨Or.inr h, h'⟩
      · rintro (h | ⟨rfl | h, h'⟩)
        · exact Or.inl (Or.inl h)
        · exact Or.inl (Or.inr ⟨rfl, h'⟩)
        · exact Or.inr ⟨h, h'⟩

/-! ## Clauses -/

/-- The dependency accepts the version of the candidate. -/
def Accepted (mem : Ptr → Metadata) (dep : DepConstraint) (q : Ptr) : Prop :=
  verSatisfies (mem q).version dep.op dep.version = true

theorem accepted_iff (dep : DepConstraint) (q : Ptr) :
    ¬(dep.op ≠ .any ∧ verSatisfies (mem q).version dep.op dep.version = false) ↔ Accepted mem dep q := by
  unfold Accepted
  by_cases hop : dep.op = .any
  · simp [hop, verSatisfies]
  · simp [hop]

/-- The literals are those of variables of the model. -/
def LitsIn (m : SatModel) (lits : List ℤ) : Prop := ∀ l ∈ lits, l ≠ 0 ∧ l.natAbs ≤ m.varCount

theorem LitsIn.mono {lits : List ℤ} (hpre : m.vars <+: m'.vars) (h : LitsIn m lits) : LitsIn m' lits := by
  intro l hl
  obtain ⟨h1, h2⟩ := h l hl
  have := hpre.length_le
  unfold SatModel.varCount at h2 ⊢
  exact ⟨h1, by omega⟩

theorem isVar_litsIn {v : ℕ} (h : IsVar m p v) : LitsIn m [(v : ℤ)] ∧ LitsIn m [-(v : ℤ)] := by
  have h1 := h.1
  have h2 := h.le
  constructor
  · intro l hl; rw [List.mem_singleton.1 hl]; omega
  · intro l hl; rw [List.mem_singleton.1 hl]; omega

variable {Q : Ptr → Prop} {mem}

/-- **The literals of a dependency**: those it started with, and one for every
candidate it accepts. -/
theorem candLits_spec (dep : DepConstraint) : ∀ (items : List Ptr) (m : SatModel) (lits : List ℤ),
    (∀ q ∈ items, Q q) → ModelOK m → LitsIn m lits → lits ≠ [] →
    Adds (fun _ => True) Q m (candLits mem dep items (m, lits)).1 ∧
      LitsIn (candLits mem dep items (m, lits)).1 (candLits mem dep items (m, lits)).2 ∧
      (candLits mem dep items (m, lits)).2 ≠ [] ∧
      ∀ S, (∃ l ∈ (candLits mem dep items (m, lits)).2, LitFor (candLits mem dep items (m, lits)).1 S l) ↔
        (∃ l ∈ lits, LitFor m S l) ∨ ∃ q ∈ items, Accepted mem dep q ∧ q ∈ S := by
  intro items
  induction items with
  | nil => intro m lits _ hm hin hne; exact ⟨Adds.refl hm, hin, hne, by simp [candLits]⟩
  | cons cand items ih =>
    intro m lits hQ hm hin hne
    have hQ' : ∀ q ∈ items, Q q := fun q hq => hQ q (List.mem_cons_of_mem _ hq)
    simp only [candLits]
    split
    -- a candidate that is not accepted adds no literal
    · rename_i hskip
      have hacc : ¬Accepted mem dep cand := fun h => (accepted_iff mem dep cand).2 h hskip
      obtain ⟨k1, k2, k3, k4⟩ := ih m lits hQ' hm hin hne
      refine ⟨k1, k2, k3, ?_⟩
      intro S
      rw [k4 S]
      simp [hacc]
    · rename_i hkeep
      have hacc : Accepted mem dep cand := (accepted_iff mem dep cand).1 hkeep
      have hadd : Adds (fun _ => True) Q m (satModelVar m cand).1 := satModelVar_adds hm (hQ cand List.mem_cons_self)
      obtain ⟨hok, hvar, hpre, -, -⟩ := satModelVar_spec hm cand
      generalize satModelVar m cand = r at hadd hok hvar hpre ⊢
      obtain ⟨m₁, v⟩ := r
      simp only at hadd hok hvar hpre ⊢
      have hin₁ : LitsIn m₁ (lits ++ [(v : ℤ)]) := by
        intro l hl
        rcases List.mem_append.1 hl with hl | hl
        · exact hin.mono hpre l hl
        · exact (isVar_litsIn hvar).1 l hl
      obtain ⟨k1, k2, k3, k4⟩ := ih m₁ (lits ++ [(v : ℤ)]) hQ' hok hin₁ (by simp)
      refine ⟨(hadd.trans k1).congr (by simp), k2, k3, ?_⟩
      intro S
      rw [k4 S]
      -- an old literal means the same in the longer model
      have hold : (∃ l ∈ lits ++ [(v : ℤ)], LitFor m₁ S l) ↔ (∃ l ∈ lits, LitFor m S l) ∨ cand ∈ S := by
        simp only [List.mem_append, List.mem_singleton, or_and_right, exists_or, exists_eq_left, litFor_pos hvar]
        refine or_congr_left (exists_congr fun l => and_congr_right fun hl => ?_)
        exact litFor_mono hpre (hin l hl).2
      rw [hold]
      simp only [List.mem_cons, exists_eq_or_imp, hacc, true_and]
      exact or_assoc

/-- A dependency of `S` is met by a candidate of `S`. -/
def DepMet (mem : Ptr → Metadata) (cs : CandidateSet) (S : Set Ptr) (dep : DepConstraint) : Prop :=
  ∃ n, dep.name = some n ∧ ∃ q ∈ answering cs n, Accepted mem dep q ∧ q ∈ S

theorem addDependencyLoop_spec (hQ : ∀ n, ∀ q ∈ answering cs n, Q q) {v : ℕ} : ∀ (deps : List DepConstraint)
    {m m' : SatModel}, ModelOK m → IsVar m p v → addDependencyLoop mem cs v deps m = some m' →
    Adds (fun S => p ∈ S → ∀ dep ∈ deps, DepMet mem cs S dep) Q m m' := by
  intro deps
  induction deps with
  | nil =>
    intro m m' hm _ h
    simp only [addDependencyLoop, Option.some.injEq] at h
    subst h
    exact (Adds.refl hm).congr (by simp)
  | cons dep deps ih =>
    intro m m' hm hv h
    simp only [addDependencyLoop] at h
    cases hname : dep.name with
    | none => simp [hname] at h
    | some n =>
      simp only [hname] at h
      obtain ⟨k1, k2, k3, k4⟩ := candLits_spec dep (answering cs n) m [-(v : ℤ)] (hQ n) hm
        (isVar_litsIn hv).2 (by simp)
      unfold answering at k1 k2 k3 k4
      generalize candLits mem dep (groupItems (candidateSetLookup cs n)) (m, [-(v : ℤ)]) = r at h k1 k2 k3 k4
      obtain ⟨m₁, lits⟩ := r
      simp only at h k1 k2 k3 k4
      have hclause := addClause_adds (Q := Q) k1.ok k3 k2 .dependency (some n)
      have hrest := ih hclause.ok (hv.mono (k1.vars.trans hclause.vars)) h
      refine ((k1.trans hclause).trans hrest).congr ?_
      intro S
      -- the clause reads: `p` is not selected, or the dependency is met
      have hdep : (∃ l ∈ lits, LitFor m₁ S l) ↔ (p ∈ S → DepMet mem cs S dep) := by
        rw [k4 S]
        simp only [List.mem_singleton, exists_eq_left, litFor_neg hv]
        constructor
        · rintro (h | h) hp
          · exact absurd hp h
          · exact ⟨n, hname, h⟩
        · intro h
          by_cases hp : p ∈ S
          · obtain ⟨n', hn', hq⟩ := h hp
            rw [hname, Option.some.injEq] at hn'
            subst hn'
            exact Or.inr hq
          · exact Or.inl hp
      rw [hdep]
      simp only [true_and, List.mem_cons, forall_eq_or_imp]
      tauto

theorem conflictLoop_spec {v : ℕ} : ∀ (items : List Ptr) {m : SatModel}, (∀ q ∈ items, Q q) → ModelOK m →
    IsVar m p v → Adds (fun S => p ∈ S → ∀ q ∈ items, q ≠ p → q ∉ S) Q m (conflictLoop p v items m) := by
  intro items
  induction items with
  | nil => intro m _ hm _; exact (Adds.refl hm).congr (by simp)
  | cons other items ih =>
    intro m hQ hm hv
    have hQ' : ∀ q ∈ items, Q q := fun q hq => hQ q (List.mem_cons_of_mem _ hq)
    simp only [conflictLoop]
    split
    · rename_i heq
      refine (ih hQ' hm hv).congr ?_
      intro S
      simp [heq]
    · rename_i hne
      have hadd : Adds (fun _ => True) Q m (satModelVar m other).1 := satModelVar_adds hm (hQ other List.mem_cons_self)
      obtain ⟨-, hvar, hpre, -, -⟩ := satModelVar_spec hm other
      generalize satModelVar m other = r at hadd hvar hpre ⊢
      obtain ⟨m₁, w⟩ := r
      simp only at hadd hvar hpre ⊢
      have hv₁ := hv.mono hpre
      -- the clause forbids the two packages together
      have hin : LitsIn m₁ [-(v : ℤ), -(w : ℤ)] := by
        intro l hl
        rcases List.mem_cons.1 hl with rfl | hl
        · exact (isVar_litsIn hv₁).2 _ (by simp)
        · exact (isVar_litsIn hvar).2 l hl
      have hclause := addClause_adds (Q := Q) hadd.ok (by simp) hin .conflict none
      have hrest := ih hQ' hclause.ok (hv₁.mono hclause.vars)
      refine ((hadd.trans hclause).trans hrest).congr ?_
      intro S
      simp only [true_and, List.mem_cons, List.not_mem_nil, or_false, exists_eq_or_imp, exists_eq_left,
        litFor_neg hv₁, litFor_neg hvar, forall_eq_or_imp]
      tauto

theorem addConflictLoop_spec (hQ : ∀ n, ∀ q ∈ answering cs n, Q q) {v : ℕ} : ∀ (names : List (Option CStr))
    {m : SatModel}, ModelOK m → IsVar m p v →
    Adds (fun S => p ∈ S → ∀ n, some n ∈ names → ∀ q ∈ answering cs n, q ≠ p → q ∉ S) Q m
      (addConflictLoop cs p v names m) := by
  intro names
  induction names with
  | nil => intro m hm _; exact (Adds.refl hm).congr (by simp)
  | cons o names ih =>
    intro m hm hv
    cases o with
    | none =>
      refine (ih hm hv).congr ?_
      intro S
      simp
    | some n =>
      have hgroup := conflictLoop_spec (answering cs n) (hQ n) hm hv
      have hrest := ih hgroup.ok (hv.mono hgroup.vars)
      refine (hgroup.trans hrest).congr ?_
      intro S
      simp only [List.mem_cons, Option.some.injEq]
      constructor
      · rintro ⟨h1, h2⟩ hp n' (rfl | hn')
        · exact h1 hp
        · exact h2 hp n' hn'
      · intro h
        exact ⟨fun hp => h hp n (Or.inl rfl), fun hp n' hn' => h hp n' (Or.inr hn')⟩

/-- What a package of the selection asks for. -/
structure PkgMet (mem : Ptr → Metadata) (cs : CandidateSet) (S : Set Ptr) (p : Ptr) : Prop where
  deps : ∀ dep ∈ (mem p).dependencies, DepMet mem cs S dep
  conflicts : ∀ n, some n ∈ (mem p).conflicts → ∀ q ∈ answering cs n, q ≠ p → q ∉ S

/-- **The clauses of the candidates.** -/
theorem satModelBuild_spec (hQ : ∀ n, ∀ q ∈ answering cs n, Q q) : ∀ (pkgs : List Ptr) {m m' : SatModel},
    (∀ q ∈ pkgs, Q q) → ModelOK m → satModelBuild mem cs pkgs m = some m' →
    Adds (fun S => ∀ p ∈ pkgs, p ∈ S → PkgMet mem cs S p) Q m m' := by
  intro pkgs
  induction pkgs with
  | nil =>
    intro m m' _ hm h
    simp only [satModelBuild, Option.some.injEq] at h
    subst h
    exact (Adds.refl hm).congr (by simp)
  | cons p pkgs ih =>
    intro m m' hQp hm h
    simp only [satModelBuild] at h
    split at h
    · exact absurd h (by simp)
    · rename_i m₁ hdeps
      have hp : Q p := hQp p List.mem_cons_self
      obtain ⟨hok, hvar, -, -, -⟩ := satModelVar_spec hm p
      have h1 := (satModelVar_adds hm hp).trans (addDependencyLoop_spec hQ _ hok hvar hdeps)
      obtain ⟨hok₁, hvar₁, -, -, -⟩ := satModelVar_spec h1.ok p
      have h2 := (satModelVar_adds h1.ok hp).trans (addConflictLoop_spec hQ (mem p).conflicts hok₁ hvar₁)
      have h3 := ih (fun q hq => hQp q (List.mem_cons_of_mem _ hq)) h2.ok h
      refine ((h1.trans h2).trans h3).congr ?_
      intro S
      simp only [true_and, List.mem_cons, forall_eq_or_imp]
      refine and_congr_left fun _ => ?_
      exact ⟨fun h hS => ⟨h.1 hS, h.2 hS⟩, fun h => ⟨fun hS => (h hS).deps, fun hS => (h hS).conflicts⟩⟩

theorem satModelForce_spec (hm : ModelOK m) (hp : Q p) : Adds (fun S => p ∈ S) Q m (satModelForce m p) := by
  have hadd : Adds (fun _ => True) Q m (satModelVar m p).1 := satModelVar_adds hm hp
  obtain ⟨-, hvar, -, -, -⟩ := satModelVar_spec hm p
  unfold satModelForce
  generalize satModelVar m p = r at hadd hvar ⊢
  obtain ⟨m₁, v⟩ := r
  simp only at hadd hvar ⊢
  have hclause := addClause_adds (Q := Q) hadd.ok (by simp) (isVar_litsIn hvar).1 .forced none
  refine (hadd.trans hclause).congr ?_
  intro S
  simp [litFor_pos hvar]

theorem satModelForce_all : ∀ (roots : List Ptr) {m : SatModel}, (∀ r ∈ roots, Q r) → ModelOK m →
    Adds (fun S => ∀ r ∈ roots, r ∈ S) Q m (roots.foldl satModelForce m) := by
  intro roots
  induction roots with
  | nil => intro m _ hm; exact (Adds.refl hm).congr (by simp)
  | cons r roots ih =>
    intro m hQ hm
    have h1 := satModelForce_spec hm (hQ r List.mem_cons_self)
    have h2 := ih (fun q hq => hQ q (List.mem_cons_of_mem _ hq)) h1.ok
    exact (h1.trans h2).congr (by simp)

end Apg
