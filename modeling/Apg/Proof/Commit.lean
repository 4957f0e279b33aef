import Apg.Proof.Prepare
import Apg.Spec.Commit

/-!
# `trans_commit` and the package records

What a step does to the records is said once (`commitStep_cases`); from it follows
what the records are after the steps before a failure, and the rollback takes back
the first change of each name.

* `transCommit_atomic_iff`: **when a failed commit leaves the records as they
  were.**
-/

namespace Apg

variable {out : Outside} {t : ApgTrans} {i : ℕ} {step : TransStep} {st st' : CommitState} {p : Ptr}

@[simp] theorem journal_unrestored (w : World) (op : JournalOp) (s : TransStep) (ok e : Bool) :
    (w.journal op s ok e).unrestored = w.unrestored := rfl

@[simp] theorem journal_main (w : World) (op : JournalOp) (s : TransStep) (ok e : Bool) :
    (w.journal op s ok e).db.main = w.db.main := (journalWrite_tables _ _).main

/-! ## What does not touch the records -/

/-- Only package objects and the journal have changed, and no metadata. -/
structure SameRecords (w w' : World) : Prop where
  tables : SameTables w.db w'.db
  metadata : ∀ q, (w'.mem q).metadata = (w.mem q).metadata

theorem SameRecords.refl (w : World) : SameRecords w w := ⟨SameTables.refl _, fun _ => rfl⟩

theorem SameRecords.trans {w w' w'' : World} (h1 : SameRecords w w') (h2 : SameRecords w' w'') : SameRecords w w'' :=
  ⟨h1.tables.trans h2.tables, fun q => (h2.metadata q).trans (h1.metadata q)⟩

theorem journal_sameRecords (w : World) (op : JournalOp) (step : TransStep) (ok explicitOp : Bool) :
    SameRecords w (w.journal op step ok explicitOp) := ⟨journalWrite_tables _ _, fun _ => rfl⟩

/-- A change of an object that keeps its metadata. -/
theorem update_sameRecords (w : World) (p : Ptr) (pkg : Package) (h : pkg.metadata = (w.mem p).metadata) :
    SameRecords w { w with mem := Function.update w.mem p pkg } := by
  refine ⟨SameTables.refl _, ?_⟩
  intro q
  by_cases hq : q = p
  · subst hq; simpa using h
  · simp [hq]

theorem installPackageInRoot_sameRecords (run : InstallRun) (w : World) (p : Ptr) :
    SameRecords w (installPackageInRoot run w p).2 := by
  unfold installPackageInRoot
  cases hfiles : run.files with
  | none => cases run.stage <;> exact SameRecords.refl w
  | some files =>
    -- the list of the object becomes that of the data
    have hcollected := update_sameRecords w p { w.mem p with packageFiles := files.map some } rfl
    cases run.stage with
    | unpack => exact SameRecords.refl w
    | copy => exact SameRecords.refl w
    | postInstall => exact hcollected
    | done => exact hcollected

/-! ## Steps -/

/-- What was there before an upgrade; an install has nothing to go back to. -/
def previousOf (st : CommitState) (step : TransStep) : Option Package :=
  if step.op = .install then none else dbGet st.world.db step.pkgName

/-- No metadata has changed, and the records are still records of their names. -/
structure Keeps (w w' : World) : Prop where
  metadata : ∀ q, (w'.mem q).metadata = (w.mem q).metadata
  records : RecordsOK w.db → RecordsOK w'.db

theorem SameRecords.keeps {w w' : World} (h : SameRecords w w') : Keeps w w' :=
  ⟨h.metadata, fun hr => recordsFrom_congr hr h.tables⟩

theorem Keeps.trans {w w' w'' : World} (h1 : Keeps w w') (h2 : Keeps w' w'') : Keeps w w'' :=
  ⟨fun q => (h2.metadata q).trans (h1.metadata q), fun hr => h2.records (h1.records hr)⟩

/-- The step has put a package of its name in the records. -/
structure Recorded (i : ℕ) (step : TransStep) (st st' : CommitState) : Prop where
  keeps : Keeps st.world st'.world
  op : step.op ≠ .remove
  committed : st'.committed = st.committed ++ [⟨i, step, previousOf st step⟩]
  main : ∃ pkg : Package, pkg.metadata.name = some step.pkgName ∧
    st'.world.db.main = st.world.db.main.put step.pkgName (packageToJson pkg)

/-- The step has taken its package out of the records. -/
structure Removed (step : TransStep) (st st' : CommitState) : Prop where
  keeps : Keeps st.world st'.world
  op : step.op = .remove
  committed : st'.committed = st.committed
  main : st'.world.db.main = st.world.db.main.del step.pkgName

/-- The step has failed, and the records are as before it. It is undone too if it
got as far as to write its record, or if it is an upgrade that got as far as to
lay down its files. -/
structure Failed (i : ℕ) (step : TransStep) (st : CommitState) (err : TransError) (st' : CommitState) : Prop where
  keeps : Keeps st.world st'.world
  main : st'.world.db.main = st.world.db.main
  committed : (st'.committed = st.committed ∧ (step.op = .install → err ≠ .db)) ∨
    (step.op ≠ .remove ∧ st'.committed = st.committed ++ [⟨i, step, previousOf st step⟩] ∧
      (step.op = .install → err = .db))

/-- The state a step ends in. -/
def StepEnd.state : StepEnd → CommitState
  | .done st => st
  | .failed _ st => st

/-- A step that fails with the code is undone too: a package that could not be
recorded, and an upgrade that got as far as to lay down its files. -/
def undoneToo (out : Outside) (i : ℕ) (step : TransStep) (had : Bool) (err : TransError) : Bool :=
  (step.op = .install && err = .db) ||
    (step.op = .upgrade && (err = .db || err = .installFailed && (!had || out.backup i)))

/-- What a step can do. -/
def StepSpec (i : ℕ) (step : TransStep) (st : CommitState) : StepEnd → Prop
  | .done st' => Recorded i step st st' ∨ Removed step st st'
  | .failed err st' => Failed i step st err st'

theorem recordPkg_cases {previous : Option Package} {r : StepEnd} {st₀ : CommitState}
    (h : recordPkg out i step p previous st = some r) (hop : step.op ≠ .remove)
    (hname : (st₀.world.mem p).metadata.name = some step.pkgName) (hsame : SameRecords st₀.world st.world)
    (hcom : st.committed = st₀.committed) (hprev : previous = previousOf st₀ step) : StepSpec i step st₀ r := by
  unfold recordPkg at h
  simp only [Function.update_self] at h
  obtain ⟨⟨ok, db'⟩, hadd, rfl⟩ := Option.map_eq_some_iff.1 h
  have hmetadata : (st.world.mem p).metadata.name = some step.pkgName := (hsame.metadata p) ▸ hname
  -- the object has its flag set, the database its record
  have hkeeps : ∀ ok, Keeps st₀.world (World.journal { st.world with
      mem := Function.update st.world.mem p { st.world.mem p with installedByHand := step.explicitOp }
      db := db' } .install step ok step.explicitOp) := by
    intro ok
    refine hsame.keeps.trans (Keeps.trans ⟨?_, ?_⟩ (journal_sameRecords _ _ _ _ _).keeps)
    · exact (update_sameRecords st.world p { st.world.mem p with installedByHand := step.explicitOp } rfl).metadata
    · intro hr
      exact dbAdd_recordsFrom hr trivial hadd
  have hmain : ∀ ok, (World.journal { st.world with
      mem := Function.update st.world.mem p { st.world.mem p with installedByHand := step.explicitOp }
      db := db' } .install step ok step.explicitOp).db.main = db'.main :=
    fun ok => (journalWrite_tables db' _).main
  obtain ⟨rfl, name, db₁, hn, htxn, hs⟩ | ⟨rfl, hs⟩ := dbAdd_cases hadd
  · have hname' : step.pkgName = name := Option.some.inj (hmetadata.symm.trans hn)
    refine Or.inl ⟨hkeeps true, hop, by simp [hcom, hprev],
      { st.world.mem p with installedByHand := step.explicitOp }, hmetadata, (hmain true).trans ?_⟩
    rw [hs.main, (addTxn_spec htxn).main, hname', ← hsame.tables.main]
  · refine ⟨hkeeps false, (hmain false).trans ?_, Or.inr ⟨hop, by simp [hcom, hprev], fun _ => rfl⟩⟩
    rw [hs.main, ← hsame.tables.main]

/-- A failure before the record is written. -/
theorem failInstall_cases {err : TransError} {st₀ : CommitState} (hdry : t.dryRun = false) (herr : err ≠ .db)
    (hop : step.op ≠ .remove) (hsame : SameRecords st₀.world st.world)
    (hcom : st.committed = st₀.committed ∨
      step.op = .upgrade ∧ st.committed = st₀.committed ++ [⟨i, step, previousOf st₀ step⟩]) :
    StepSpec i step st₀ (failInstall t step err st) := by
  unfold failInstall
  rw [if_neg (by simp [hdry])]
  have hj := hsame.trans (journal_sameRecords st.world .install step false step.explicitOp)
  rcases hcom with hcom | ⟨hup, hcom⟩
  · exact ⟨hj.keeps, hj.tables.main, Or.inl ⟨hcom, fun _ => herr⟩⟩
  · exact ⟨hj.keeps, hj.tables.main, Or.inr ⟨hop, hcom, fun hins => absurd (hup.symm.trans hins) (by simp)⟩⟩

theorem commitInstall_cases {r : StepEnd} (hdry : t.dryRun = false) (hop : step.op = .install)
    (hname : (st.world.mem p).metadata.name = some step.pkgName)
    (h : commitInstall out t i step p st = some r) : StepSpec i step st r := by
  have hne : step.op ≠ .remove := by simp [hop]
  have hinst := installPackageInRoot_sameRecords (out.install i) st.world p
  unfold commitInstall at h
  split at h
  · rw [Option.some.injEq] at h
    rw [← h]
    exact failInstall_cases hdry (by simp) hne (SameRecords.refl _) (Or.inl rfl)
  rw [if_neg (by simp [hdry])] at h
  simp only at h
  split at h
  · rw [Option.some.injEq] at h
    rw [← h]
    exact failInstall_cases hdry (by simp) hne hinst (Or.inl rfl)
  · exact recordPkg_cases h hne hname hinst rfl (by simp [previousOf, hop])

theorem commitUpgrade_cases {r : StepEnd} (hdry : t.dryRun = false) (hop : step.op = .upgrade)
    (hname : (st.world.mem p).metadata.name = some step.pkgName)
    (h : commitUpgrade out t i step p st = some r) : StepSpec i step st r := by
  have hne : step.op ≠ .remove := by simp [hop]
  have hprev : dbGet st.world.db step.pkgName = previousOf st step := by simp [previousOf, hop]
  have hinst := installPackageInRoot_sameRecords (out.install i) st.world p
  unfold commitUpgrade at h
  split at h
  · rw [Option.some.injEq] at h
    rw [← h]
    exact failInstall_cases hdry (by simp) hne (SameRecords.refl _) (Or.inl rfl)
  rw [if_neg (by simp [hdry])] at h
  simp only at h
  split at h
  · rw [Option.some.injEq] at h
    rw [← h]
    exact failInstall_cases hdry (by simp) hne (SameRecords.refl _) (Or.inl rfl)
  split at h
  · rw [Option.some.injEq] at h
    rw [← h]
    exact failInstall_cases hdry (by simp) hne hinst (Or.inr ⟨hop, by rw [hprev]⟩)
  · exact recordPkg_cases h hne hname hinst rfl hprev

theorem commitRemove_cases (hdry : t.dryRun = false) (hop : step.op = .remove) :
    StepSpec i step st (commitRemove out t i step st) := by
  unfold commitRemove
  rw [if_neg (by simp [hdry])]
  simp only
  generalize hr : (if out.preRemove i then dbRemove (out.removeIo i) st.world.db step.pkgName
    else (false, st.world.db)) = r
  obtain ⟨ok, db⟩ := r
  -- what becomes of the records
  have hdb : (RecordsOK st.world.db → RecordsOK db) ∧ (ok = true ∧ db.main = st.world.db.main.del step.pkgName ∨
      ok = false ∧ db.main = st.world.db.main) := by
    split at hr
    · obtain ⟨hok, db₁, htxn, hs⟩ | ⟨hok, hs⟩ := dbRemove_cases (out.removeIo i) st.world.db step.pkgName
      all_goals rw [hr] at hok hs
      · refine ⟨fun h => ?_, Or.inl ⟨hok, hs.main.trans htxn.main⟩⟩
        have := dbRemove_recordsFrom h (out.removeIo i) step.pkgName
        rw [hr] at this; exact this
      · exact ⟨fun h => recordsFrom_congr h hs, Or.inr ⟨hok, hs.main⟩⟩
    · rw [Prod.mk.injEq] at hr
      obtain ⟨rfl, rfl⟩ := hr
      exact ⟨id, Or.inr ⟨rfl, rfl⟩⟩
  obtain ⟨hrec, ⟨rfl, hmain⟩ | ⟨rfl, hmain⟩⟩ := hdb
  · refine Or.inr ⟨⟨fun _ => rfl, fun h => ?_⟩, hop, rfl, ?_⟩
    · exact recordsFrom_congr (hrec h) (journalWrite_tables db _)
    · exact ((journalWrite_tables db _).main).trans hmain
  · refine ⟨⟨fun _ => rfl, fun h => ?_⟩, ?_, Or.inl ⟨rfl, fun hins => absurd (hop.symm.trans hins) (by simp)⟩⟩
    · exact recordsFrom_congr (hrec h) (journalWrite_tables db _)
    · exact ((journalWrite_tables db _).main).trans hmain

/-- **What a step can do.** -/
theorem commitStep_cases {r : StepEnd} (hdry : t.dryRun = false)
    (hpkg : step.op ≠ .remove → ∃ p, step.pkg = some p ∧ (st.world.mem p).metadata.name = some step.pkgName)
    (h : commitStep out t i step st = some r) : StepSpec i step st r := by
  unfold commitStep at h
  split at h
  · rename_i p hop hp
    obtain ⟨q, hq, hname⟩ := hpkg (by simp [hop])
    rw [hp, Option.some.injEq] at hq
    exact commitInstall_cases hdry hop (hq ▸ hname) h
  · rename_i p hop hp
    obtain ⟨q, hq, hname⟩ := hpkg (by simp [hop])
    rw [hp, Option.some.injEq] at hq
    exact commitUpgrade_cases hdry hop (hq ▸ hname) h
  · rename_i hop
    rw [Option.some.injEq] at h
    rw [← h]
    exact commitRemove_cases hdry hop
  · exact absurd h (by simp)

/-! ## The steps before a failure -/

/-- What is known after the steps `done`, from the records `db` on: the steps that
put packages in the records are all to be undone, in their order; a name none of
them is about has only been removed, if at all; and the first of them about a name
goes back to the record the name had, or is an install. -/
structure RunInv (mem : Heap) (db : Db) (done : List TransStep) (st : CommitState) : Prop where
  metadata : ∀ q, (st.world.mem q).metadata = (mem q).metadata
  records : RecordsOK st.world.db
  steps : st.committed.map (·.step) = done.filter fun s => s.op ≠ .remove
  pkgs : ∀ c ∈ st.committed, ∃ p, c.step.pkg = some p
  names : ∀ c ∈ st.committed, ∀ previous, c.previous = some previous →
    previous.metadata.name = some c.step.pkgName
  untouched : ∀ n, (∀ c ∈ st.committed, c.step.pkgName ≠ n) →
    st.world.db.main.get n = if ∃ r ∈ done, r.op = .remove ∧ r.pkgName = n then none else db.main.get n
  first : ∀ n c, st.committed.find? (fun c => c.step.pkgName = n) = some c →
    (c.step.op = .install ∧ c.previous = none) ∨
      (c.step.op ≠ .install ∧ c.previous.map packageToJson = db.main.get n)

/-- A record is read back as the record it is. -/
theorem dbGet_map_toJson {db db' : Db} (h : RecordsFrom (fun pkg => pkg.metadata.Parsed) db) {n : CStr}
    (hmain : db'.main.get n = db.main.get n) : (dbGet db' n).map packageToJson = db.main.get n := by
  unfold dbGet
  rw [hmain]
  cases hj : db.main.get n with
  | none => rfl
  | some j =>
    obtain ⟨p, hname, hparsed, rfl⟩ := h n j hj
    obtain ⟨q, hq, -, hread⟩ := readRecord_toJson hname db'
    rw [packageFromJson_toJson hparsed, Option.some.injEq] at hq
    rw [Option.bind_some, hread, Option.map_some, ← hq]
    exact congrArg some (packageToJson_written p)

theorem dbGet_name {db : Db} (h : RecordsOK db) {n : CStr} {p : Package} (hp : dbGet db n = some p) :
    p.metadata.name = some n := by
  obtain ⟨j, hj, hread⟩ := Option.bind_eq_some_iff.1 hp
  obtain ⟨q, hq, hqn⟩ := readRecord_name h hj
  rw [hread, Option.some.injEq] at hq
  rw [hq]; exact hqn

section

variable {mem : Heap} {db : Db} {done : List TransStep}

/-- Removals come last: before a step that is none, nothing has been removed. -/
theorem no_removal_before (hranked : (done ++ [step]).Pairwise fun a b => a.op.rank ≤ b.op.rank)
    (hop : step.op ≠ .remove) : ∀ r ∈ done, r.op ≠ .remove := by
  intro r hr hrop
  have hle := (List.pairwise_append.1 hranked).2.2 r hr step (List.mem_singleton_self _)
  rw [hrop] at hle
  cases hs : step.op with
  | install => rw [hs] at hle; exact absurd hle (by decide)
  | upgrade => rw [hs] at hle; exact absurd hle (by decide)
  | remove => exact hop hs

/-- No step to be undone is about a name that is not found among them. -/
theorem committed_ne {committed : List Committed} {n : CStr}
    (h : committed.find? (fun c => c.step.pkgName = n) = none) : ∀ c ∈ committed, c.step.pkgName ≠ n := by
  intro c hc heq
  exact List.find?_eq_none.1 h c hc (by simpa using heq)

/-- A step about a package that joins those to be undone. -/
theorem RunInv.push (hrec : RecordsFrom (fun pkg => pkg.metadata.Parsed) db) (h : RunInv mem db done st)
    (hranked : (done ++ [step]).Pairwise fun a b => a.op.rank ≤ b.op.rank) (hop : step.op ≠ .remove)
    (hpkg : ∃ p, step.pkg = some p) (hk : Keeps st.world st'.world)
    (hcom : st'.committed = st.committed ++ [⟨i, step, previousOf st step⟩])
    (hmain : ∀ n, n ≠ step.pkgName → st'.world.db.main.get n = st.world.db.main.get n) :
    RunInv mem db (done ++ [step]) st' := by
  have hnone := no_removal_before hranked hop
  -- a name no step was about has the record it started with
  have hold : ∀ n, (∀ c ∈ st.committed, c.step.pkgName ≠ n) → st.world.db.main.get n = db.main.get n := by
    intro n hn
    rw [h.untouched n hn, if_neg]
    rintro ⟨r, hr, hrop, -⟩
    exact hnone r hr hrop
  refine ⟨?_, hk.records h.records, ?_, ?_, ?_, ?_, ?_⟩
  · intro q
    rw [hk.metadata, h.metadata]
  · rw [hcom, List.map_append, h.steps, List.filter_append]
    simp [hop]
  · intro c hc
    rw [hcom, List.mem_append, List.mem_singleton] at hc
    rcases hc with hc | rfl
    · exact h.pkgs c hc
    · exact hpkg
  · intro c hc previous hprev
    rw [hcom, List.mem_append, List.mem_singleton] at hc
    rcases hc with hc | rfl
    · exact h.names c hc previous hprev
    · unfold previousOf at hprev
      simp only at hprev
      split at hprev
      · exact absurd hprev (by simp)
      · exact dbGet_name h.records hprev
  · intro n hn
    have hn' : n ≠ step.pkgName := by
      intro heq
      exact hn ⟨i, step, previousOf st step⟩ (by rw [hcom]; simp) heq.symm
    have hearlier : ∀ c ∈ st.committed, c.step.pkgName ≠ n := fun c hc => hn c (by rw [hcom]; simp [hc])
    rw [hmain n hn', hold n hearlier, if_neg]
    rintro ⟨r, hr, hrop, -⟩
    rcases List.mem_append.1 hr with hr | hr
    · exact hnone r hr hrop
    · rw [List.mem_singleton.1 hr] at hrop
      exact hop hrop
  · intro n c hc
    rw [hcom, List.find?_append] at hc
    rcases Option.or_eq_some_iff.1 hc with hc | ⟨hnotyet, hc⟩
    · exact h.first n c hc
    · -- the first step about the name
      simp only [List.find?_cons, List.find?_nil] at hc
      split at hc
      · rename_i hname
        simp only [Option.some.injEq] at hc
        subst hc
        by_cases hins : step.op = .install
        · exact Or.inl ⟨hins, by simp [previousOf, hins]⟩
        · have hname' : step.pkgName = n := by simpa using hname
          have hearlier := committed_ne hnotyet
          refine Or.inr ⟨hins, ?_⟩
          simp only [previousOf, if_neg hins, hname']
          exact dbGet_map_toJson hrec (hold n hearlier)
      · exact absurd hc (by simp)

/-- A removal. -/
theorem RunInv.remove (h : RunInv mem db done st) (hr : Removed step st st') : RunInv mem db (done ++ [step]) st' := by
  refine ⟨?_, hr.keeps.records h.records, ?_, ?_, ?_, ?_, ?_⟩
  · intro q
    rw [hr.keeps.metadata, h.metadata]
  · rw [hr.committed, h.steps, List.filter_append]
    simp [hr.op]
  · rw [hr.committed]; exact h.pkgs
  · rw [hr.committed]; exact h.names
  · intro n hn
    rw [hr.committed] at hn
    rw [hr.main, Table.get_del, h.untouched n hn]
    -- the removed name has no record now, and it is listed as removed
    by_cases hname : n = step.pkgName
    · rw [if_pos hname, if_pos]
      exact ⟨step, by simp, hr.op, hname.symm⟩
    · rw [if_neg hname]
      have hsame : (∃ r ∈ done ++ [step], r.op = .remove ∧ r.pkgName = n) ↔
          ∃ r ∈ done, r.op = .remove ∧ r.pkgName = n := by
        constructor
        · rintro ⟨r, hmem, hrop, hrn⟩
          rcases List.mem_append.1 hmem with hmem | hmem
          · exact ⟨r, hmem, hrop, hrn⟩
          · rw [List.mem_singleton.1 hmem] at hrn
            exact absurd hrn.symm hname
        · rintro ⟨r, hmem, hrop, hrn⟩
          exact ⟨r, List.mem_append_left _ hmem, hrop, hrn⟩
      simp only [hsame]
  · rw [hr.committed]; exact h.first

theorem RunInv.after {r : StepEnd} (hrec : RecordsFrom (fun pkg => pkg.metadata.Parsed) db)
    (hdry : t.dryRun = false) (h : RunInv mem db done st)
    (hranked : (done ++ [step]).Pairwise fun a b => a.op.rank ≤ b.op.rank)
    (hpkg : step.op ≠ .remove → ∃ p, step.pkg = some p ∧ (mem p).metadata.name = some step.pkgName)
    (hs : commitStep out t i step st = some r) :
    match r with
    | .done st' => RunInv mem db (done ++ [step]) st'
    | .failed err st' => (RunInv mem db done st' ∧ (step.op = .install → err ≠ .db)) ∨
        (step.op ≠ .remove ∧ RunInv mem db (done ++ [step]) st' ∧ (step.op = .install → err = .db)) := by
  -- the objects have kept their names so far
  have hnow : step.op ≠ .remove → ∃ p, step.pkg = some p ∧ (st.world.mem p).metadata.name = some step.pkgName := by
    intro hop
    obtain ⟨p, hp, hn⟩ := hpkg hop
    exact ⟨p, hp, h.metadata p ▸ hn⟩
  have hcases := commitStep_cases hdry hnow hs
  match r, hcases with
  | .done st', Or.inl hr =>
    obtain ⟨pkg, -, hmain⟩ := hr.main
    obtain ⟨p, hp, -⟩ := hpkg hr.op
    refine h.push hrec hranked hr.op ⟨p, hp⟩ hr.keeps hr.committed ?_
    intro n hn
    rw [hmain, Table.get_put, if_neg hn]
  | .done st', Or.inr hr => exact h.remove hr
  | .failed err st', hf =>
    rcases hf.committed with ⟨hcom, herr⟩ | ⟨hop, hcom, herr⟩
    · refine Or.inl ⟨⟨?_, hf.keeps.records h.records, ?_, ?_, ?_, ?_, ?_⟩, herr⟩
      · intro q
        rw [hf.keeps.metadata, h.metadata]
      all_goals rw [hcom]
      · exact h.steps
      · exact h.pkgs
      · exact h.names
      · rw [hf.main]; exact h.untouched
      · exact h.first
    · obtain ⟨p, hp, -⟩ := hpkg hop
      refine Or.inr ⟨hop, h.push hrec hranked hop ⟨p, hp⟩ hf.keeps hcom ?_, herr⟩
      intro n _
      rw [hf.main]

theorem commitLoop_append (out : Outside) (t : ApgTrans) : ∀ (done : List TransStep) (i : ℕ) (steps : List TransStep)
    (st : CommitState), commitLoop out t i (done ++ steps) st =
      match commitLoop out t i done st with
      | some (.done st') => commitLoop out t (i + done.length) steps st'
      | r => r := by
  intro done
  induction done with
  | nil => intro i steps st; rfl
  | cons s done ih =>
    intro i steps st
    simp only [List.cons_append, commitLoop]
    cases hs : commitStep out t i s st with
    | none => rfl
    | some r =>
      cases r with
      | done st' =>
        simp only
        rw [ih (i + 1) steps st', List.length_cons, Nat.add_right_comm, Nat.add_assoc]
      | failed err st' => rfl

/-- The invariant holds after all steps that complete. -/
theorem RunInv.loop (hrec : RecordsFrom (fun pkg => pkg.metadata.Parsed) db) (hdry : t.dryRun = false) :
    ∀ (steps : List TransStep) {done : List TransStep} {i : ℕ} {st st' : CommitState}, RunInv mem db done st →
    PlanOK mem (done ++ steps) → commitLoop out t i steps st = some (.done st') →
    RunInv mem db (done ++ steps) st' := by
  intro steps
  induction steps with
  | nil =>
    intro done i st st' h _ hl
    simp only [commitLoop, Option.some.injEq, StepEnd.done.injEq] at hl
    rw [List.append_nil, ← hl]; exact h
  | cons s steps ih =>
    intro done i st st' h hplan hl
    have hsplit : done ++ s :: steps = done ++ [s] ++ steps := by simp
    rw [hsplit] at hplan ⊢
    have hranked := (List.pairwise_append.1 hplan.ranked).1
    have hpkg := hplan.pkgs s (by simp)
    simp only [commitLoop] at hl
    cases hs : commitStep out t i s st with
    | none => rw [hs] at hl; exact absurd hl (by simp)
    | some r =>
      rw [hs] at hl
      have hstep := h.after hrec hdry hranked hpkg hs
      cases r with
      | done st₁ => exact ih hstep hplan hl
      | failed err st₁ => exact absurd hl (by simp)

end

/-! ## The way back -/

theorem upgradeBackupRestore_main {w w' : World} {idx : ℕ} {name : CStr} {previous : Package}
    (hname : previous.metadata.name = some name) (h : upgradeBackupRestore out w idx name previous = some w')
    (hlost : w'.unrestored = []) :
    w.unrestored = [] ∧ w'.db.main = w.db.main.put name (packageToJson previous) := by
  unfold upgradeBackupRestore at h
  obtain ⟨⟨ok, db'⟩, hadd, rfl⟩ := Option.map_eq_some_iff.1 h
  obtain ⟨rfl, n, db₁, hn, htxn, hs⟩ | ⟨rfl, -⟩ := dbAdd_cases hadd
  · rw [hname, Option.some.injEq] at hn
    subst hn
    exact ⟨by simpa using hlost, hs.main.trans (addTxn_spec htxn).main⟩
  · exact absurd hlost (by simp)

theorem undoInstall_main {w : World} {c : Committed} (hlost : (undoInstall out w c).unrestored = []) :
    w.unrestored = [] ∧ ∀ n, (undoInstall out w c).db.main.get n =
      if n = c.step.pkgName then none else w.db.main.get n := by
  unfold undoInstall at hlost ⊢
  obtain ⟨hok, db₁, htxn, hs⟩ | ⟨hok, hs⟩ := dbRemove_cases (out.undoIo c.idx) w.db c.step.pkgName
  · refine ⟨by simpa [hok] using hlost, ?_⟩
    intro n
    rw [hs.main, htxn.main, Table.get_del]
    split_ifs <;> rfl
  · by_cases hnone : w.db.main.get c.step.pkgName = none
    · refine ⟨by simpa [hok, hnone] using hlost, ?_⟩
      intro n
      rw [hs.main]
      split
      · rename_i hn; rw [hn]; exact hnone
      · rfl
    · exact absurd hlost (by simp [hok, hnone])

/-- What undoing one step does to the records, if its write is not lost. -/
theorem rollbackOne_main {w w' : World} {c : Committed} (hpkg : ∃ p, c.step.pkg = some p)
    (hname : ∀ previous, c.previous = some previous → previous.metadata.name = some c.step.pkgName)
    (h : rollbackOne out w c = some w') (hlost : w'.unrestored = []) :
    w.unrestored = [] ∧ ∀ n, w'.db.main.get n =
      if n = c.step.pkgName then c.previous.map packageToJson else w.db.main.get n := by
  obtain ⟨p, hp⟩ := hpkg
  unfold rollbackOne at h
  obtain ⟨w₁, hundone, rfl⟩ := Option.map_eq_some_iff.1 h
  rw [journal_unrestored] at hlost
  simp only [journal_main]
  cases hprev : c.previous with
  | some previous =>
    simp only [hprev, hp] at hundone
    obtain ⟨h1, h2⟩ := upgradeBackupRestore_main (hname previous hprev) hundone hlost
    refine ⟨h1, fun n => ?_⟩
    rw [h2, Table.get_put, Option.map_some]
    split_ifs <;> rfl
  | none =>
    simp only [hprev, Option.some.injEq] at hundone
    rw [← hundone] at hlost ⊢
    exact undoInstall_main hlost

/-- **A rollback takes every name back to where its first step found it.** -/
theorem rollbackCommitted_main {w : World} : ∀ {committed : List Committed} {w' : World},
    (∀ c ∈ committed, ∃ p, c.step.pkg = some p) →
    (∀ c ∈ committed, ∀ previous, c.previous = some previous → previous.metadata.name = some c.step.pkgName) →
    rollbackCommitted out w committed = some w' → w'.unrestored = [] →
    ∀ n, w'.db.main.get n =
      match committed.find? (fun c => c.step.pkgName = n) with
      | none => w.db.main.get n
      | some c => c.previous.map packageToJson := by
  intro committed
  induction committed with
  | nil =>
    intro w' _ _ h _ n
    simp only [rollbackCommitted, Option.some.injEq] at h
    rw [← h]; rfl
  | cons c committed ih =>
    intro w' hpkgs hnames h hlost n
    simp only [rollbackCommitted] at h
    obtain ⟨w₁, hrest, hone⟩ := Option.bind_eq_some_iff.1 h
    obtain ⟨hlost₁, hget⟩ := rollbackOne_main (hpkgs c List.mem_cons_self) (hnames c List.mem_cons_self) hone hlost
    -- the later steps are undone first, so the first one about a name has the last word
    have hih := ih (fun c hc => hpkgs c (List.mem_cons_of_mem _ hc)) (fun c hc => hnames c (List.mem_cons_of_mem _ hc))
      hrest hlost₁ n
    rw [hget n, List.find?_cons]
    by_cases hn : n = c.step.pkgName
    · simp [hn]
    · simp only [Ne.symm hn, decide_false, if_neg hn]
      exact hih

/-! ## All or nothing -/

section

variable {mem : Heap} {db : Db} {done : List TransStep}

/-- The steps to be undone are those that put packages in the records. -/
theorem RunInv.mem_done (h : RunInv mem db done st) (s : TransStep) :
    s ∈ st.committed.map (·.step) ↔ s ∈ done ∧ s.op ≠ .remove := by
  rw [h.steps, List.mem_filter, decide_eq_true_eq]

/-- The first step about a name is an install if any of them is. -/
theorem first_install (h : RunInv mem db done st) (hranked : done.Pairwise fun a b => a.op.rank ≤ b.op.rank)
    {s : TransStep} (hs : s ∈ done) (hop : s.op = .install) :
    ∃ c, st.committed.find? (fun c => c.step.pkgName = s.pkgName) = some c ∧ c.step.op = .install := by
  obtain ⟨c, hc, hcs⟩ := List.mem_map.1 ((h.mem_done s).2 ⟨hs, by simp [hop]⟩)
  have hfound : (st.committed.find? fun c => c.step.pkgName = s.pkgName).isSome := by
    rw [List.find?_isSome]
    exact ⟨c, hc, by simp [hcs]⟩
  obtain ⟨c₀, hc₀⟩ := Option.isSome_iff_exists.1 hfound
  refine ⟨c₀, hc₀, ?_⟩
  obtain ⟨-, as, bs, hsplit, hbefore⟩ := List.find?_eq_some_iff_append.1 hc₀
  -- the install stands at the first one or behind it
  have hle : c₀.step.op.rank ≤ c.step.op.rank := by
    rw [hsplit, List.mem_append, List.mem_cons] at hc
    rcases hc with hc | rfl | hc
    · exact absurd (hbefore c hc) (by simp [hcs])
    · exact le_refl _
    · have hpw : (st.committed.map (·.step)).Pairwise fun a b => a.op.rank ≤ b.op.rank := by
        rw [h.steps]; exact hranked.filter _
      rw [hsplit, List.map_append, List.map_cons, List.pairwise_append, List.pairwise_cons] at hpw
      exact hpw.2.1.1 _ (List.mem_map_of_mem hc)
  rw [hcs, hop] at hle
  cases hop₀ : c₀.step.op with
  | install => rfl
  | upgrade => rw [hop₀] at hle; exact absurd hle (by decide)
  | remove => rw [hop₀] at hle; exact absurd hle (by decide)

/-- **When a rollback restores the records**: no step put a package under a name
that had a record except by an upgrade, and no such name was only removed. -/
theorem rollback_restores_iff {w : World} (h : RunInv mem db done st)
    (hranked : done.Pairwise fun a b => a.op.rank ≤ b.op.rank)
    (hback : rollbackCommitted out st.world st.committed = some w) (hlost : w.unrestored = []) :
    w.db.main = db.main ↔
      (∀ s ∈ done, s.op = .install → db.main.get s.pkgName = none) ∧
        ∀ r ∈ done, r.op = .remove →
          db.main.get r.pkgName = none ∨ ∃ u ∈ done, u.op = .upgrade ∧ u.pkgName = r.pkgName := by
  have hget := rollbackCommitted_main h.pkgs h.names hback hlost
  constructor
  · intro heq
    rw [heq] at hget
    -- undoing an install takes the record away, so there was none
    have hinst : ∀ s ∈ done, s.op = .install → db.main.get s.pkgName = none := by
      intro s hs hop
      obtain ⟨c, hc, hcop⟩ := first_install h hranked hs hop
      have hn := hget s.pkgName
      rw [hc] at hn
      rcases h.first _ c hc with ⟨-, hprev⟩ | ⟨hne, -⟩
      · simpa [hprev] using hn
      · exact absurd hcop hne
    refine ⟨hinst, ?_⟩
    intro r hr hop
    -- a removed name comes back only if an upgrade before it is undone
    by_cases hrec : db.main.get r.pkgName = none
    · exact Or.inl hrec
    right
    have hn := hget r.pkgName
    cases hc : st.committed.find? (fun c => c.step.pkgName = r.pkgName) with
    | none =>
      rw [hc] at hn
      rw [h.untouched _ (committed_ne hc), if_pos ⟨r, hr, hop, rfl⟩] at hn
      exact absurd hn hrec
    | some c =>
      have hcn : c.step.pkgName = r.pkgName := by simpa using List.find?_some hc
      have hcd := (h.mem_done c.step).1 (List.mem_map_of_mem (List.mem_of_find?_eq_some hc))
      cases hcop : c.step.op with
      | upgrade => exact ⟨c.step, hcd.1, hcop, hcn⟩
      | install => exact absurd (hcn ▸ hinst _ hcd.1 hcop) hrec
      | remove => exact absurd hcop hcd.2
  · rintro ⟨hinst, hrm⟩
    refine Table.ext_get fun n => ?_
    rw [hget n]
    cases hc : st.committed.find? (fun c => c.step.pkgName = n) with
    | none =>
      have huntouched := committed_ne hc
      simp only
      rw [h.untouched n huntouched]
      split
      · rename_i hex
        obtain ⟨r, hr, hop, rfl⟩ := hex
        rcases hrm r hr hop with hnone | ⟨u, hu, huop, hun⟩
        · exact hnone.symm
        · -- an upgrade of the name would be undone
          obtain ⟨c, hcm, rfl⟩ := List.mem_map.1 ((h.mem_done u).2 ⟨hu, by simp [huop]⟩)
          exact absurd hun (huntouched c hcm)
      · rfl
    | some c =>
      have hcn : c.step.pkgName = n := by simpa using List.find?_some hc
      have hcd := (h.mem_done c.step).1 (List.mem_map_of_mem (List.mem_of_find?_eq_some hc))
      simp only
      rcases h.first n c hc with ⟨hop, hprev⟩ | ⟨-, hprev⟩
      · have := hinst _ hcd.1 hop
        rw [hcn] at this
        rw [hprev, this]; rfl
      · exact hprev

end

/-- The state `trans_commit` starts its loop in. -/
def commitStart (mem : Heap) (db : Db) : CommitState := { world := ⟨{ db with suppressJournal := true }, mem, []⟩ }

/-- The commit completes the steps `done` and fails at `step`. -/
def FailsAt (out : Outside) (t : ApgTrans) (mem : Heap) (db : Db) (done : List TransStep) (step : TransStep)
    (err : TransError) : Prop :=
  (t.requireSignature = true → out.keyringLoad = true) ∧
    ∃ rest st st', t.plan = done ++ step :: rest ∧ commitLoop out t 0 done (commitStart mem db) = some (.done st) ∧
      commitStep out t done.length step st = some (.failed err st')

theorem commitStart_inv {mem : Heap} {db : Db} (hr : RecordsOK db) : RunInv mem db [] (commitStart mem db) := by
  refine ⟨fun _ => rfl, hr, rfl, ?_, ?_, ?_, ?_⟩
  · intro c hc; simp [commitStart] at hc
  · intro c hc; simp [commitStart] at hc
  · intro n _; simp [commitStart]
  · intro n c hc; simp [commitStart] at hc

theorem dbGet_parsed {db : Db} {n : CStr} {p q : Package} (h : dbGet db n = some p) (hq : q.metadata = p.metadata) :
    q.metadata.Parsed := by
  obtain ⟨j, -, hread⟩ := Option.bind_eq_some_iff.1 h
  obtain ⟨r, hr, rfl⟩ := Option.map_eq_some_iff.1 hread
  have hmeta : ∃ root, r.metadata = parseMetadataFromRoot root := by
    unfold packageFromJson at hr
    split_ifs at hr
    rw [Option.some.injEq] at hr
    exact ⟨j, by rw [← hr]⟩
  obtain ⟨root, hroot⟩ := hmeta
  rw [hq]
  cases hn : r.metadata.name with
  | none => rw [hroot]; exact parsed_fromRoot root
  | some name => rw [hroot]; exact parsed_fromRoot root

/-- How `trans_commit` returns: refused before its first step, with every step done, or
with what is left when the steps are undone. -/
theorem transCommit_cases {mem : Heap} {db : Db} {err : TransError} {t' : ApgTrans} {w : World}
    (h : transCommit out mem db t = some (err, t', w)) :
    ((t.prepared = false ∨ t.committed = true ∨ t.requireSignature = true ∧ out.keyringLoad = false) ∧
      w = ⟨db, mem, []⟩) ∨
    (∃ st, commitLoop out t 0 t.plan (commitStart mem db) = some (.done st) ∧ err = .ok ∧
      w = { st.world with db := { st.world.db with suppressJournal := false } }) ∨
    ∃ st w₁, commitLoop out t 0 t.plan (commitStart mem db) = some (.failed err st) ∧
      rollbackCommitted out st.world st.committed = some w₁ ∧
      w = { w₁ with db := { w₁.db with suppressJournal := false } } := by
  unfold transCommit at h
  split_ifs at h with hprep hcom hkey
  · cases h
    exact Or.inl ⟨Or.inl (by simpa using hprep), rfl⟩
  · cases h
    exact Or.inl ⟨Or.inr (Or.inl hcom), rfl⟩
  · cases h
    rw [Bool.and_eq_true, Bool.not_eq_true'] at hkey
    exact Or.inl ⟨Or.inr (Or.inr hkey), rfl⟩
  right
  unfold commitStart
  cases hloop : commitLoop out t 0 t.plan { world := ⟨{ db with suppressJournal := true }, mem, []⟩ } with
  | none => rw [hloop] at h; cases h
  | some r =>
    rw [hloop] at h
    cases r with
    | done st =>
      cases h
      exact Or.inl ⟨st, rfl, rfl, rfl⟩
    | failed err' st =>
      obtain ⟨w₁, hback, hw⟩ := Option.map_eq_some_iff.1 h
      cases hw
      exact Or.inr ⟨st, w₁, rfl, hback, rfl⟩

/-- What `trans_commit` returns when a step fails. -/
theorem transCommit_of_failsAt {mem : Heap} {db : Db} {done : List TransStep} {err : TransError}
    (hprep : t.prepared = true) (hcom : t.committed = false) (h : FailsAt out t mem db done step err) :
    ∃ st st', commitLoop out t 0 done (commitStart mem db) = some (.done st) ∧
      commitStep out t done.length step st = some (.failed err st') ∧
      transCommit out mem db t = (rollbackCommitted out st'.world st'.committed).map fun w =>
        (err, t, { w with db := { w.db with suppressJournal := false } }) := by
  obtain ⟨hkey, rest, st, st', hsplit, hloop, hstep⟩ := h
  refine ⟨st, st', hloop, hstep, ?_⟩
  have hall : commitLoop out t 0 t.plan (commitStart mem db) = some (.failed err st') := by
    rw [hsplit, commitLoop_append, hloop]
    simp only [Nat.zero_add, commitLoop, hstep]
  unfold commitStart at hall
  unfold transCommit
  rw [if_neg (by simp [hprep]), if_neg (by simp [hcom]), if_neg (by simpa using hkey), hall]

/-- What the plan is like up to the step that fails. -/
theorem FailsAt.planOK {collect : Ptr → Option (List CStr)} {mem₀ mem : Heap} {db₀ db : Db} {trans t : ApgTrans}
    {done : List TransStep} {err : TransError} (hfail : FailsAt out t mem db done step err) (hq : Queued mem₀ trans)
    (hprep : transPrepare collect mem₀ db₀ trans = some (.ok, mem, t)) :
    PlanOK mem (done ++ [step]) ∧ t.prepared = true ∧ t.committed = false := by
  obtain ⟨g, order, installs, removals, hp⟩ := transPrepare_ok (queued_fresh hq) hprep
  obtain ⟨-, rest, -, -, hsplit, -, -⟩ := hfail
  obtain ⟨hranked, hpkgs⟩ := prepareOK_planOK (queued_fresh hq) hp
  have hsplit' : t.plan = done ++ [step] ++ rest := by rw [hsplit]; simp
  rw [hsplit'] at hranked hpkgs
  exact ⟨⟨(List.pairwise_append.1 hranked).1, fun s hs => hpkgs s (List.mem_append_left _ hs)⟩, hp.prepared,
    hp.committed⟩

/-- **When a failed commit leaves the records as they were**: no completed install
(nor one that failed while its record was written) is of a package that had a
record, and every completed removal is of a package that had none or that was
upgraded before. -/
theorem transCommit_atomic_iff {collect : Ptr → Option (List CStr)} {mem₀ mem : Heap} {db₀ db : Db}
    {trans t t' : ApgTrans} {done : List TransStep} {err err' : TransError} {w : World} (hq : Queued mem₀ trans)
    (hprep : transPrepare collect mem₀ db₀ trans = some (.ok, mem, t)) (hdry : t.dryRun = false)
    (hdb : Reachable (fun pkg => pkg.metadata.Parsed) db) (hfail : FailsAt out t mem db done step err)
    (hcommit : transCommit out mem db t = some (err', t', w)) (hwrites : w.unrestored = []) :
    w.db.main = db.main ↔
      (∀ s ∈ done, s.op = .install → db.main.get s.pkgName = none) ∧
        (step.op = .install → err = .db → db.main.get step.pkgName = none) ∧
        ∀ r ∈ done, r.op = .remove →
          db.main.get r.pkgName = none ∨ ∃ u ∈ done, u.op = .upgrade ∧ u.pkgName = r.pkgName := by
  have hrec := reachable_recordsFrom dbGet_parsed hdb
  obtain ⟨⟨hranked, hpkgs⟩, hprepared, hcommitted⟩ := hfail.planOK hq hprep
  have hdone : PlanOK mem ([] ++ done) :=
    ⟨(List.pairwise_append.1 hranked).1, fun s hs => hpkgs s (by simp [List.nil_append done ▸ hs])⟩
  -- the state at the failure, and the one after the way back
  obtain ⟨st, st', hloop, hstep, hrun⟩ := transCommit_of_failsAt hprepared hcommitted hfail
  rw [hrun] at hcommit
  obtain ⟨w₁, hback, hw⟩ := Option.map_eq_some_iff.1 hcommit
  simp only [Prod.mk.injEq] at hw
  obtain ⟨-, -, rfl⟩ := hw
  have hinv := RunInv.loop hrec hdry done (commitStart_inv (reachable_recordsOK hdb)) hdone hloop
  rw [List.nil_append] at hinv
  rcases hinv.after hrec hdry hranked (hpkgs step (by simp)) hstep with ⟨hinv', herr⟩ | ⟨hop, hinv', herr⟩
  · refine (rollback_restores_iff hinv' hdone.ranked hback hwrites).trans ?_
    constructor
    · rintro ⟨h1, h2⟩
      exact ⟨h1, fun hop he => absurd he (herr hop), h2⟩
    · rintro ⟨h1, -, h2⟩
      exact ⟨h1, h2⟩
  · refine (rollback_restores_iff hinv' hranked hback hwrites).trans ?_
    have hnone := no_removal_before hranked hop
    constructor
    · rintro ⟨h1, -⟩
      exact ⟨fun s hs => h1 s (by simp [hs]), fun hins _ => h1 step (by simp) hins,
        fun r hr hrop => absurd hrop (hnone r hr)⟩
    · rintro ⟨h1, h2, -⟩
      refine ⟨?_, ?_⟩
      · intro s hs hins
        rcases List.mem_append.1 hs with hs | hs
        · exact h1 s hs hins
        · rw [List.mem_singleton.1 hs] at hins ⊢
          exact h2 hins (herr hins)
      · intro r hr hrop
        rcases List.mem_append.1 hr with hr | hr
        · exact absurd hrop (hnone r hr)
        · rw [List.mem_singleton.1 hr] at hrop
          exact absurd hrop hop

/-- Every script that runs before a removal fails, but for the one of the first step. -/
def noRemove : Outside := { preRemove := fun i => i = 0 }

theorem bare_reachable {db db' : Db} {io : ℕ → Rc} {name : String} {files : List String} {ok : Bool}
    (h : Reachable (fun pkg => pkg.metadata.Parsed) db) (hadd : dbAdd io db (bare name files) = some (ok, db')) :
    Reachable (fun pkg => pkg.metadata.Parsed) db' := by
  have hparsed : (bare name files).metadata.Parsed := by simp [bare, Metadata.Parsed]
  exact h.add io hparsed hadd

/-- `a` is upgraded and goes back to its record when `b` cannot be removed. -/
theorem transCommit_atomic_upgraded :
    ∃ db trans mem t w, Reachable (fun pkg => pkg.metadata.Parsed) db ∧ Queued (fun _ => bare "a" []) trans ∧
      transPrepare (fun _ => none) (fun _ => bare "a" []) db trans = some (.ok, mem, t) ∧
      transCommit noRemove mem db t = some (.removeFailed, t, w) ∧ db.main.get (cstr "a") ≠ none ∧
      w.db.main = db.main := by
  have hruns : ∃ db₁, dbAdd (fun _ => .success) (dbOpen true true) (bare "a" []) = some (true, db₁) ∧
      ∃ db, dbAdd (fun _ => .success) db₁ (bare "b" []) = some (true, db) ∧ db.main.get (cstr "a") ≠ none ∧
        ∃ mem t, transPrepare (fun _ => none) (fun _ => bare "a" []) db
            { upgradePkgs := [1], removeNames := [cstr "b"] } = some (.ok, mem, t) ∧
          t.dryRun = false ∧
          FailsAt noRemove t mem db [⟨.upgrade, cstr "a", none, false, some 1⟩] ⟨.remove, cstr "b", none, true, none⟩
            .removeFailed ∧
          ∃ w, transCommit noRemove mem db t = some (.removeFailed, t, w) ∧ w.unrestored = [] :=
    ⟨_, rfl, _, rfl, by decide, _, _, rfl, rfl, ⟨by decide, [], _, _, rfl, rfl, rfl⟩, _, rfl, rfl⟩
  obtain ⟨db₁, h1, db, h2, hrec, mem, t, hprep, hdry, hfail, w, hcommit, hlost⟩ := hruns
  have hq : Queued (fun _ => bare "a" []) { upgradePkgs := [1], removeNames := [cstr "b"] } :=
    Queued.remove (cstr "b") (Queued.upgrade 1 Queued.new)
  have hdb := bare_reachable (bare_reachable (Reachable.new true true) h1) h2
  refine ⟨db, _, mem, t, w, hdb, hq, hprep, hcommit, hrec, ?_⟩
  refine (transCommit_atomic_iff hq hprep hdry hdb hfail hcommit hlost).2 ⟨?_, ?_, ?_⟩
  · intro s hs hop
    rw [List.mem_singleton.1 hs] at hop
    exact absurd hop (by simp)
  · intro hop
    exact absurd hop (by simp)
  · intro r hr hop
    rw [List.mem_singleton.1 hr] at hop
    exact absurd hop (by simp)

/-- `a` has been removed when `b` cannot be, and its record does not come back. -/
theorem transCommit_atomic_removed :
    ∃ db trans mem t w, Reachable (fun pkg => pkg.metadata.Parsed) db ∧ Queued (fun _ => bare "a" []) trans ∧
      transPrepare (fun _ => none) (fun _ => bare "a" []) db trans = some (.ok, mem, t) ∧ t.dryRun = false ∧
      transCommit noRemove mem db t = some (.removeFailed, t, w) ∧ w.unrestored = [] ∧ w.db.main ≠ db.main := by
  have hruns : ∃ db₁, dbAdd (fun _ => .success) (dbOpen true true) (bare "a" []) = some (true, db₁) ∧
      ∃ db, dbAdd (fun _ => .success) db₁ (bare "b" []) = some (true, db) ∧ db.main.get (cstr "a") ≠ none ∧
        ∃ mem t, transPrepare (fun _ => none) (fun _ => bare "a" []) db
            { removeNames := [cstr "a", cstr "b"] } = some (.ok, mem, t) ∧
          t.dryRun = false ∧ ∃ w, transCommit noRemove mem db t = some (.removeFailed, t, w) ∧ w.unrestored = [] ∧
            w.db.main.get (cstr "a") = none :=
    ⟨_, rfl, _, rfl, by decide, _, _, rfl, rfl, _, rfl, rfl, by decide⟩
  obtain ⟨db₁, h1, db, h2, hrec, mem, t, hprep, hdry, w, hcommit, hlost, hgone⟩ := hruns
  have hq : Queued (fun _ => bare "a" []) { removeNames := [cstr "a", cstr "b"] } :=
    Queued.remove (cstr "b") (Queued.remove (cstr "a") Queued.new)
  have hdb := bare_reachable (bare_reachable (Reachable.new true true) h1) h2
  refine ⟨db, _, mem, t, w, hdb, hq, hprep, hdry, hcommit, hlost, ?_⟩
  intro hsame
  rw [hsame] at hgone
  exact hrec hgone

end Apg
