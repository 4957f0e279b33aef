import Apg.Proof.Removals
import Apg.Proof.Replay

/-!
# What a transaction leaves

The packages that are recorded when a transaction is over, from its queue and from those
that were recorded before.

* `Transaction.On.recorded_done`: **a commit that succeeds leaves what its plan says.**
* `Transaction.On.recorded_failed`: one that fails takes away what it has removed, and
  nothing else, if no write of the rollback is lost.
-/

namespace Apg

variable {out : Outside} {t : ApgTrans} {i : ℕ} {step : TransStep} {st st' : CommitState} {db db' : Db} {mem : Heap}

/-! ## Records -/

/-- The metadata in a record. -/
def recordMetadata (record : Json) : Option Metadata := (packageFromJson record).map (·.metadata)

theorem recorded_eq (db : Db) (n : CStr) : recorded db n = (db.main.get n).bind recordMetadata := by
  unfold recorded dbGet
  cases db.main.get n with
  | none => rfl
  | some record =>
    unfold readRecord recordMetadata
    rw [Option.bind_some, Option.bind_some, Option.map_map]
    cases packageFromJson record with
    | none => rfl
    | some pkg =>
      rw [Option.map_some, Option.map_some]
      simp only [Function.comp_apply]
      split <;> rfl

theorem recorded_congr {n : CStr} (h : db'.main.get n = db.main.get n) : recorded db' n = recorded db n := by
  rw [recorded_eq, recorded_eq, h]

theorem recordMetadata_toJson {pkg : Package} (h : pkg.metadata.Parsed) :
    recordMetadata (packageToJson pkg) = some pkg.metadata.written := by
  unfold recordMetadata
  rw [packageFromJson_toJson h]
  rfl

/-- A change of one record. -/
theorem recorded_update {n : CStr} {record : Option Json}
    (h : ∀ m, db'.main.get m = if m = n then record else db.main.get m) :
    recorded db' = Function.update (recorded db) n (record.bind recordMetadata) := by
  funext m
  rw [recorded_eq, h]
  by_cases hm : m = n
  · subst hm
    rw [if_pos rfl, Function.update_self]
  · rw [if_neg hm, Function.update_of_ne hm, recorded_eq]

/-- What is recorded stays the same when it is written again. -/
theorem recorded_written (hr : RecordsOK db) (n : CStr) : (recorded db n).map Metadata.written = recorded db n := by
  unfold recorded
  cases hget : dbGet db n with
  | none => rfl
  | some pkg =>
    obtain ⟨-, -, -, hwritten, -⟩ := dbGet_settled hr hget
    rw [Option.map_some, Option.map_some, hwritten]

/-- The records are those of packages whose dependencies were parsed. -/
abbrev ParsedRecords (db : Db) : Prop := RecordsFrom (fun pkg => pkg.metadata.Parsed) db

theorem ParsedRecords.ok (h : ParsedRecords db) : RecordsOK db := by
  intro n j hj
  obtain ⟨p, hname, -, heq⟩ := h n j hj
  exact ⟨p, hname, trivial, heq⟩

theorem ParsedRecords.update {n : CStr} {record : Option Json} (h : ParsedRecords db)
    (hmain : ∀ m, db'.main.get m = if m = n then record else db.main.get m)
    (hrecord : ∀ j, record = some j → ∃ p : Package, p.metadata.name = some n ∧ p.metadata.Parsed ∧ j = packageToJson p) :
    ParsedRecords db' := by
  intro m j hj
  rw [hmain] at hj
  by_cases hm : m = n
  · subst hm
    rw [if_pos rfl] at hj
    exact hrecord j hj
  · rw [if_neg hm] at hj
    exact h m j hj

/-! ## Steps that are done -/

/-- **A step that is done leaves what it says** under its name. -/
theorem commitStep_recorded (hdry : t.dryRun = false) (hm : ∀ q, (st.world.mem q).metadata = (mem q).metadata)
    (hr : ParsedRecords st.world.db) (hparsed : ∀ p, (mem p).metadata.Parsed)
    (hpkg : step.op ≠ .remove → ∃ p, step.pkg = some p ∧ (mem p).metadata.name = some step.pkgName)
    (h : commitStep out t i step st = some (.done st')) :
    (∀ q, (st'.world.mem q).metadata = (mem q).metadata) ∧ ParsedRecords st'.world.db ∧
      recorded st'.world.db =
        Function.update (recorded st.world.db) step.pkgName ((stepPkg mem step).map Metadata.written) := by
  have hnow : step.op ≠ .remove → ∃ p, step.pkg = some p ∧ (st.world.mem p).metadata.name = some step.pkgName := by
    intro hop
    obtain ⟨p, hp, hname⟩ := hpkg hop
    exact ⟨p, hp, (hm p) ▸ hname⟩
  rcases commitStep_cases hdry hnow h with hdone | hdone
  · obtain ⟨p, hp, hname⟩ := hpkg hdone.op
    obtain ⟨q, hq, hmain⟩ := commitStep_main hdry hdone.op hp ((hm p) ▸ hname) h
    have hget : ∀ n, st'.world.db.main.get n =
        if n = step.pkgName then some (packageToJson q) else st.world.db.main.get n := by
      intro n
      rw [hmain, Table.get_put]
      split_ifs <;> rfl
    have hmeta : q.metadata = (mem p).metadata := hq.trans (hm p)
    have hqparsed : q.metadata.Parsed := hmeta ▸ hparsed p
    refine ⟨fun q => (hdone.keeps.metadata q).trans (hm q), hr.update hget (fun j hj => ?_), ?_⟩
    · exact ⟨q, hmeta ▸ hname, hqparsed, (Option.some.inj hj).symm⟩
    have hstep : stepPkg mem step = some (mem p).metadata := by
      unfold stepPkg
      split
      · rename_i hop
        exact absurd hop hdone.op
      · rw [hp]
        rfl
    rw [recorded_update hget, Option.bind_some, recordMetadata_toJson hqparsed, hstep, hmeta]
    rfl
  · have hget : ∀ n, st'.world.db.main.get n = if n = step.pkgName then none else st.world.db.main.get n := by
      intro n
      rw [hdone.main, Table.get_del]
      split_ifs <;> rfl
    refine ⟨fun q => (hdone.keeps.metadata q).trans (hm q), hr.update hget (fun j hj => by cases hj), ?_⟩
    have hstep : stepPkg mem step = none := by
      unfold stepPkg
      rw [hdone.op]
    rw [recorded_update hget, hstep]
    rfl

/-- The steps that are done, one after the other. -/
theorem commitLoop_recorded (hdry : t.dryRun = false) (hparsed : ∀ p, (mem p).metadata.Parsed) :
    ∀ (steps : List TransStep) {i : ℕ} {st st' : CommitState} {s : PkgSet},
    (∀ q, (st.world.mem q).metadata = (mem q).metadata) → ParsedRecords st.world.db →
    (∀ step ∈ steps, step.op ≠ .remove → ∃ p, step.pkg = some p ∧ (mem p).metadata.name = some step.pkgName) →
    (∀ n, recorded st.world.db n = (s n).map Metadata.written) →
    commitLoop out t i steps st = some (.done st') →
    ParsedRecords st'.world.db ∧ ∀ n, recorded st'.world.db n = (applyPlan mem steps s n).map Metadata.written := by
  intro steps
  induction steps with
  | nil =>
    intro i st st' s _ hr _ hs h
    rw [commitLoop, Option.some.injEq, StepEnd.done.injEq] at h
    rw [← h]
    exact ⟨hr, hs⟩
  | cons step steps ih =>
    intro i st st' s hm hr hpkgs hs h
    rw [commitLoop] at h
    cases hstep : commitStep out t i step st with
    | none => rw [hstep] at h; cases h
    | some r =>
      rw [hstep] at h
      cases r with
      | failed err st₁ => cases h
      | done st₁ =>
        obtain ⟨hm₁, hr₁, hrec⟩ := commitStep_recorded hdry hm hr hparsed (hpkgs step List.mem_cons_self) hstep
        have hs₁ : ∀ n, recorded st₁.world.db n = (applyStep mem s step n).map Metadata.written := by
          intro n
          rw [hrec]
          unfold applyStep
          by_cases hn : n = step.pkgName
          · rw [hn, Function.update_self, Function.update_self]
          · rw [Function.update_of_ne hn, Function.update_of_ne hn, hs]
        exact ih hm₁ hr₁ (fun s hs => hpkgs s (List.mem_cons_of_mem _ hs)) hs₁ h

/-! ## Steps that are undone -/

/-- What a rollback does not bring back: the packages that were removed, unless they had been
upgraded before. -/
def goneNames (done : List TransStep) : List CStr :=
  (removedNames done).filter fun n => ∀ s ∈ done, s.op = .upgrade → s.pkgName ≠ n

theorem mem_removedNames {plan : List TransStep} {n : CStr} :
    n ∈ removedNames plan ↔ ∃ r ∈ plan, r.op = .remove ∧ r.pkgName = n := by
  unfold removedNames
  simp only [List.mem_map, List.mem_filter, decide_eq_true_eq, and_assoc]

theorem mem_goneNames {done : List TransStep} {n : CStr} :
    n ∈ goneNames done ↔ (∃ r ∈ done, r.op = .remove ∧ r.pkgName = n) ∧ ∀ s ∈ done, s.op = .upgrade → s.pkgName ≠ n := by
  unfold goneNames
  rw [List.mem_filter, decide_eq_true_eq, mem_removedNames]

/-- The records after a rollback. -/
theorem RunInv.undone {done : List TransStep} {w : World} (h : RunInv mem db done st)
    (hfresh : ∀ s ∈ done, s.op = .install → db.main.get s.pkgName = none)
    (hback : rollbackCommitted out st.world st.committed = some w) (hlost : w.unrestored = []) (n : CStr) :
    w.db.main.get n = if n ∈ goneNames done then none else db.main.get n := by
  rw [rollbackCommitted_main h.pkgs h.names hback hlost n]
  cases hc : st.committed.find? (fun c => c.step.pkgName = n) with
  | none =>
    have hnot := committed_ne hc
    have hups : ∀ s ∈ done, s.op = .upgrade → s.pkgName ≠ n := by
      intro s hs hop heq
      obtain ⟨c, hcm, hcs⟩ := List.mem_map.1 ((h.mem_done s).2 ⟨hs, by rw [hop]; decide⟩)
      exact hnot c hcm (hcs ▸ heq)
    simp only
    rw [h.untouched n hnot]
    by_cases hex : ∃ r ∈ done, r.op = .remove ∧ r.pkgName = n
    · rw [if_pos hex, if_pos (mem_goneNames.2 ⟨hex, hups⟩)]
    · rw [if_neg hex, if_neg fun hgone => hex (mem_goneNames.1 hgone).1]
  | some c =>
    have hcn : c.step.pkgName = n := by simpa using List.find?_some hc
    obtain ⟨hcd, hop⟩ := (h.mem_done c.step).1 (List.mem_map_of_mem (List.mem_of_find?_eq_some hc))
    simp only
    rcases h.first n c hc with ⟨hinstall, hprev⟩ | ⟨hinstall, hprev⟩
    · have hnone := hfresh c.step hcd hinstall
      rw [hcn] at hnone
      rw [hprev, hnone, ite_self]
      rfl
    · have hup : c.step.op = .upgrade := by
        cases hcop : c.step.op with
        | install => exact absurd hcop hinstall
        | upgrade => rfl
        | remove => exact absurd hcop hop
      rw [if_neg fun hgone => (mem_goneNames.1 hgone).2 c.step hcd hup hcn, hprev]

/-! ## Transactions -/

/-- A step that fails has an error. -/
theorem commitStep_error {err : TransError} (h : commitStep out t i step st = some (.failed err st')) : err ≠ .ok := by
  have hfail : ∀ {e st₀}, e ≠ .ok → failInstall t step e st₀ = .failed err st' → err ≠ .ok := by
    intro e st₀ he heq
    unfold failInstall at heq
    cases heq
    exact he
  have hrecord : ∀ {p previous st₀}, recordPkg out i step p previous st₀ = some (.failed err st') → err ≠ .ok := by
    intro p previous st₀ heq
    unfold recordPkg at heq
    obtain ⟨⟨ok, db'⟩, -, hr⟩ := Option.map_eq_some_iff.1 heq
    cases ok
    · cases hr
      decide
    · cases hr
  unfold commitStep at h
  split at h
  · unfold commitInstall at h
    simp only at h
    split_ifs at h
    · exact hfail (by decide) (Option.some.inj h)
    · cases h
    · exact hfail (by decide) (Option.some.inj h)
    · exact hrecord h
  · unfold commitUpgrade at h
    simp only at h
    split_ifs at h
    · exact hfail (by decide) (Option.some.inj h)
    · cases h
    · exact hfail (by decide) (Option.some.inj h)
    · exact hfail (by decide) (Option.some.inj h)
    · exact hrecord h
  · unfold commitRemove at h
    simp only at h
    split_ifs at h
    all_goals cases h
    all_goals decide
  · cases h

/-- The step that a loop fails at, and those it has done before. -/
theorem commitLoop_failed {err : TransError} : ∀ (steps : List TransStep) {i : ℕ} {st st' : CommitState},
    commitLoop out t i steps st = some (.failed err st') →
    ∃ done step rest st₁, steps = done ++ step :: rest ∧ commitLoop out t i done st = some (.done st₁) ∧
      commitStep out t (i + done.length) step st₁ = some (.failed err st') := by
  intro steps
  induction steps with
  | nil => intro i st st' h; cases h
  | cons step steps ih =>
    intro i st st' h
    rw [commitLoop] at h
    cases hstep : commitStep out t i step st with
    | none => rw [hstep] at h; cases h
    | some r =>
      rw [hstep] at h
      cases r with
      | failed err₁ st₁ =>
        rw [Option.some.injEq] at h
        exact ⟨[], step, steps, st, rfl, rfl, hstep.trans (congrArg some h)⟩
      | done st₁ =>
        obtain ⟨done, next, rest, st₂, rfl, hdone, hfail⟩ := ih h
        refine ⟨step :: done, next, rest, st₂, rfl, by rw [commitLoop, hstep]; exact hdone, ?_⟩
        rw [List.length_cons, Nat.add_comm done.length, ← Nat.add_assoc]
        exact hfail

/-- How a commit ends, with its error: refused, done, or undone from the failing step on. -/
theorem transCommit_ends {err : TransError} {trans : ApgTrans} {w : World} (h : transCommit out mem db t = some (err, trans, w)) :
    (err ≠ .ok ∧ w.db = db) ∨
    (err = .ok ∧ ∃ st, commitLoop out t 0 t.plan (commitStart mem db) = some (.done st) ∧
      w.db = { st.world.db with suppressJournal := false }) ∨
    (err ≠ .ok ∧ ∃ st w₁, commitLoop out t 0 t.plan (commitStart mem db) = some (.failed err st) ∧
      rollbackCommitted out st.world st.committed = some w₁ ∧ w.unrestored = w₁.unrestored ∧
      w.db = { w₁.db with suppressJournal := false }) := by
  unfold transCommit at h
  split_ifs at h
  · cases h
    exact Or.inl ⟨by decide, rfl⟩
  · cases h
    exact Or.inl ⟨by decide, rfl⟩
  · cases h
    exact Or.inl ⟨by decide, rfl⟩
  right
  unfold commitStart
  cases hloop : commitLoop out t 0 t.plan { world := ⟨{ db with suppressJournal := true }, mem, []⟩ } with
  | none => rw [hloop] at h; cases h
  | some r =>
    rw [hloop] at h
    cases r with
    | done st =>
      cases h
      exact Or.inl ⟨rfl, st, rfl, rfl⟩
    | failed err' st =>
      obtain ⟨w₁, hback, hw⟩ := Option.map_eq_some_iff.1 h
      cases hw
      obtain ⟨done, step, rest, st₁, -, -, hfail⟩ := commitLoop_failed _ hloop
      exact Or.inr ⟨commitStep_error hfail, st, w₁, rfl, hback, rfl, rfl⟩

/-- **A commit that succeeds leaves what its plan says**: under every name the package of the
last step about it, as it is written, and what was there under the names of no step. -/
theorem Transaction.On.recorded_done {x : Transaction} (h : x.On db) (hr : ParsedRecords db)
    (hparsed : ∀ p, (x.queuedMem p).metadata.Parsed) (hdry : x.prepared.dryRun = false) (hok : x.err = .ok) :
    ParsedRecords x.world.db ∧
      ∀ n, recorded x.world.db n = (applyPlan x.mem x.prepared.plan (recorded db) n).map Metadata.written := by
  obtain ⟨trans, hcommit⟩ := h.committed
  have hf := queued_fresh h.queued
  obtain ⟨g, order, installs, removals, hp⟩ := transPrepare_ok hf h.prepared
  have hparsed' : ∀ p, (x.mem p).metadata.Parsed := fun p => (hp.metadata p).symm ▸ hparsed p
  have hstart : ∀ n, recorded (commitStart x.mem db).world.db n = (recorded db n).map Metadata.written := by
    intro n
    rw [recorded_written hr.ok]
    exact recorded_congr rfl
  obtain ⟨hrefused, -⟩ | ⟨-, st, hloop, hw⟩ | ⟨hfailed, -⟩ := transCommit_ends hcommit
  · exact absurd hok hrefused
  · obtain ⟨hr', hrec⟩ := commitLoop_recorded hdry hparsed' x.prepared.plan (fun _ => rfl) hr
      (prepareOK_planOK hf hp).pkgs hstart hloop
    rw [hw]
    exact ⟨hr', fun n => (recorded_congr rfl).trans (hrec n)⟩
  · exact absurd hok hfailed

theorem needsB_parsed (p : Ptr) : (needsB p).metadata.Parsed := by
  unfold needsB
  split
  · intro c hc
    rw [List.mem_singleton.1 hc]
    exact ⟨some (cstr "b"), by decide⟩
  · intro c hc
    cases hc

theorem newDb_recorded (n : CStr) : recorded (dbOpen true true) n = none := rfl

theorem newDb_parsed : ParsedRecords (dbOpen true true) := fun n j hj => by cases hj

/-- `a` is queued and brings in the candidate `b`. -/
theorem needsB_transaction : ∃ x : Transaction, x.On (dbOpen true true) ∧ x.queuedMem = needsB ∧
    x.queued = { installPkgs := [1], candidatePkgs := [2] } ∧ x.err = .ok ∧ x.prepared.dryRun = false ∧
    (recorded x.world.db (cstr "a")).isSome ∧ (recorded x.world.db (cstr "b")).isSome := by
  have hruns : ∃ mem t w, transPrepare (fun _ => none) needsB (dbOpen true true) { installPkgs := [1], candidatePkgs := [2] } =
      some (.ok, mem, t) ∧ (transCommit {} mem (dbOpen true true) t).map (fun r => (r.1, r.2.2)) = some (.ok, w) ∧
      t.dryRun = false ∧ (recorded w.db (cstr "a")).isSome ∧ (recorded w.db (cstr "b")).isSome :=
    ⟨_, _, _, rfl, rfl, rfl, rfl, rfl⟩
  obtain ⟨mem, t, w, hprep, hcommit, hdry, ha, hb⟩ := hruns
  obtain ⟨⟨err, trans, w'⟩, hrun, heq⟩ := Option.map_eq_some_iff.1 hcommit
  simp only [Prod.mk.injEq] at heq
  obtain ⟨rfl, rfl⟩ := heq
  exact ⟨⟨fun _ => none, {}, needsB, _, mem, t, .ok, w'⟩,
    ⟨Queued.candidate 2 (Queued.install 1 Queued.new), hprep, trans, hrun⟩, rfl, rfl, rfl, hdry, ha, hb⟩

/-- The commit leaves what is planned. -/
theorem recorded_done_candidate : ∃ x : Transaction, x.On (dbOpen true true) ∧ (recorded x.world.db (cstr "b")).isSome ∧
    ∀ n, recorded x.world.db n =
      (applyPlan x.mem x.prepared.plan (recorded (dbOpen true true)) n).map Metadata.written := by
  obtain ⟨x, hx, hmem, -, hok, hdry, -, hb⟩ := needsB_transaction
  exact ⟨x, hx, hb, (hx.recorded_done newDb_parsed (fun p => hmem ▸ needsB_parsed p) hdry hok).2⟩

/-- **A commit that fails takes away what it has removed**, but for what it had upgraded, and
changes no other record. -/
theorem Transaction.On.recorded_failed {x : Transaction} (h : x.On db) (hr : ParsedRecords db)
    (hfail : x.err ≠ .ok) (hlost : x.world.unrestored = []) :
    ∃ done rest, x.prepared.plan = done ++ rest ∧
      ∀ n, x.world.db.main.get n = if n ∈ goneNames done then none else db.main.get n := by
  obtain ⟨trans, hcommit⟩ := h.committed
  have hf := queued_fresh h.queued
  obtain ⟨g, order, installs, removals, hp⟩ := transPrepare_ok hf h.prepared
  have hplan := prepareOK_planOK hf hp
  have hnil : ∀ n, n ∉ goneNames [] := fun n hn => by cases hn
  have hsame : ∀ {w : World}, w.db.main = db.main →
      ∀ n, w.db.main.get n = if n ∈ goneNames [] then none else db.main.get n := by
    intro w hw n
    rw [if_neg (hnil n), hw]
  obtain ⟨-, hw⟩ | ⟨hok, -⟩ | ⟨-, st, w₁, hloop, hback, hlost₁, hw⟩ := transCommit_ends hcommit
  · exact ⟨[], x.prepared.plan, rfl, hsame (by rw [hw])⟩
  · exact absurd hok hfail
  by_cases hdry : x.prepared.dryRun = true
  · obtain rfl : st = commitStart x.mem db := commitLoop_idle hdry _ hloop
    obtain rfl : (commitStart x.mem db).world = w₁ := Option.some.inj hback
    exact ⟨[], x.prepared.plan, rfl, hsame (by rw [hw]; rfl)⟩
  have hdry' : x.prepared.dryRun = false := by simpa using hdry
  obtain ⟨done, step, rest, st₁, hsplit, hdone, hstep⟩ := commitLoop_failed _ hloop
  rw [Nat.zero_add] at hstep
  have hsplit' : x.prepared.plan = done ++ [step] ++ rest := by rw [hsplit]; simp
  have hranked : (done ++ [step]).Pairwise fun a b => a.op.rank ≤ b.op.rank :=
    (List.pairwise_append.1 (hsplit' ▸ hplan.ranked)).1
  have hpkgs : ∀ s ∈ done ++ [step], s.op ≠ .remove → ∃ p, s.pkg = some p ∧ (x.mem p).metadata.name = some s.pkgName :=
    fun s hs => hplan.pkgs s (by rw [hsplit']; exact List.mem_append_left _ hs)
  -- an install is of a package that is not recorded
  have hfresh : ∀ s ∈ done ++ [step], s.op = .install → db.main.get s.pkgName = none := by
    intro s hs hop
    have hnot := (h.shaped hr.ok).fresh s (by rw [hsplit']; exact List.mem_append_left _ hs) hop
    rw [versionOf_eq] at hnot
    cases hj : db.main.get s.pkgName with
    | none => rfl
    | some j =>
      obtain ⟨pkg, -, -, rfl⟩ := hr s.pkgName j hj
      rw [hj, Option.bind_some, recordVersion_toJson] at hnot
      cases hnot
  have hinv : RunInv x.mem db done st₁ :=
    RunInv.loop hr hdry' done (commitStart_inv hr.ok)
      ⟨(List.pairwise_append.1 hranked).1, fun s hs => hpkgs s (List.mem_append_left _ hs)⟩ hdone
  have hend : ∀ {undone : List TransStep} {later : List TransStep}, x.prepared.plan = undone ++ later →
      RunInv x.mem db undone st → (∀ s ∈ undone, s ∈ done ++ [step]) →
      ∃ done rest, x.prepared.plan = done ++ rest ∧
        ∀ n, x.world.db.main.get n = if n ∈ goneNames done then none else db.main.get n := by
    intro undone later heq hinv' hsub
    refine ⟨undone, later, heq, fun n => ?_⟩
    rw [hw]
    exact hinv'.undone (fun s hs => hfresh s (hsub s hs)) hback (hlost₁.symm.trans hlost) n
  obtain ⟨hinv', -⟩ | ⟨-, hinv', -⟩ := hinv.after hr hdry' hranked (hpkgs step (by simp)) hstep
  · exact hend hsplit hinv' fun s hs => List.mem_append_left _ hs
  · exact hend hsplit' hinv' fun s hs => hs

end Apg
