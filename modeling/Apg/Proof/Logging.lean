import Apg.Proof.Commit
import Apg.Proof.Flags

/-!
# The journal of a commit

While a commit runs the database writes nothing to the journal of its own accord
(`Quiet`), so a step appends the one entry its end calls for (`commitStep_appends`),
and a rollback one for each step it undoes.

The table of the journal lies among the records. It can be made as long as no
package has its name, and once it is there no package can take that name
(`Barred`): if the first entry of a commit is written, so are all the others.

* `transCommit_journal`: **the calls of `journal_write` in a commit, whatever step it fails at.**
-/

namespace Apg

variable {out : Outside} {t : ApgTrans} {i : ℕ} {step : TransStep} {st : CommitState} {p : Ptr} {db db' : Db}

/-! ## The database is silent -/

/-- The table of the journal is there, and no package has its name. -/
structure Barred (db : Db) : Prop where
  free : db.main.get (cstr "journal") = none
  made : cstr "journal" ∈ db.namedDbs

/-- The journal is as it was, and stays suppressed. -/
structure Quiet (db db' : Db) : Prop where
  journal : db'.journal = db.journal
  suppressed : db'.suppressJournal = true
  barred : Barred db → Barred db'

theorem Quiet.refl (h : db.suppressJournal = true) : Quiet db db := ⟨rfl, h, id⟩

theorem addTxn_quiet {name : CStr} {pkg : Package} (hsup : db.suppressJournal = true)
    (h : addTxn db name pkg = some db') : Quiet db db' := by
  obtain ⟨hjournal, hsame, hnamed⟩ := addTxn_journal h
  refine ⟨hjournal, hsame.trans hsup, fun hb => ⟨?_, hnamed ▸ hb.made⟩⟩
  -- the name of the table is refused, so it is another record that was put
  have hne : cstr "journal" ≠ name := fun heq => addTxn_unreserved h (heq ▸ hb.made)
  rw [(addTxn_spec h).main, Table.get_put, if_neg hne]
  exact hb.free

theorem dbAdd_quiet {io : ℕ → Rc} {pkg : Package} {ok : Bool} (hsup : db.suppressJournal = true)
    (h : dbAdd io db pkg = some (ok, db')) : Quiet db db' := by
  unfold dbAdd at h
  split at h
  · simp only [Option.some.injEq, Prod.mk.injEq] at h
    rw [← h.2]
    exact Quiet.refl hsup
  cases hname : pkg.metadata.name with
  | none => simp [hname] at h
  | some name =>
    simp only [hname, Option.some.injEq, Prod.mk.injEq] at h
    obtain ⟨-, hdb⟩ := h
    rcases dbAddLoop_cases io db name pkg mapGrowAttempts 0 with ⟨db₁, htxn, hloop⟩ | ⟨rc, -, hloop⟩
    · have hquiet := addTxn_quiet hsup htxn
      rw [hloop, if_pos hquiet.suppressed] at hdb
      rw [← hdb]
      exact hquiet
    · rw [hloop, if_pos hsup] at hdb
      rw [← hdb]
      exact Quiet.refl hsup

theorem removeTxn_quiet (hsup : db.suppressJournal = true) (io : Rc) (name : CStr) :
    Quiet db (removeTxn io db name).2 := by
  obtain ⟨hjournal, hsame, hnamed⟩ := removeTxn_journal io db name
  refine ⟨hjournal, hsame.trans hsup, fun hb => ⟨?_, hnamed ▸ hb.made⟩⟩
  rcases removeTxn_cases io db name with ⟨db₁, htxn, heq⟩ | ⟨rc, -, heq⟩
  · rw [heq, htxn.main, Table.get_del]
    split
    · rfl
    · exact hb.free
  · rw [heq]
    exact hb.free

theorem dbRemove_quiet (hsup : db.suppressJournal = true) (io : Rc) (name : CStr) :
    Quiet db (dbRemove io db name).2 := by
  have hquiet := removeTxn_quiet hsup io name
  unfold dbRemove
  split
  · exact Quiet.refl hsup
  · simp only
    rw [if_pos hquiet.suppressed]
    exact hquiet

/-! ## Entries -/

/-- The entry of a step that has been attempted; an upgrade counts as an install. -/
def TransStep.entry (step : TransStep) (ok : Bool) : JournalEntry :=
  ⟨if step.op = .remove then .remove else .install, some step.pkgName, step.pkgVersion, ok, step.explicitOp⟩

/-- The entry of a step that has been undone. -/
def TransStep.undoneEntry (step : TransStep) : JournalEntry :=
  ⟨.rollback, some step.pkgName, step.pkgVersion, true, false⟩

/-- `entries` have been appended, and the next one can be. -/
structure Appends (db db' : Db) (entries : List JournalEntry) : Prop where
  journal : db'.journal = db.journal ++ entries
  suppressed : db'.suppressJournal = true
  barred : Barred db'

theorem Appends.trans {db'' : Db} {es es' : List JournalEntry} (h : Appends db db' es) (h' : Appends db' db'' es') :
    Appends db db'' (es ++ es') :=
  ⟨by rw [h'.journal, h.journal, List.append_assoc], h'.suppressed, h'.barred⟩

/-- An entry is written where no package has the name of the table. -/
theorem Quiet.write (h : Quiet db db') (hfree : db'.main.get (cstr "journal") = none) (e : JournalEntry) :
    Appends db (journalWrite db' e) [e] := by
  unfold journalWrite
  rw [if_pos hfree]
  refine ⟨by simp [h.journal], h.suppressed, ⟨hfree, ?_⟩⟩
  show cstr "journal" ∈ if cstr "journal" ∈ db'.namedDbs then db'.namedDbs else db'.namedDbs ++ [cstr "journal"]
  split
  · assumption
  · simp

/-! ## Steps -/

theorem undoneToo_db {had : Bool} (hop : step.op ≠ .remove) : undoneToo out i step had .db = true := by
  unfold undoneToo
  cases h : step.op with
  | install => rfl
  | upgrade => rfl
  | remove => exact absurd h hop

/-- The steps that join those to be undone. -/
def joined (out : Outside) (i : ℕ) (step : TransStep) (st : CommitState) : StepEnd → List TransStep
  | .done _ => if step.op = .remove then [] else [step]
  | .failed err _ => if undoneToo out i step (dbGet st.world.db step.pkgName).isSome err then [step] else []

/-- Whether a step is written down as completed. -/
def StepEnd.ok : StepEnd → Bool
  | .done _ => true
  | .failed _ _ => false

/-- What a step writes to the journal, and what it leaves for a rollback. -/
structure Logged (out : Outside) (i : ℕ) (step : TransStep) (st : CommitState) (r : StepEnd) : Prop where
  wrote : ∃ db, Quiet st.world.db db ∧ r.state.world.db = journalWrite db (step.entry r.ok)
  committed : r.state.committed.map (·.step) = st.committed.map (·.step) ++ joined out i step st r
  error : ∀ err st', r = .failed err st' → err ≠ .ok

theorem installPackageInRoot_db (run : InstallRun) (w : World) (p : Ptr) :
    (installPackageInRoot run w p).2.db = w.db := by
  unfold installPackageInRoot
  cases run.files with
  | none => cases run.stage <;> rfl
  | some files => cases run.stage <;> rfl

theorem recordPkg_logged {previous : Option Package} {r : StepEnd} {st₀ : CommitState} (hop : step.op ≠ .remove)
    (hsup : st₀.world.db.suppressJournal = true) {w : World} (hdb : w.db = st₀.world.db)
    (h : recordPkg out i step p previous ⟨w, st₀.committed⟩ = some r) : Logged out i step st₀ r := by
  unfold recordPkg at h
  obtain ⟨⟨ok, db'⟩, hadd, rfl⟩ := Option.map_eq_some_iff.1 h
  simp only [hdb] at hadd
  have hquiet := dbAdd_quiet hsup hadd
  have hentry : ∀ ok, step.entry ok = ⟨.install, some step.pkgName, step.pkgVersion, ok, step.explicitOp⟩ := by
    intro ok
    unfold TransStep.entry
    rw [if_neg hop]
  cases ok with
  | true =>
    refine ⟨⟨db', hquiet, ?_⟩, ?_, ?_⟩
    · show _ = journalWrite db' (step.entry true)
      rw [hentry]
      rfl
    · simp [StepEnd.state, joined, hop]
    · intro err st' heq
      simp at heq
  | false =>
    refine ⟨⟨db', hquiet, ?_⟩, ?_, ?_⟩
    · show _ = journalWrite db' (step.entry false)
      rw [hentry]
      rfl
    · simp [StepEnd.state, joined, undoneToo_db hop]
    · intro err st' heq
      simp only [Bool.false_eq_true, if_false, StepEnd.failed.injEq] at heq
      rw [← heq.1]
      decide

theorem failInstall_logged {err : TransError} {st₀ : CommitState} (hdry : t.dryRun = false) (hop : step.op ≠ .remove)
    (hsup : st₀.world.db.suppressJournal = true) (hdb : st.world.db = st₀.world.db) (herr : err ≠ .ok)
    (hcom : st.committed.map (·.step) = st₀.committed.map (·.step) ++
      if undoneToo out i step (dbGet st₀.world.db step.pkgName).isSome err then [step] else []) :
    Logged out i step st₀ (failInstall t step err st) := by
  unfold failInstall
  rw [if_neg (by simp [hdry])]
  refine ⟨⟨st.world.db, by rw [hdb]; exact Quiet.refl hsup, ?_⟩, hcom, ?_⟩
  · show _ = journalWrite st.world.db (step.entry false)
    unfold TransStep.entry
    rw [if_neg hop]
    rfl
  · intro err' st' heq
    rw [StepEnd.failed.injEq] at heq
    rw [← heq.1]
    exact herr

theorem commitInstall_logged {r : StepEnd} (hdry : t.dryRun = false) (hop : step.op = .install)
    (hsup : st.world.db.suppressJournal = true) (h : commitInstall out t i step p st = some r) :
    Logged out i step st r := by
  have hne : step.op ≠ .remove := by simp [hop]
  have hdb := installPackageInRoot_db (out.install i) st.world p
  unfold commitInstall at h
  split at h
  · rw [Option.some.injEq] at h
    rw [← h]
    exact failInstall_logged hdry hne hsup rfl (by decide) (by simp [undoneToo, hop])
  rw [if_neg (by simp [hdry])] at h
  simp only at h
  split at h
  · rw [Option.some.injEq] at h
    rw [← h]
    exact failInstall_logged hdry hne hsup hdb (by decide) (by simp [undoneToo, hop])
  · exact recordPkg_logged hne hsup hdb h

theorem commitUpgrade_logged {r : StepEnd} (hdry : t.dryRun = false) (hop : step.op = .upgrade)
    (hsup : st.world.db.suppressJournal = true) (h : commitUpgrade out t i step p st = some r) :
    Logged out i step st r := by
  have hne : step.op ≠ .remove := by simp [hop]
  have hdb := installPackageInRoot_db (out.install i) st.world p
  unfold commitUpgrade at h
  split at h
  · rw [Option.some.injEq] at h
    rw [← h]
    exact failInstall_logged hdry hne hsup rfl (by decide) (by simp [undoneToo, hop])
  rw [if_neg (by simp [hdry])] at h
  simp only at h
  split at h
  · rename_i hbackup
    rw [Option.some.injEq] at h
    rw [← h]
    exact failInstall_logged hdry hne hsup rfl (by decide) (by simpa [undoneToo, hop, Option.isSome_iff_ne_none] using hbackup)
  rename_i hbackup
  split at h
  · rw [Option.some.injEq] at h
    rw [← h]
    exact failInstall_logged hdry hne hsup hdb (by decide) (by simpa [undoneToo, hop, Option.isSome_iff_ne_none] using hbackup)
  · exact recordPkg_logged hne hsup hdb h

theorem commitRemove_logged (hdry : t.dryRun = false) (hop : step.op = .remove)
    (hsup : st.world.db.suppressJournal = true) : Logged out i step st (commitRemove out t i step st) := by
  unfold commitRemove
  rw [if_neg (by simp [hdry])]
  simp only
  generalize hr : (if out.preRemove i then dbRemove (out.removeIo i) st.world.db step.pkgName
    else (false, st.world.db)) = r
  obtain ⟨ok, db⟩ := r
  have hquiet : Quiet st.world.db db := by
    split at hr
    · have := dbRemove_quiet hsup (out.removeIo i) step.pkgName
      rw [hr] at this
      exact this
    · rw [Prod.mk.injEq] at hr
      exact hr.2 ▸ Quiet.refl hsup
  have hentry : ∀ ok, step.entry ok = ⟨.remove, some step.pkgName, step.pkgVersion, ok, step.explicitOp⟩ := by
    intro ok
    unfold TransStep.entry
    rw [if_pos hop]
  cases ok with
  | true =>
    refine ⟨⟨db, hquiet, ?_⟩, ?_, ?_⟩
    · show _ = journalWrite db (step.entry true)
      rw [hentry]
      rfl
    · simp [StepEnd.state, joined, hop]
    · intro err st' heq
      simp at heq
  | false =>
    refine ⟨⟨db, hquiet, ?_⟩, ?_, ?_⟩
    · show _ = journalWrite db (step.entry false)
      rw [hentry]
      rfl
    · simp [StepEnd.state, joined, undoneToo, hop]
    · intro err st' heq
      simp only [Bool.false_eq_true, if_false, StepEnd.failed.injEq] at heq
      rw [← heq.1]
      decide

theorem commitStep_logged {r : StepEnd} (hdry : t.dryRun = false) (hsup : st.world.db.suppressJournal = true)
    (h : commitStep out t i step st = some r) : Logged out i step st r := by
  unfold commitStep at h
  split at h
  · rename_i p hop hp
    exact commitInstall_logged hdry hop hsup h
  · rename_i p hop hp
    exact commitUpgrade_logged hdry hop hsup h
  · rename_i hop
    rw [Option.some.injEq] at h
    rw [← h]
    exact commitRemove_logged hdry hop hsup
  · exact absurd h (by simp)

/-- A step appends one entry, if one can be written when it ends. -/
theorem Logged.appends {r : StepEnd} (h : Logged out i step st r)
    (hfree : r.state.world.db.main.get (cstr "journal") = none) :
    Appends st.world.db r.state.world.db [step.entry r.ok] := by
  obtain ⟨db, hquiet, heq⟩ := h.wrote
  rw [heq]
  refine hquiet.write ?_ _
  rw [heq, (journalWrite_tables db _).main] at hfree
  exact hfree

/-- Behind the first entry it always can. -/
theorem Logged.stays {r : StepEnd} (h : Logged out i step st r) (hb : Barred st.world.db) :
    Appends st.world.db r.state.world.db [step.entry r.ok] := by
  obtain ⟨db, hquiet, heq⟩ := h.wrote
  rw [heq]
  exact hquiet.write (hquiet.barred hb).free _

/-! ## The loop -/

/-- What is written while the steps are done one after the other. -/
def LoopLogged (out : Outside) (t : ApgTrans) (i : ℕ) (steps : List TransStep) (st : CommitState) : StepEnd → Prop
  | .done st' => Appends st.world.db st'.world.db (steps.map (·.entry true)) ∧
      st'.committed.map (·.step) = st.committed.map (·.step) ++ steps.filter fun s => s.op ≠ .remove
  | .failed err st' => err ≠ .ok ∧ ∃ done step rest st₁, steps = done ++ step :: rest ∧
      commitLoop out t i done st = some (.done st₁) ∧
      commitStep out t (i + done.length) step st₁ = some (.failed err st') ∧
      Appends st.world.db st'.world.db (done.map (·.entry true) ++ [step.entry false]) ∧
      st'.committed.map (·.step) = st.committed.map (·.step) ++ ((done.filter fun s => s.op ≠ .remove) ++
        if undoneToo out (i + done.length) step (dbGet st₁.world.db step.pkgName).isSome err then [step] else [])

/-- The rest of the loop, behind a step that is done. -/
theorem LoopLogged.cons {steps : List TransStep} {st₁ : CommitState} {r : StepEnd}
    (hstep : commitStep out t i step st = some (.done st₁)) (hlogged : Logged out i step st (.done st₁))
    (happ : Appends st.world.db st₁.world.db [step.entry true]) (h : LoopLogged out t (i + 1) steps st₁ r) :
    LoopLogged out t i (step :: steps) st r := by
  have hcom : st₁.committed.map (·.step) = st.committed.map (·.step) ++ [step].filter fun s => s.op ≠ .remove := by
    have := hlogged.committed
    by_cases hop : step.op = .remove
    · simpa [StepEnd.state, joined, hop] using this
    · simpa [StepEnd.state, joined, hop] using this
  have hfilter : ∀ l : List TransStep, (step :: l).filter (fun s => s.op ≠ .remove) =
      [step].filter (fun s => s.op ≠ .remove) ++ l.filter fun s => s.op ≠ .remove := by
    intro l
    rw [← List.filter_append, List.singleton_append]
  cases r with
  | done st' =>
    refine ⟨?_, ?_⟩
    · rw [List.map_cons]
      exact happ.trans h.1
    · rw [h.2, hcom, hfilter steps, List.append_assoc]
  | failed err st' =>
    obtain ⟨herr, done, s, rest, st₂, hsplit, hloop, hfail, happ', hcom'⟩ := h
    have hlen : i + (step :: done).length = i + 1 + done.length := by
      rw [List.length_cons]
      omega
    refine ⟨herr, step :: done, s, rest, st₂, by rw [hsplit, List.cons_append], ?_, ?_, ?_, ?_⟩
    · rw [commitLoop, hstep]
      exact hloop
    · rw [hlen]
      exact hfail
    · rw [List.map_cons, List.cons_append]
      exact happ.trans happ'
    · rw [hcom', hcom, hlen, hfilter done, List.append_assoc, List.append_assoc]

/-- A step that fails ends the loop. -/
theorem LoopLogged.fail {steps : List TransStep} {err : TransError} {st' : CommitState}
    (hstep : commitStep out t i step st = some (.failed err st')) (hlogged : Logged out i step st (.failed err st'))
    (happ : Appends st.world.db st'.world.db [step.entry false]) :
    LoopLogged out t i (step :: steps) st (.failed err st') :=
  ⟨hlogged.error err st' rfl, [], step, steps, st, rfl, rfl, hstep, happ, hlogged.committed⟩

theorem commitLoop_logged (hdry : t.dryRun = false) : ∀ (steps : List TransStep) (i : ℕ) {st : CommitState}
    {r : StepEnd}, st.world.db.suppressJournal = true → Barred st.world.db → commitLoop out t i steps st = some r →
    LoopLogged out t i steps st r := by
  intro steps
  induction steps with
  | nil =>
    intro i st r hsup hb h
    rw [commitLoop, Option.some.injEq] at h
    rw [← h]
    exact ⟨⟨by simp, hsup, hb⟩, by simp⟩
  | cons step steps ih =>
    intro i st r hsup hb h
    rw [commitLoop] at h
    cases hstep : commitStep out t i step st with
    | none =>
      rw [hstep] at h
      exact absurd h (by simp)
    | some e =>
      have hlogged := commitStep_logged hdry hsup hstep
      have happ := hlogged.stays hb
      rw [hstep] at h
      cases e with
      | done st₁ => exact LoopLogged.cons hstep hlogged happ (ih (i + 1) happ.suppressed happ.barred h)
      | failed err st₁ =>
        rw [← Option.some.inj h]
        exact LoopLogged.fail hstep hlogged happ

/-! ## Rolling back -/

theorem upgradeBackupRestore_quiet {w w' : World} {idx : ℕ} {name : CStr} {previous : Package}
    (hsup : w.db.suppressJournal = true) (h : upgradeBackupRestore out w idx name previous = some w') :
    Quiet w.db w'.db := by
  unfold upgradeBackupRestore at h
  simp only at h
  obtain ⟨⟨ok, db'⟩, hadd, rfl⟩ := Option.map_eq_some_iff.1 h
  exact dbAdd_quiet hsup hadd

theorem rollbackOne_appends {w w' : World} {c : Committed} (hsup : w.db.suppressJournal = true) (hb : Barred w.db)
    (h : rollbackOne out w c = some w') : Appends w.db w'.db [c.step.undoneEntry] := by
  unfold rollbackOne at h
  simp only at h
  obtain ⟨w₁, hundone, rfl⟩ := Option.map_eq_some_iff.1 h
  -- a file list is put back or a record taken away, neither with an entry of its own
  have hquiet : Quiet w.db w₁.db := by
    split at hundone
    · exact upgradeBackupRestore_quiet hsup hundone
    · rw [← Option.some.inj hundone]
      unfold undoInstall
      exact dbRemove_quiet hsup (out.undoIo c.idx) c.step.pkgName
  exact hquiet.write (hquiet.barred hb).free _

theorem rollbackCommitted_appends : ∀ (committed : List Committed) {w w' : World},
    w.db.suppressJournal = true → Barred w.db → rollbackCommitted out w committed = some w' →
    Appends w.db w'.db (committed.reverse.map fun c => c.step.undoneEntry) := by
  intro committed
  induction committed with
  | nil =>
    intro w w' hsup hb h
    rw [rollbackCommitted, Option.some.injEq] at h
    rw [← h]
    exact ⟨by simp, hsup, hb⟩
  | cons c committed ih =>
    intro w w' hsup hb h
    rw [rollbackCommitted] at h
    obtain ⟨w₁, hrest, hone⟩ := Option.bind_eq_some_iff.1 h
    have happ := ih hsup hb hrest
    rw [List.reverse_cons, List.map_append, List.map_singleton]
    exact happ.trans (rollbackOne_appends happ.suppressed happ.barred hone)

/-! ## The commit -/

/-- A commit that is not refused before its first step. -/
structure PastKeyring (out : Outside) (t : ApgTrans) : Prop where
  prepared : t.prepared = true
  fresh : t.committed = false
  keyring : t.requireSignature = true → out.keyringLoad = true

/-- The first entry can be written: no package has the name of the journal's table
when it is. -/
def JournalOpens (out : Outside) (t : ApgTrans) (mem : Heap) (db : Db) : Prop :=
  ∀ step rest r, t.plan = step :: rest → commitStep out t 0 step (commitStart mem db) = some r →
    r.state.world.db.main.get (cstr "journal") = none

/-- It can where an earlier call has made the table. -/
theorem Barred.opens {mem : Heap} (h : Barred db) (hdry : t.dryRun = false) : JournalOpens out t mem db := by
  intro step rest r _ hstep
  have hlogged := commitStep_logged hdry (rfl : (commitStart mem db).world.db.suppressJournal = true) hstep
  exact (hlogged.stays ⟨h.free, h.made⟩).barred.free

theorem transCommit_loop_logged {mem : Heap} {r : StepEnd} (hdry : t.dryRun = false)
    (hopens : JournalOpens out t mem db) (hne : t.plan ≠ [])
    (h : commitLoop out t 0 t.plan (commitStart mem db) = some r) :
    LoopLogged out t 0 t.plan (commitStart mem db) r := by
  obtain ⟨step, rest, hplan⟩ := List.exists_cons_of_ne_nil hne
  rw [hplan, commitLoop] at h
  rw [hplan]
  cases hstep : commitStep out t 0 step (commitStart mem db) with
  | none =>
    rw [hstep] at h
    exact absurd h (by simp)
  | some e =>
    have hlogged := commitStep_logged hdry (rfl : (commitStart mem db).world.db.suppressJournal = true) hstep
    have happ := hlogged.appends (hopens step rest e hplan hstep)
    rw [hstep] at h
    cases e with
    | done st₁ =>
      exact LoopLogged.cons hstep hlogged happ (commitLoop_logged hdry rest 1 happ.suppressed happ.barred h)
    | failed err st₁ =>
      rw [← Option.some.inj h]
      exact LoopLogged.fail hstep hlogged happ

/-- The entries that a commit is to make: one for each attempted step, in the order of the plan,
and if the last one failed one for each step undone, the last one first. -/
def CommitEntries (out : Outside) (t : ApgTrans) (mem : Heap) (db : Db) (err : TransError) (es : List JournalEntry) : Prop :=
  (err = .ok ∧ es = t.plan.map (·.entry true)) ∨
    err ≠ .ok ∧ ∃ done step rest st st', t.plan = done ++ step :: rest ∧
      commitLoop out t 0 done (commitStart mem db) = some (.done st) ∧
      commitStep out t done.length step st = some (.failed err st') ∧
      es = done.map (·.entry true) ++ [step.entry false] ++ st'.committed.reverse.map (·.step.undoneEntry) ∧
      st'.committed.map (·.step) = (done.filter fun s => s.op ≠ .remove) ++
        if undoneToo out done.length step (dbGet st.world.db step.pkgName).isSome err then [step] else []

/-- **The calls of `journal_write` in a commit.** Whatever `trans_commit` returns, the journal is
no longer suppressed. -/
theorem transCommit_journal {mem : Heap} {err : TransError} {t' : ApgTrans} {w : World}
    (h : transCommit out mem db t = some (err, t', w)) :
    (db.suppressJournal = false → w.db.suppressJournal = false) ∧
      (PastKeyring out t → t.dryRun = false → JournalOpens out t mem db →
        w.db.suppressJournal = false ∧ ∃ es, w.db.journal = db.journal ++ es ∧ CommitEntries out t mem db err es) := by
  obtain ⟨hrefused, rfl⟩ | ⟨st, hloop, rfl, rfl⟩ | ⟨st', w₁, hloop, hback, rfl⟩ := transCommit_cases h
  · refine ⟨id, fun hpast => ?_⟩
    rcases hrefused with hprep | hcom | ⟨hreq, hkey⟩
    · exact absurd hpast.prepared (by simp [hprep])
    · exact absurd hpast.fresh (by simp [hcom])
    · exact absurd (hpast.keyring hreq) (by simp [hkey])
  -- from here on the suppression is lifted on the way out
  · refine ⟨fun _ => rfl, fun _ hdry hopens => ⟨rfl, _, ?_, Or.inl ⟨rfl, rfl⟩⟩⟩
    by_cases hnil : t.plan = []
    · rw [hnil, commitLoop, Option.some.injEq, StepEnd.done.injEq] at hloop
      rw [← hloop, hnil]
      simp [commitStart]
    · exact (transCommit_loop_logged hdry hopens hnil hloop).1.journal
  · refine ⟨fun _ => rfl, fun _ hdry hopens => ⟨rfl, ?_⟩⟩
    have hne : t.plan ≠ [] := by
      intro hnil
      rw [hnil, commitLoop] at hloop
      exact absurd hloop (by simp)
    obtain ⟨herr, done, step, rest, st, hsplit, hdone, hfail, happ, hcom⟩ :=
      transCommit_loop_logged hdry hopens hne hloop
    have hundone := rollbackCommitted_appends _ happ.suppressed happ.barred hback
    rw [Nat.zero_add] at hfail hcom
    refine ⟨_, ?_, Or.inr ⟨herr, done, step, rest, st, st', hsplit, hdone, hfail, rfl, hcom⟩⟩
    show w₁.db.journal = _
    rw [hundone.journal, happ.journal, List.append_assoc]
    rfl

end Apg
