import Apg.Proof.Commit
import Apg.Spec.Root

/-!
# `trans_commit` on a root and its records

The files are added to `trans_commit` without a change to what it does to the records
(`transCommit_refines`), so what is known of those holds on a root too.

* `transCommit_dry`: **a dry run is a pure preview.**
* `transCommit_gated`: **no package is installed or recorded unless its signature is
  good**, if signatures are asked for.
-/

namespace Apg

namespace Root

variable {io : RootIo} {t : ApgTrans} {i : ℕ} {step : TransStep} {p : Ptr}

theorem rel_none_left {α β : Type*} {R : α → β → Prop} {b : Option β} (h : Option.Rel R none b) : b = none := by
  cases h; rfl

theorem rel_some_left {α β : Type*} {R : α → β → Prop} {a : α} {b : Option β} (h : Option.Rel R (some a) b) :
    ∃ b', b = some b' ∧ R a b' := by
  cases h with
  | some h => exact ⟨_, rfl, h⟩

/-! ## The records -/

/-- The same records and package objects. -/
structure Agree (s : State) (w : World) : Prop where
  db : s.db = w.db
  mem : s.mem = w.mem
  unrestored : s.unrestored = w.unrestored

def Undo.committed (u : Undo) : Committed := ⟨u.idx, u.step, u.backup.map (·.previous)⟩

structure AgreeLoop (l : Loop) (st : CommitState) : Prop where
  state : Agree l.state st.world
  committed : l.committed.map Undo.committed = st.committed

def AgreeEnd : Outcome → StepEnd → Prop
  | .done l, .done st => AgreeLoop l st
  | .failed err l, .failed err' st => err = err' ∧ AgreeLoop l st
  | _, _ => False

theorem Agree.journal {s : State} {w : World} (h : Agree s w) (op : JournalOp) (step : TransStep) (ok explicitOp : Bool) :
    Agree (s.journal op step ok explicitOp) (w.journal op step ok explicitOp) := by
  refine ⟨?_, h.mem, h.unrestored⟩
  show journalWrite s.db _ = journalWrite w.db _
  rw [h.db]

/-- Nothing but the log and the files is different. -/
theorem Agree.of_same {s s' : State} {w : World} (h : Agree s w) (hdb : s'.db = s.db) (hmem : s'.mem = s.mem)
    (hlost : s'.unrestored = s.unrestored) : Agree s' w :=
  ⟨hdb.trans h.db, hmem.trans h.mem, hlost.trans h.unrestored⟩

theorem Agree.files {s : State} {w : World} (h : Agree s w) (fs : Host) : Agree { s with fs := fs } w :=
  h.of_same rfl rfl rfl

/-- The outcome of an installation as `Commit` is told about it. -/
def runOf (r : Installed) : InstallRun where
  stage := if r.ok then .done else if r.files = none then .unpack else .postInstall
  files := r.files

/-- What `Commit` is told about the step. -/
def stepRun (io : RootIo) (i : ℕ) (p : Ptr) (s : State) : InstallRun :=
  runOf (installInRoot io.dirs (io.install i) ((s.mem p).metadata.name.getD []) s.fs)

theorem install_refines {s : State} {w : World} (h : Agree s w) (io : RootIo) (i : ℕ) (p : Ptr)
    (events : List Event) :
    (installPackageInRoot (stepRun io i p s) w p).1 = (install io i p (s.note events)).1 ∧
      Agree (install io i p (s.note events)).2 (installPackageInRoot (stepRun io i p s) w p).2 := by
  have hmem : s.mem = w.mem := h.mem
  unfold install installPackageInRoot stepRun runOf State.note
  cases installInRoot io.dirs (io.install i) ((s.mem p).metadata.name.getD []) s.fs with
  | mk ok fs files =>
    cases ok <;> cases files <;> refine ⟨rfl, h.db, ?_, h.unrestored⟩ <;> simp [hmem]

/-- The records and the objects are as they were when files have been dropped. -/
theorem removeDroppedFiles_agree {s : State} {w : World} (h : Agree s w) (dirs : Dirs) (pkg : Package) :
    Agree (removeDroppedFiles dirs pkg s) w := by
  unfold removeDroppedFiles
  split
  · exact h
  · split
    · exact h
    · exact h.files _

theorem recordPkg_refines {l : Loop} {st : CommitState} (h : AgreeLoop l st) (out : Outside)
    (hadd : out.addIo = io.out.addIo) (backup : Option UpgradeBackup) :
    Option.Rel AgreeEnd (recordPkg io i step p backup l)
      (Apg.recordPkg out i step p (backup.map (·.previous)) st) := by
  unfold recordPkg Apg.recordPkg
  have hcommitted : (l.committed ++ [Undo.mk i step backup]).map Undo.committed =
      st.committed ++ [⟨i, step, backup.map (·.previous)⟩] := by
    rw [List.map_append, h.committed]; rfl
  simp only [Function.update_self, hadd, ← h.state.db, ← h.state.mem]
  cases dbAdd (io.out.addIo i) l.state.db { l.state.mem p with installedByHand := step.explicitOp } with
  | none => exact Option.Rel.none
  | some r =>
    obtain ⟨ok, db⟩ := r
    refine Option.Rel.some ?_
    cases ok with
    | true =>
      refine ⟨?_, hcommitted⟩
      apply Agree.journal
      exact ⟨rfl, rfl, h.state.unrestored⟩
    | false =>
      refine ⟨rfl, ?_, hcommitted⟩
      apply Agree.journal
      exact ⟨rfl, rfl, h.state.unrestored⟩

theorem failInstall_refines {l : Loop} {st : CommitState} (h : AgreeLoop l st) (err : TransError) :
    AgreeEnd (failInstall t step err l) (Apg.failInstall t step err st) := by
  unfold failInstall Apg.failInstall
  cases t.dryRun with
  | true => exact ⟨rfl, h⟩
  | false => exact ⟨rfl, h.state.journal _ _ _ _, h.committed⟩

/-- `Commit`, told about the archives and backups of this root. -/
def RootIo.told (io : RootIo) (runs : ℕ → InstallRun) (backups : ℕ → Bool) : Outside :=
  { io.out with install := runs, backup := backups }

theorem unverified_eq {l : Loop} {st : CommitState} (h : AgreeLoop l st) (runs : ℕ → InstallRun) (backups : ℕ → Bool) :
    unverified io t i p l.state = (t.requireSignature && !signed (io.told runs backups) i (st.world.mem p)) := by
  unfold unverified
  rw [h.state.mem]
  rfl

theorem commitInstall_refines {l : Loop} {st : CommitState} (h : AgreeLoop l st) {runs : ℕ → InstallRun}
    {backups : ℕ → Bool} (hrun : runs i = stepRun io i p l.state) :
    Option.Rel AgreeEnd (commitInstall io t i step p l)
      (Apg.commitInstall (io.told runs backups) t i step p st) := by
  obtain ⟨hok, hagree⟩ := install_refines h.state io i p (verification t i (l.state.mem p))
  unfold commitInstall Apg.commitInstall
  rw [unverified_eq h runs backups]
  split_ifs with h1 h2
  · exact Option.Rel.some (failInstall_refines h _)
  · exact Option.Rel.some h
  · have hruns : (io.told runs backups).install i = stepRun io i p l.state := hrun
    have hl : AgreeLoop ⟨_, l.committed⟩ ⟨_, st.committed⟩ := ⟨hagree, h.committed⟩
    simp only [hruns, hok]
    split_ifs
    · exact Option.Rel.some (failInstall_refines hl _)
    · exact recordPkg_refines hl _ rfl none

theorem upgradeBackupCreate_previous (io : RootIo) (i : ℕ) (pkgName : CStr) (s : State) :
    (upgradeBackupCreate io i pkgName s).2.map (·.previous) = dbGet s.db pkgName ∧
      ((upgradeBackupCreate io i pkgName s).1 = false → (upgradeBackupCreate io i pkgName s).2.isSome = true) := by
  unfold upgradeBackupCreate
  cases dbGet s.db pkgName with
  | none => exact ⟨rfl, by simp⟩
  | some previous =>
    simp only
    split
    · exact ⟨rfl, fun _ => rfl⟩
    · split
      · exact ⟨rfl, by simp⟩
      · split
        · exact ⟨rfl, by simp⟩
        · exact ⟨rfl, fun _ => rfl⟩

theorem commitUpgrade_refines {l : Loop} {st : CommitState} (h : AgreeLoop l st) {runs : ℕ → InstallRun}
    {backups : ℕ → Bool} (hrun : runs i = stepRun io i p l.state)
    (hb : backups i = (upgradeBackupCreate io i step.pkgName l.state).1) :
    Option.Rel AgreeEnd (commitUpgrade io t i step p l)
      (Apg.commitUpgrade (io.told runs backups) t i step p st) := by
  obtain ⟨hok, hagree⟩ := install_refines h.state io i p (verification t i (l.state.mem p))
  obtain ⟨hprev, hfail⟩ := upgradeBackupCreate_previous io i step.pkgName l.state
  rw [h.state.db] at hprev
  unfold commitUpgrade Apg.commitUpgrade
  rw [unverified_eq h runs backups]
  split_ifs with h1 h2
  · exact Option.Rel.some (failInstall_refines h _)
  · exact Option.Rel.some h
  have hruns : (io.told runs backups).install i = stepRun io i p l.state := hrun
  have hbs : (io.told runs backups).backup i = backups i := rfl
  have hnoted : upgradeBackupCreate io i step.pkgName (l.state.note (verification t i (l.state.mem p))) =
    upgradeBackupCreate io i step.pkgName l.state := rfl
  simp only [hruns, hbs, hb, ← hprev, hnoted]
  cases hc : upgradeBackupCreate io i step.pkgName l.state with
  | mk ok backup =>
    rw [hc] at hfail
    cases ok with
    | false =>
      have hsome : backup.isSome = true := hfail rfl
      have hl : AgreeLoop ⟨l.state.note (verification t i (l.state.mem p)), l.committed⟩ st :=
        ⟨h.state.of_same rfl rfl rfl, h.committed⟩
      simp only [Option.isSome_map, hsome, Bool.not_false, Bool.and_self, if_true]
      exact Option.Rel.some (failInstall_refines hl _)
    | true =>
      simp only [Bool.not_true, Bool.and_false, hok, Bool.false_eq_true, if_false]
      generalize hs : (install io i p (l.state.note (verification t i (l.state.mem p)))).2 = s₁ at hagree
      split_ifs
      · have hl : AgreeLoop ⟨_, l.committed ++ [Undo.mk i step backup]⟩
            ⟨_, st.committed ++ [⟨i, step, backup.map (·.previous)⟩]⟩ :=
          ⟨hagree, by rw [List.map_append, h.committed]; rfl⟩
        exact Option.Rel.some (failInstall_refines hl _)
      · -- only the files are different when the dropped ones are removed
        have hl : ∀ fs, AgreeLoop ⟨removeDroppedFiles io.dirs (s₁.mem p) { s₁ with fs := fs }, l.committed⟩
            ⟨_, st.committed⟩ :=
          fun fs => ⟨removeDroppedFiles_agree (hagree.files fs) _ _, h.committed⟩
        exact recordPkg_refines (hl _) _ rfl backup

theorem commitRemove_refines {l : Loop} {st : CommitState} (h : AgreeLoop l st) (runs : ℕ → InstallRun)
    (backups : ℕ → Bool) :
    AgreeEnd (commitRemove io t i step l) (Apg.commitRemove (io.told runs backups) t i step st) := by
  unfold commitRemove Apg.commitRemove
  by_cases hdry : t.dryRun = true
  · rw [if_pos hdry, if_pos hdry]; exact h
  rw [if_neg hdry, if_neg hdry]
  have hpre : (io.told runs backups).preRemove = io.out.preRemove := rfl
  have hrm : (io.told runs backups).removeIo = io.out.removeIo := rfl
  simp only [hpre, hrm, ← h.state.db]
  cases (if io.out.preRemove i = true then dbRemove (io.out.removeIo i) l.state.db step.pkgName
    else (false, l.state.db)) with
  | mk ok db =>
    cases ok with
    | true =>
      refine ⟨?_, h.committed⟩
      apply Agree.journal
      exact ⟨rfl, h.state.mem, h.state.unrestored⟩
    | false =>
      refine ⟨rfl, ?_, h.committed⟩
      apply Agree.journal
      exact ⟨rfl, h.state.mem, h.state.unrestored⟩

/-- One step does the same to the records, whatever `Commit` is told about the others. -/
theorem commitStep_refines (io : RootIo) (t : ApgTrans) (i : ℕ) (step : TransStep) (l : Loop) :
    ∃ run b, ∀ {st runs backups}, AgreeLoop l st → runs i = run → backups i = b →
      Option.Rel AgreeEnd (commitStep io t i step l) (Apg.commitStep (io.told runs backups) t i step st) := by
  unfold commitStep Apg.commitStep
  cases hp : step.pkg with
  | none =>
    refine ⟨{}, true, fun h _ _ => ?_⟩
    cases step.op with
    | install => exact Option.Rel.none
    | upgrade => exact Option.Rel.none
    | remove => exact Option.Rel.some (commitRemove_refines h _ _)
  | some p =>
    refine ⟨stepRun io i p l.state, (upgradeBackupCreate io i step.pkgName l.state).1, fun h hrun hb => ?_⟩
    cases step.op with
    | install => exact commitInstall_refines h hrun
    | upgrade => exact commitUpgrade_refines h hrun hb
    | remove => exact Option.Rel.some (commitRemove_refines h _ _)

theorem commitLoop_refines (io : RootIo) (t : ApgTrans) : ∀ (steps : List TransStep) (i : ℕ) (l : Loop),
    ∃ (runs : ℕ → InstallRun) (backups : ℕ → Bool), ∀ {st runs' backups'}, AgreeLoop l st →
      (∀ k, i ≤ k → runs' k = runs k ∧ backups' k = backups k) →
      Option.Rel AgreeEnd (commitLoop io t i steps l) (Apg.commitLoop (io.told runs' backups') t i steps st) := by
  intro steps
  induction steps with
  | nil =>
    intro i l
    exact ⟨fun _ => {}, fun _ => true, fun h _ => Option.Rel.some h⟩
  | cons step steps ih =>
    intro i l
    obtain ⟨run, b, hstep⟩ := commitStep_refines io t i step l
    -- what the later steps are told comes from where this one ends
    have hlater : ∃ (runs : ℕ → InstallRun) (backups : ℕ → Bool), ∀ l₁, commitStep io t i step l = some (.done l₁) →
        ∀ {st₁ runs' backups'}, AgreeLoop l₁ st₁ → (∀ k, i + 1 ≤ k → runs' k = runs k ∧ backups' k = backups k) →
        Option.Rel AgreeEnd (commitLoop io t (i + 1) steps l₁)
          (Apg.commitLoop (io.told runs' backups') t (i + 1) steps st₁) := by
      by_cases hdone : ∃ l₁, commitStep io t i step l = some (.done l₁)
      · obtain ⟨l₁, hl₁⟩ := hdone
        obtain ⟨runs, backups, hrel⟩ := ih (i + 1) l₁
        refine ⟨runs, backups, fun l₂ hl₂ => ?_⟩
        rw [hl₁, Option.some.injEq, Outcome.done.injEq] at hl₂
        exact hl₂ ▸ hrel
      · exact ⟨fun _ => {}, fun _ => true, fun l₁ hl₁ => absurd ⟨l₁, hl₁⟩ hdone⟩
    obtain ⟨runs, backups, hlater⟩ := hlater
    refine ⟨Function.update runs i run, Function.update backups i b, fun {st runs' backups'} h hsame => ?_⟩
    have hrest : ∀ k, i + 1 ≤ k → runs' k = runs k ∧ backups' k = backups k := by
      intro k hk
      have hne : k ≠ i := by omega
      simpa [hne] using hsame k (by omega)
    have hrel := hstep h (by simpa using (hsame i le_rfl).1) (by simpa using (hsame i le_rfl).2)
    simp only [commitLoop, Apg.commitLoop]
    cases hl : commitStep io t i step l with
    | none =>
      rw [hl] at hrel
      rw [rel_none_left hrel]; exact Option.Rel.none
    | some r =>
      rw [hl] at hrel
      obtain ⟨r', hst, hend⟩ := rel_some_left hrel
      rw [hst]
      cases r with
      | done l₁ =>
        cases r' with
        | done st₁ => exact hlater l₁ hl hend hrest
        | failed err st₁ => exact hend.elim
      | failed err l₁ =>
        cases r' with
        | done st₁ => exact hend.elim
        | failed err' st₁ => exact Option.Rel.some hend

theorem upgradeBackupRestore_refines {s : State} {w : World} (h : Agree s w) (runs : ℕ → InstallRun)
    (backups : ℕ → Bool) (idx : ℕ) (name : CStr) (backup : UpgradeBackup) (p : Ptr) :
    Option.Rel Agree (upgradeBackupRestore io idx name backup p s)
      (Apg.upgradeBackupRestore (io.told runs backups) w idx name backup.previous) := by
  unfold upgradeBackupRestore Apg.upgradeBackupRestore
  have hrestore : (io.told runs backups).restoreIo = io.out.restoreIo := rfl
  simp only [hrestore, ← h.db]
  cases dbAdd (io.out.restoreIo idx) s.db backup.previous with
  | none => exact Option.Rel.none
  | some r =>
    obtain ⟨ok, db⟩ := r
    refine Option.Rel.some ⟨rfl, h.mem, ?_⟩
    simp only [h.unrestored]

theorem undoInstall_refines {s : State} {w : World} (h : Agree s w) (runs : ℕ → InstallRun) (backups : ℕ → Bool)
    (u : Undo) : Agree (undoInstall io u s) (Apg.undoInstall (io.told runs backups) w u.committed) := by
  unfold undoInstall Apg.undoInstall
  have hundo : (io.told runs backups).undoIo = io.out.undoIo := rfl
  have hidx : u.committed.idx = u.idx := rfl
  have hstep : u.committed.step = u.step := rfl
  simp only [hundo, hidx, hstep, ← h.db]
  refine ⟨rfl, h.mem, ?_⟩
  simp only [h.unrestored]

theorem rollbackOne_refines {s : State} {w : World} (h : Agree s w) (runs : ℕ → InstallRun) (backups : ℕ → Bool)
    (u : Undo) : Option.Rel Agree (rollbackOne io u s) (Apg.rollbackOne (io.told runs backups) w u.committed) := by
  have hundo : Option.Rel Agree (some (undoInstall io u s))
      (some (Apg.undoInstall (io.told runs backups) w u.committed)) :=
    Option.Rel.some (undoInstall_refines h runs backups u)
  unfold rollbackOne Apg.rollbackOne
  have hprev : u.committed.previous = u.backup.map (·.previous) := rfl
  have hstep : u.committed.step = u.step := rfl
  have hidx : u.committed.idx = u.idx := rfl
  rw [hprev, hstep, hidx]
  have hmap : ∀ {a : Option State} {b : Option World}, Option.Rel Agree a b →
      Option.Rel Agree (a.map fun s => s.journal .rollback u.step true false)
        (b.map fun w => w.journal .rollback u.step true false) := by
    intro a b hab
    cases hab with
    | none => exact Option.Rel.none
    | some hab => exact Option.Rel.some (hab.journal _ _ _ _)
  apply hmap
  cases u.backup with
  | none => exact hundo
  | some backup =>
    cases u.step.pkg with
    | none => exact hundo
    | some p => exact upgradeBackupRestore_refines h runs backups _ _ backup p

theorem rollbackCommitted_refines (io : RootIo) {s : State} {w : World} (h : Agree s w) (runs : ℕ → InstallRun) (backups : ℕ → Bool) :
    ∀ committed : List Undo, Option.Rel Agree (rollbackCommitted io s committed)
      (Apg.rollbackCommitted (io.told runs backups) w (committed.map Undo.committed)) := by
  intro committed
  induction committed with
  | nil => exact Option.Rel.some h
  | cons u committed ih =>
    rw [List.map_cons, rollbackCommitted, Apg.rollbackCommitted]
    cases hs : rollbackCommitted io s committed with
    | none =>
      rw [hs] at ih
      rw [rel_none_left ih]; exact Option.Rel.none
    | some s₁ =>
      rw [hs] at ih
      obtain ⟨w₁, hw, hagree⟩ := rel_some_left ih
      rw [hw]
      exact rollbackOne_refines hagree runs backups u

/-- The same code, transaction and records. -/
def AgreeResult (r : TransError × ApgTrans × State) (r' : TransError × ApgTrans × World) : Prop :=
  r.1 = r'.1 ∧ r.2.1 = r'.2.1 ∧ Agree r.2.2 r'.2.2

/-- **On a root `trans_commit` does to the records what it does without one**, if it is
told what becomes of the archives and backups there. -/
theorem transCommit_refines (io : RootIo) (t : ApgTrans) (s : State) (hs : s.unrestored = []) :
    ∃ runs backups, Option.Rel AgreeResult (transCommit io t s)
      (Apg.transCommit (io.told runs backups) s.mem s.db t) := by
  obtain ⟨runs, backups, hloop⟩ := commitLoop_refines io t t.plan 0
    ⟨{ s with db := { s.db with suppressJournal := true } }, []⟩
  have hstart : AgreeLoop ⟨{ s with db := { s.db with suppressJournal := true } }, []⟩ (commitStart s.mem s.db) :=
    ⟨⟨rfl, rfl, hs⟩, rfl⟩
  have hrel := hloop hstart fun _ _ => ⟨rfl, rfl⟩
  refine ⟨runs, backups, ?_⟩
  unfold commitStart at hrel
  have hkey : (io.told runs backups).keyringLoad = io.out.keyringLoad := rfl
  have hsame : Agree s ⟨s.db, s.mem, []⟩ := ⟨rfl, rfl, hs⟩
  have hrelease : ∀ {s₁ : State} {w₁ : World}, Agree s₁ w₁ →
      Agree s₁.release { w₁ with db := { w₁.db with suppressJournal := false } } := by
    intro s₁ w₁ h
    refine ⟨?_, h.mem, h.unrestored⟩
    show { s₁.db with suppressJournal := false } = _
    rw [h.db]
  unfold transCommit Apg.transCommit
  rw [hkey]
  split_ifs with h1 h2 h3
  · exact Option.Rel.some ⟨rfl, rfl, hsame⟩
  · exact Option.Rel.some ⟨rfl, rfl, hsame⟩
  · exact Option.Rel.some ⟨rfl, rfl, hsame⟩
  cases hl : commitLoop io t 0 t.plan ⟨{ s with db := { s.db with suppressJournal := true } }, []⟩ with
  | none =>
    rw [hl] at hrel
    rw [rel_none_left hrel]; exact Option.Rel.none
  | some r =>
    rw [hl] at hrel
    obtain ⟨r', hst, hend⟩ := rel_some_left hrel
    rw [hst]
    cases r with
    | done l =>
      cases r' with
      | done st => exact Option.Rel.some ⟨rfl, rfl, hrelease hend.state⟩
      | failed err st => exact hend.elim
    | failed err l =>
      cases r' with
      | done st => exact hend.elim
      | failed err' st =>
        obtain ⟨rfl, hagree⟩ := hend
        have hback := rollbackCommitted_refines io hagree.state runs backups l.committed
        rw [hagree.committed] at hback
        simp only
        cases hr : rollbackCommitted io l.state l.committed with
        | none =>
          rw [hr] at hback
          rw [rel_none_left hback]; exact Option.Rel.none
        | some s₁ =>
          rw [hr] at hback
          obtain ⟨w₁, hw, hagree₁⟩ := rel_some_left hback
          rw [hw]
          exact Option.Rel.some ⟨rfl, rfl, hrelease hagree₁⟩

/-! ## A dry run -/

/-- In a dry run a step does nothing, or finds a package without a good signature. -/
theorem commitStep_dry (hdry : t.dryRun = true) {l : Loop} {r : Outcome} (h : commitStep io t i step l = some r) :
    r = .done l ∨ r = .failed .unsigned l := by
  have hfail : failInstall t step .unsigned l = .failed .unsigned l := by
    unfold failInstall; rw [if_pos hdry]
  unfold commitStep at h
  split at h
  · simp only [commitInstall, hdry, if_true, hfail] at h
    split at h
    · exact Or.inr (Option.some.inj h).symm
    · exact Or.inl (Option.some.inj h).symm
  · simp only [commitUpgrade, hdry, if_true, hfail] at h
    split at h
    · exact Or.inr (Option.some.inj h).symm
    · exact Or.inl (Option.some.inj h).symm
  · simp only [commitRemove, hdry, if_true] at h
    exact Or.inl (Option.some.inj h).symm
  · cases h

theorem commitLoop_dry (hdry : t.dryRun = true) {l : Loop} : ∀ {steps : List TransStep} {i : ℕ} {r : Outcome},
    commitLoop io t i steps l = some r → r = .done l ∨ r = .failed .unsigned l := by
  intro steps
  induction steps with
  | nil => intro i r h; exact Or.inl (Option.some.inj h).symm
  | cons step steps ih =>
    intro i r h
    rw [commitLoop] at h
    cases hs : commitStep io t i step l with
    | none => rw [hs] at h; cases h
    | some r₁ =>
      rw [hs] at h
      rcases commitStep_dry hdry hs with rfl | rfl
      · exact ih h
      · exact Or.inr (Option.some.inj h).symm

theorem commitStep_isSome_dry (io : RootIo) (i : ℕ) (hdry : t.dryRun = true)
    (hpkg : step.op ≠ .remove → step.pkg ≠ none) (l : Loop) : ∃ r, commitStep io t i step l = some r := by
  unfold commitStep
  cases hop : step.op with
  | remove => exact ⟨_, rfl⟩
  | install =>
    obtain ⟨p, hp⟩ := Option.ne_none_iff_exists'.1 (hpkg (by simp [hop]))
    rw [hp]
    simp only [commitInstall, hdry, if_true]
    split <;> exact ⟨_, rfl⟩
  | upgrade =>
    obtain ⟨p, hp⟩ := Option.ne_none_iff_exists'.1 (hpkg (by simp [hop]))
    rw [hp]
    simp only [commitUpgrade, hdry, if_true]
    split <;> exact ⟨_, rfl⟩

theorem commitLoop_isSome_dry (io : RootIo) (hdry : t.dryRun = true) (l : Loop) : ∀ (steps : List TransStep) (i : ℕ),
    (∀ step ∈ steps, step.op ≠ .remove → step.pkg ≠ none) → ∃ r, commitLoop io t i steps l = some r := by
  intro steps
  induction steps with
  | nil => intro i _; exact ⟨_, rfl⟩
  | cons step steps ih =>
    intro i hpkgs
    rw [commitLoop]
    obtain ⟨r, hr⟩ := commitStep_isSome_dry io i hdry (hpkgs step List.mem_cons_self) l
    rw [hr]
    rcases commitStep_dry hdry hr with rfl | rfl
    · exact ih (i + 1) fun s hs => hpkgs s (List.mem_cons_of_mem _ hs)
    · exact ⟨_, rfl⟩

/-- The state `trans_commit` starts its loop in. -/
def start (s : State) : Loop := ⟨{ s with db := { s.db with suppressJournal := true } }, []⟩

/-- How `trans_commit` returns: refused before its first step, with every step done, or
with what is left when the steps are undone. -/
theorem transCommit_cases {s s' : State} {err : TransError} {t' : ApgTrans}
    (h : transCommit io t s = some (err, t', s')) :
    ((t.prepared = false ∨ t.committed = true ∨ t.requireSignature = true ∧ io.out.keyringLoad = false) ∧
      t' = t ∧ s' = s) ∨
    (∃ l, t.committed = false ∧ commitLoop io t 0 t.plan (start s) = some (.done l) ∧ err = .ok ∧
      t' = { t with committed := !t.dryRun } ∧ s' = l.state.release) ∨
    ∃ l s₁, commitLoop io t 0 t.plan (start s) = some (.failed err l) ∧
      rollbackCommitted io l.state l.committed = some s₁ ∧ t' = t ∧ s' = s₁.release := by
  unfold transCommit at h
  split_ifs at h with hprep hcom hkey
  · cases h
    exact Or.inl ⟨Or.inl (by simpa using hprep), rfl, rfl⟩
  · cases h
    exact Or.inl ⟨Or.inr (Or.inl hcom), rfl, rfl⟩
  · cases h
    rw [Bool.and_eq_true, Bool.not_eq_true'] at hkey
    exact Or.inl ⟨Or.inr (Or.inr hkey), rfl, rfl⟩
  right
  unfold start
  cases hl : commitLoop io t 0 t.plan ⟨{ s with db := { s.db with suppressJournal := true } }, []⟩ with
  | none => rw [hl] at h; cases h
  | some r =>
    rw [hl] at h
    cases r with
    | done l =>
      cases h
      exact Or.inl ⟨l, by simpa using hcom, rfl, rfl, rfl, rfl⟩
    | failed err' l =>
      obtain ⟨s₁, hback, hs⟩ := Option.map_eq_some_iff.1 h
      cases hs
      exact Or.inr ⟨l, s₁, rfl, hback, rfl, rfl⟩

theorem release_suppressed {s : State} (h : s.db.suppressJournal = false) :
    State.release { s with db := { s.db with suppressJournal := true } } = s := by
  cases s with
  | mk db mem fs unrestored log =>
    cases db
    simp only at h
    subst h
    rfl

/-- **A dry run is a pure preview**: it changes neither the database, the journal, the
files, the package objects nor the transaction, so a real commit after it does what it
would have done before it. It returns, if every package of the plan is there. -/
theorem transCommit_dry (io : RootIo) (t : ApgTrans) (s : State) (hdry : t.dryRun = true)
    (hjournal : s.db.suppressJournal = false) :
    (∀ err t' s', transCommit io t s = some (err, t', s') → t' = t ∧ s' = s ∧
      ∀ io', transCommit io' (transSetDryRun t' false) s' = transCommit io' (transSetDryRun t false) s) ∧
    ((∀ step ∈ t.plan, step.op ≠ .remove → step.pkg ≠ none) → ∃ err, transCommit io t s = some (err, t, s)) := by
  have hsame : ∀ err t' s', transCommit io t s = some (err, t', s') → t' = t ∧ s' = s := by
    intro err t' s' h
    obtain ⟨-, rfl, rfl⟩ | ⟨l, hcom, hl, -, rfl, rfl⟩ | ⟨l, s₁, hl, hback, rfl, rfl⟩ := transCommit_cases h
    · exact ⟨rfl, rfl⟩
    · -- the flag stays down, since the plan was not carried out
      obtain hl | hl := commitLoop_dry hdry hl
      · cases hl
        refine ⟨?_, release_suppressed hjournal⟩
        cases t
        simp_all
      · cases hl
    · -- there is nothing to take back
      obtain hl | hl := commitLoop_dry hdry hl
      · cases hl
      · cases hl
        cases hback
        exact ⟨rfl, release_suppressed hjournal⟩
  refine ⟨fun err t' s' h => ?_, fun hpkgs => ?_⟩
  · obtain ⟨rfl, rfl⟩ := hsame err t' s' h
    exact ⟨rfl, rfl, fun _ => rfl⟩
  · have hsome : ∃ r, transCommit io t s = some r := by
      obtain ⟨r, hr⟩ := commitLoop_isSome_dry io hdry ⟨{ s with db := { s.db with suppressJournal := true } }, []⟩
        t.plan 0 hpkgs
      unfold transCommit
      rw [hr]
      split_ifs
      · exact ⟨_, rfl⟩
      · exact ⟨_, rfl⟩
      · exact ⟨_, rfl⟩
      · rcases commitLoop_dry hdry hr with rfl | rfl
        · exact ⟨_, rfl⟩
        · exact ⟨_, rfl⟩
    obtain ⟨⟨err, t', s'⟩, h⟩ := hsome
    obtain ⟨rfl, rfl⟩ := hsame err t' s' h
    exact ⟨err, h⟩

/-- A root where nothing is refused. -/
def atTop : RootIo := { dirs := ⟨cstr "/", none⟩ }

/-- Nothing is installed. -/
def blank (mem : Heap) : State := ⟨dbOpen true true, mem, .empty, [], []⟩

/-- One package to install and one to remove, to be looked at only. -/
def previewed : ApgTrans :=
  { plan := [⟨.install, cstr "a", none, true, some 1⟩, ⟨.remove, cstr "b", none, true, none⟩]
    prepared := true
    requireSignature := true
    dryRun := true }

theorem transCommit_dry_previewed : previewed.dryRun = true ∧ (blank fun _ => {}).db.suppressJournal = false ∧
    ∃ err, transCommit atTop previewed (blank fun _ => {}) = some (err, previewed, blank fun _ => {}) :=
  ⟨rfl, rfl, (transCommit_dry atTop previewed (blank fun _ => {}) rfl rfl).2 (by decide)⟩

/-! ## Signatures -/

/-- What is noted of step `i`: nothing, a removal, or an installation after the
signature of its own package has been found good. -/
def Gated (io : RootIo) (mem : Heap) (i : ℕ) (step : TransStep) (events : List Event) : Prop :=
  events = [] ∨ events = [.removes i] ∨
    ∃ p path, step.pkg = some p ∧ (mem p).pkgPath = some path ∧ signed io.out i (mem p) = true ∧
      ∃ acts, acts <+: [.installs i p, .records i p] ∧ events = .verified i path :: acts

/-- What a step adds to the log; no package object gets another `pkg_path`. -/
structure Logged (io : RootIo) (i : ℕ) (step : TransStep) (s s' : State) : Prop where
  paths : ∀ q, (s'.mem q).pkgPath = (s.mem q).pkgPath
  log : ∃ events, s'.log = s.log ++ events ∧ Gated io s.mem i step events

/-- The state a step ends in. -/
def Outcome.state : Outcome → State
  | .done l => l.state
  | .failed _ l => l.state

/-- The loop has come to its end. -/
def isDone : Outcome → Bool
  | .done _ => true
  | .failed _ _ => false

theorem Logged.refl (io : RootIo) (i : ℕ) (step : TransStep) (s : State) : Logged io i step s s :=
  ⟨fun _ => rfl, [], by simp, Or.inl rfl⟩

theorem install_logged (io : RootIo) (i : ℕ) (p : Ptr) (s : State) :
    (∀ q, ((install io i p s).2.mem q).pkgPath = (s.mem q).pkgPath) ∧
      (install io i p s).2.log = s.log ++ [.installs i p] := by
  refine ⟨fun q => ?_, rfl⟩
  unfold install
  simp only
  cases (installInRoot io.dirs (io.install i) ((s.mem p).metadata.name.getD []) s.fs).files with
  | none => rfl
  | some files =>
    by_cases hq : q = p
    · subst hq; simp
    · simp [hq]

theorem install_metadata (io : RootIo) (i : ℕ) (p q : Ptr) (s : State) :
    ((install io i p s).2.mem q).metadata = (s.mem q).metadata := by
  unfold install
  generalize installInRoot io.dirs (io.install i) ((s.mem p).metadata.name.getD []) s.fs = r
  obtain ⟨ok, fs, files⟩ := r
  cases files with
  | none => rfl
  | some files =>
    by_cases hq : q = p
    · subst hq
      simp
    · simp [Function.update_of_ne hq]

theorem removeDroppedFiles_same (dirs : Dirs) (pkg : Package) (s : State) :
    (removeDroppedFiles dirs pkg s).db = s.db ∧ (removeDroppedFiles dirs pkg s).mem = s.mem ∧
      (removeDroppedFiles dirs pkg s).log = s.log := by
  unfold removeDroppedFiles
  split
  · exact ⟨rfl, rfl, rfl⟩
  · split <;> exact ⟨rfl, rfl, rfl⟩

/-- The signature is good: its package may be installed, and then recorded. -/
theorem install_gated (hreq : t.requireSignature = true) (hp : step.pkg = some p) {s : State}
    (h : ¬unverified io t i p s = true) :
    Logged io i step s (s.note (verification t i (s.mem p))) ∧
      Logged io i step s (install io i p (s.note (verification t i (s.mem p)))).2 ∧
      Logged io i step s ((install io i p (s.note (verification t i (s.mem p)))).2.note [.records i p]) := by
  have hsigned : signed io.out i (s.mem p) = true := by simpa [unverified, hreq] using h
  cases hpath : (s.mem p).pkgPath with
  | none => simp [signed, hpath] at hsigned
  | some path =>
    obtain ⟨hpaths, hlog⟩ := install_logged io i p (s.note (verification t i (s.mem p)))
    have hver : verification t i (s.mem p) = [.verified i path] := by simp [verification, hreq, hpath]
    rw [hver] at hpaths hlog ⊢
    have hgated : ∀ acts, acts <+: [.installs i p, .records i p] →
        Gated io s.mem i step (.verified i path :: acts) :=
      fun acts hacts => Or.inr (Or.inr ⟨p, path, hp, hpath, hsigned, acts, hacts, rfl⟩)
    have hevents : (install io i p (s.note [.verified i path])).2.log = s.log ++ [.verified i path, .installs i p] := by
      rw [hlog]; simp [State.note]
    refine ⟨⟨fun _ => rfl, _, rfl, hgated [] (by simp)⟩, ⟨hpaths, _, hevents, hgated [.installs i p] (by simp)⟩,
      hpaths, _, ?_, hgated _ (List.prefix_refl _)⟩
    show (install io i p (s.note [.verified i path])).2.log ++ _ = _
    rw [hevents]; simp

theorem Logged.of_same {s s₁ s₂ : State} (h : Logged io i step s s₁) (hpaths : ∀ q, (s₂.mem q).pkgPath = (s₁.mem q).pkgPath)
    (hlog : s₂.log = s₁.log) : Logged io i step s s₂ := by
  obtain ⟨events, hevents, hgated⟩ := h.log
  exact ⟨fun q => (hpaths q).trans (h.paths q), events, hlog.trans hevents, hgated⟩

theorem failInstall_logged {s : State} {l : Loop} (h : Logged io i step s l.state) (err : TransError) :
    Logged io i step s (failInstall t step err l).state := by
  unfold failInstall
  cases t.dryRun <;> exact h.of_same (fun _ => rfl) rfl

/-- The record of a package is written after its installation. -/
theorem recordPkg_logged {backup : Option UpgradeBackup} {s s₁ : State} {l : Loop} {r : Outcome}
    (h : Logged io i step s s₁ ∧ Logged io i step s (s₁.note [.records i p])) (hmem : l.state.mem = s₁.mem)
    (hlog : l.state.log = s₁.log) (hr : recordPkg io i step p backup l = some r) : Logged io i step s r.state := by
  unfold recordPkg at hr
  obtain ⟨⟨ok, db⟩, -, rfl⟩ := Option.map_eq_some_iff.1 hr
  have hpaths : ∀ q, (Function.update l.state.mem p
      { l.state.mem p with installedByHand := step.explicitOp } q).pkgPath = (s₁.mem q).pkgPath := by
    intro q
    rw [hmem]
    by_cases hq : q = p
    · subst hq; simp
    · simp [hq]
  cases ok with
  | true =>
    refine h.2.of_same hpaths ?_
    show l.state.log ++ _ = s₁.log ++ _
    rw [hlog]
  | false => exact h.1.of_same hpaths hlog

theorem commitInstall_logged (hreq : t.requireSignature = true) (hdry : t.dryRun = false) {l : Loop} {r : Outcome}
    (hp : step.pkg = some p) (h : commitInstall io t i step p l = some r) : Logged io i step l.state r.state := by
  unfold commitInstall at h
  split_ifs at h with hsig h2
  · obtain rfl := Option.some.inj h
    exact failInstall_logged (Logged.refl _ _ _ _) _
  · rw [hdry] at h2; cases h2
  have hgated := install_gated hreq hp hsig
  simp only at h
  split_ifs at h
  · obtain rfl := Option.some.inj h
    exact failInstall_logged hgated.2.1 _
  · exact recordPkg_logged hgated.2 rfl rfl h

theorem commitUpgrade_logged (hreq : t.requireSignature = true) (hdry : t.dryRun = false) {l : Loop} {r : Outcome}
    (hp : step.pkg = some p) (h : commitUpgrade io t i step p l = some r) : Logged io i step l.state r.state := by
  unfold commitUpgrade at h
  split_ifs at h with hsig h2
  · obtain rfl := Option.some.inj h
    exact failInstall_logged (Logged.refl _ _ _ _) _
  · rw [hdry] at h2; cases h2
  have hgated := install_gated hreq hp hsig
  simp only at h
  split at h
  · obtain rfl := Option.some.inj h
    exact failInstall_logged hgated.1 _
  split_ifs at h
  · obtain rfl := Option.some.inj h
    exact failInstall_logged hgated.2.1 _
  · obtain ⟨-, hmem, hlog⟩ := removeDroppedFiles_same io.dirs
      ((install io i p (l.state.note (verification t i (l.state.mem p)))).2.mem p) _
    exact recordPkg_logged hgated.2 hmem hlog h

theorem commitRemove_logged {l : Loop} : Logged io i step l.state (commitRemove io t i step l).state := by
  unfold commitRemove
  by_cases hdry : t.dryRun = true
  · rw [if_pos hdry]; exact Logged.refl _ _ _ _
  rw [if_neg hdry]
  simp only
  cases (if io.out.preRemove i = true then dbRemove (io.out.removeIo i) l.state.db step.pkgName
    else (false, l.state.db)) with
  | mk ok db =>
    cases ok with
    | true => exact ⟨fun _ => rfl, [.removes i], rfl, Or.inr (Or.inl rfl)⟩
    | false => exact (Logged.refl io i step l.state).of_same (fun _ => rfl) rfl

/-- **What a step does is noted, and gated.** -/
theorem commitStep_logged (hreq : t.requireSignature = true) (hdry : t.dryRun = false) {l : Loop} {r : Outcome}
    (h : commitStep io t i step l = some r) : Logged io i step l.state r.state := by
  unfold commitStep at h
  split at h
  · rename_i p _ hp; exact commitInstall_logged hreq hdry hp h
  · rename_i p _ hp; exact commitUpgrade_logged hreq hdry hp h
  · obtain rfl := Option.some.inj h
    exact commitRemove_logged
  · cases h

/-- Whatever was installed or recorded, for a step of the plan, had been verified before. -/
def GatedLog (io : RootIo) (plan : List TransStep) (mem : Heap) (log : List Event) : Prop :=
  ∀ before e after, log = before ++ e :: after → ∀ i p, e = .installs i p ∨ e = .records i p →
    ∃ step path, plan[i]? = some step ∧ step.pkg = some p ∧ (mem p).pkgPath = some path ∧
      path.length + 4 < 4096 ∧ io.out.verify i = true ∧ Event.verified i path ∈ before

theorem GatedLog.append {plan : List TransStep} {mem : Heap} {log events : List Event} (h : GatedLog io plan mem log)
    (hstep : plan[i]? = some step) (hg : Gated io mem i step events) : GatedLog io plan mem (log ++ events) := by
  intro before e after hsplit j q he
  have hwhere : (∃ cs, log = before ++ e :: cs) ∨ ∃ as, before = log ++ as ∧ events = as ++ e :: after := by
    rcases List.append_eq_append_iff.1 hsplit with ⟨as, hbefore, hevents⟩ | ⟨cs, hlog, hcons⟩
    · exact Or.inr ⟨as, hbefore, hevents⟩
    · cases cs with
      | nil => exact Or.inr ⟨[], by simpa using hlog.symm, hcons.symm⟩
      | cons c cs =>
        obtain ⟨rfl, -⟩ := List.cons.inj hcons
        exact Or.inl ⟨cs, hlog⟩
  rcases hwhere with ⟨cs, hlog⟩ | ⟨as, hbefore, hevents⟩
  · exact h before e cs hlog j q he
  -- the event is one of the step
  rcases hg with rfl | rfl | ⟨p, path, hp, hpath, hsigned, acts, hacts, rfl⟩
  · simp at hevents
  · have hmem : e ∈ [Event.removes i] := by rw [hevents]; simp
    rw [List.mem_singleton.1 hmem] at he
    rcases he with he | he <;> cases he
  · cases as with
    | nil =>
      obtain rfl : Event.verified i path = e := (List.cons.inj hevents).1
      rcases he with he | he <;> cases he
    | cons a as =>
      obtain ⟨rfl, hacts'⟩ := List.cons.inj hevents
      have hmem : e ∈ [Event.installs i p, .records i p] := hacts.subset (by rw [hacts']; simp)
      have hjq : j = i ∧ q = p := by
        rcases he with rfl | rfl <;> simpa using hmem
      obtain ⟨rfl, rfl⟩ := hjq
      rw [signed, hpath] at hsigned
      simp only [Bool.and_eq_true, decide_eq_true_eq] at hsigned
      exact ⟨step, path, hstep, hp, hpath, hsigned.1, hsigned.2, by rw [hbefore]; simp⟩

theorem Gated.step_eq {mem : Heap} {events : List Event} (h : Gated io mem i step events) {e : Event} (he : e ∈ events) :
    e.step = i := by
  rcases h with rfl | rfl | ⟨p, path, -, -, -, acts, hacts, rfl⟩
  · cases he
  · rw [List.mem_singleton.1 he]; rfl
  · rcases List.mem_cons.1 he with rfl | he
    · rfl
    · have hmem := hacts.subset he
      simp only [List.mem_cons, List.not_mem_nil, or_false] at hmem
      rcases hmem with rfl | rfl <;> rfl

theorem Gated.congr {mem mem' : Heap} {events : List Event} (h : Gated io mem' i step events)
    (hpaths : ∀ q, (mem' q).pkgPath = (mem q).pkgPath) : Gated io mem i step events := by
  rcases h with h | h | ⟨p, path, hp, hpath, hsigned, hacts⟩
  · exact Or.inl h
  · exact Or.inr (Or.inl h)
  · refine Or.inr (Or.inr ⟨p, path, hp, (hpaths p) ▸ hpath, ?_, hacts⟩)
    rw [signed, ← hpaths p]
    exact hsigned

/-- The log after the first `i` steps of a plan. -/
structure LogInv (io : RootIo) (plan : List TransStep) (mem : Heap) (i : ℕ) (s : State) : Prop where
  paths : ∀ q, (s.mem q).pkgPath = (mem q).pkgPath
  gated : GatedLog io plan mem s.log
  steps : ∀ e ∈ s.log, e.step < i

theorem LogInv.after {plan : List TransStep} {mem : Heap} {s s' : State} (h : LogInv io plan mem i s)
    (hstep : plan[i]? = some step) (hl : Logged io i step s s') : LogInv io plan mem (i + 1) s' := by
  obtain ⟨events, hlog, hgated⟩ := hl.log
  refine ⟨fun q => (hl.paths q).trans (h.paths q), ?_, ?_⟩
  · rw [hlog]
    exact h.gated.append hstep (hgated.congr h.paths)
  · intro e he
    rw [hlog] at he
    rcases List.mem_append.1 he with he | he
    · exact Nat.lt_succ_of_lt (h.steps e he)
    · rw [hgated.step_eq he]; exact Nat.lt_succ_self i

theorem commitLoop_logged {mem : Heap} (hreq : t.requireSignature = true) (hdry : t.dryRun = false) :
    ∀ (steps done rest : List TransStep) {l : Loop} {r : Outcome},
    LogInv io (done ++ steps ++ rest) mem done.length l.state →
    commitLoop io t done.length steps l = some r →
    LogInv io (done ++ steps ++ rest) mem (done.length + steps.length) r.state := by
  intro steps
  induction steps with
  | nil =>
    intro done rest l r h hr
    obtain rfl := Option.some.inj hr
    exact h
  | cons step steps ih =>
    intro done rest l r h hr
    have hplan : done ++ step :: steps ++ rest = (done ++ [step]) ++ steps ++ rest := by simp
    have hlen : (done ++ [step]).length = done.length + 1 := by simp
    rw [commitLoop] at hr
    cases hs : commitStep io t done.length step l with
    | none => rw [hs] at hr; cases hr
    | some r₁ =>
      rw [hs] at hr
      have hafter := h.after (by simp) (commitStep_logged hreq hdry hs)
      rw [hplan] at hafter ⊢
      have hsum : done.length + (step :: steps).length = (done ++ [step]).length + steps.length := by
        simp; omega
      rw [hsum]
      cases r₁ with
      | done l₁ => exact ih _ rest (hlen ▸ hafter) (hlen ▸ hr)
      | failed err l₁ =>
        obtain rfl := Option.some.inj hr
        exact ⟨hafter.paths, hafter.gated, fun e he => lt_of_lt_of_le (hafter.steps e he) (by simp)⟩

theorem rollbackOne_log {u : Undo} {s s' : State} (h : rollbackOne io u s = some s') : s'.log = s.log := by
  unfold rollbackOne at h
  obtain ⟨s₁, hundone, rfl⟩ := Option.map_eq_some_iff.1 h
  show s₁.log = s.log
  split at hundone
  · unfold upgradeBackupRestore at hundone
    obtain ⟨r, -, rfl⟩ := Option.map_eq_some_iff.1 hundone
    rfl
  · obtain rfl := Option.some.inj hundone
    rfl

theorem rollbackCommitted_log {s : State} : ∀ {committed : List Undo} {s' : State},
    rollbackCommitted io s committed = some s' → s'.log = s.log := by
  intro committed
  induction committed with
  | nil => intro s' h; rw [← Option.some.inj h]
  | cons u committed ih =>
    intro s' h
    obtain ⟨s₁, hs₁, hone⟩ := Option.bind_eq_some_iff.1 h
    rw [rollbackOne_log hone, ih hs₁]

theorem dbAdd_isSome {pkg : Package} (hname : pkg.metadata.name ≠ none) (rc : ℕ → Rc) (db : Db) :
    ∃ r, dbAdd rc db pkg = some r := by
  obtain ⟨n, hn⟩ := Option.ne_none_iff_exists'.1 hname
  unfold dbAdd
  rw [hn]
  split <;> exact ⟨_, rfl⟩

/-- A rollback ends, since the versions that were saved have names. -/
theorem rollbackCommitted_isSome (io : RootIo) (s : State) : ∀ {committed : List Undo},
    (∀ u ∈ committed, ∀ backup, u.backup = some backup → backup.previous.metadata.name ≠ none) →
    ∃ s', rollbackCommitted io s committed = some s' := by
  intro committed
  induction committed with
  | nil => intro _; exact ⟨s, rfl⟩
  | cons u committed ih =>
    intro hnames
    obtain ⟨s₁, hs₁⟩ := ih fun u hu => hnames u (List.mem_cons_of_mem _ hu)
    rw [rollbackCommitted, hs₁, Option.bind_some]
    unfold rollbackOne
    cases hb : u.backup with
    | none => exact ⟨_, rfl⟩
    | some backup =>
      cases u.step.pkg with
      | none => exact ⟨_, rfl⟩
      | some p =>
        obtain ⟨r, hr⟩ := dbAdd_isSome (hnames u List.mem_cons_self backup hb) (io.out.restoreIo u.idx) s₁.db
        simp only [upgradeBackupRestore, hr, Option.map_some]
        exact ⟨_, rfl⟩

theorem commitLoop_append (io : RootIo) (t : ApgTrans) : ∀ (done : List TransStep) (i : ℕ) (steps : List TransStep)
    (l l' : Loop), commitLoop io t i done l = some (.done l') →
    commitLoop io t i (done ++ steps) l = commitLoop io t (i + done.length) steps l' := by
  intro done
  induction done with
  | nil =>
    intro i steps l l' h
    obtain rfl := Outcome.done.inj (Option.some.inj h)
    rfl
  | cons step done ih =>
    intro i steps l l' h
    rw [List.cons_append, commitLoop]
    rw [commitLoop] at h
    cases hs : commitStep io t i step l with
    | none => rw [hs] at h; cases h
    | some r =>
      rw [hs] at h
      cases r with
      | done l₁ =>
        have hidx : i + (step :: done).length = i + 1 + done.length := by simp; omega
        simp only
        rw [hidx]
        exact ih (i + 1) steps l₁ l' h
      | failed err l₁ => exact absurd (Option.some.inj h) (by simp)

/-- A step of a plan whose package has no good signature. -/
theorem commitStep_unsigned (hreq : t.requireSignature = true) (hdry : t.dryRun = false) (hop : step.op ≠ .remove)
    (hp : step.pkg = some p) {l : Loop} (h : signed io.out i (l.state.mem p) = false) :
    commitStep io t i step l =
      some (.failed .unsigned { l with state := l.state.journal .install step false step.explicitOp }) := by
  have hun : unverified io t i p l.state = true := by simp [unverified, hreq, h]
  have hfail : failInstall t step .unsigned l =
      .failed .unsigned { l with state := l.state.journal .install step false step.explicitOp } := by
    unfold failInstall; rw [hdry]; rfl
  unfold commitStep
  cases hs : step.op with
  | install => simp only [hp, commitInstall, hun, if_true, hfail]
  | upgrade => simp only [hp, commitUpgrade, hun, if_true, hfail]
  | remove => exact absurd hs hop

/-- What is left when a step without a good signature is reached. -/
theorem transCommit_of_unsigned {s : State} {done rest : List TransStep} {l : Loop} (hprep : t.prepared = true)
    (hcom : t.committed = false) (hreq : t.requireSignature = true) (hdry : t.dryRun = false)
    (hkey : io.out.keyringLoad = true) (hplan : t.plan = done ++ step :: rest)
    (hloop : commitLoop io t 0 done (start s) = some (.done l)) (hop : step.op ≠ .remove) (hp : step.pkg = some p)
    (hsigned : signed io.out done.length (l.state.mem p) = false) :
    transCommit io t s = (rollbackCommitted io (l.state.journal .install step false step.explicitOp) l.committed).map
      fun s' => (.unsigned, t, s'.release) := by
  have hall := commitLoop_append io t done 0 (step :: rest) _ _ hloop
  rw [← hplan, commitLoop, Nat.zero_add, commitStep_unsigned hreq hdry hop hp hsigned] at hall
  unfold start at hall
  unfold transCommit
  rw [if_neg (by simp [hprep]), if_neg (by simp [hcom]), if_neg (by simp [hkey]), hall]

/-- **Undoing takes away every record that an install wrote**, whatever step the commit
has come to. -/
theorem rollback_no_install {collect : Ptr → Option (List CStr)} {mem₀ : Heap} {db₀ : Db} {trans : ApgTrans}
    {s : State} {done rest : List TransStep} {l : Loop} (hq : Queued mem₀ trans)
    (hprep : transPrepare collect mem₀ db₀ trans = some (.ok, s.mem, t)) (hdry : t.dryRun = false)
    (hdb : Reachable (fun pkg => pkg.metadata.Parsed) s.db) (hlost : s.unrestored = []) (hplan : t.plan = done ++ rest)
    (hloop : commitLoop io t 0 done (start s) = some (.done l)) (step : TransStep) :
    ∃ s', rollbackCommitted io (l.state.journal .install step false step.explicitOp) l.committed = some s' ∧
      (s'.unrestored = [] → ∀ r ∈ done, r.op = .install → s'.db.main.get r.pkgName = none) := by
  -- the same run without the files, and what is known of its records
  obtain ⟨runs, backups, hrefines⟩ := commitLoop_refines io t done 0 (start s)
  have hstart : AgreeLoop (start s) (commitStart s.mem s.db) := ⟨⟨rfl, rfl, hlost⟩, rfl⟩
  have hrel := hrefines hstart fun _ _ => ⟨rfl, rfl⟩
  rw [hloop] at hrel
  obtain ⟨r', hst, hend⟩ := rel_some_left hrel
  obtain ⟨g, order, installs, removals, hp⟩ := transPrepare_ok (queued_fresh hq) hprep
  obtain ⟨hranked, hpkgs⟩ := prepareOK_planOK (queued_fresh hq) hp
  rw [hplan] at hranked hpkgs
  have hdone : PlanOK s.mem ([] ++ done) :=
    ⟨(List.pairwise_append.1 hranked).1, fun r hr => hpkgs r (List.mem_append_left _ hr)⟩
  cases r' with
  | failed err st => exact hend.elim
  | done st =>
    have hinv := RunInv.loop (reachable_recordsFrom dbGet_parsed hdb) hdry done
      (commitStart_inv (reachable_recordsOK hdb)) hdone hst
    rw [List.nil_append] at hinv hdone
    have hnames : ∀ u ∈ l.committed, ∀ backup, u.backup = some backup → backup.previous.metadata.name ≠ none := by
      intro u hu backup hb
      have hc : u.committed ∈ st.committed := by
        rw [← hend.committed]; exact List.mem_map_of_mem hu
      rw [hinv.names _ hc backup.previous (by simp [Undo.committed, hb])]
      simp
    obtain ⟨s', hs'⟩ := rollbackCommitted_isSome io (l.state.journal .install step false step.explicitOp) hnames
    refine ⟨s', hs', fun hall r hr hop => ?_⟩
    have hback := rollbackCommitted_refines io (hend.state.journal .install step false step.explicitOp) runs backups
      l.committed
    rw [hs', hend.committed] at hback
    obtain ⟨w', hw', hagree⟩ := rel_some_left hback
    have hget := rollbackCommitted_main hinv.pkgs hinv.names hw' (hagree.unrestored ▸ hall) r.pkgName
    obtain ⟨c, hc, hcop⟩ := first_install hinv hdone.ranked hr hop
    rw [hc] at hget
    rcases hinv.first _ c hc with ⟨-, hprev⟩ | ⟨hne, -⟩
    · simp only [hprev, Option.map_none] at hget
      rw [hagree.db, hget]
    · exact absurd hcop hne

/-- **Nothing is installed or recorded unless its signature is good.** Whatever the plan
and the outcome of each check, a package was verified before it was installed and
recorded. Without keys nothing happens at all. At a step whose package is not verified
the commit ends: no step after it is taken, and if the writes of the rollback succeed,
no record of an install remains. -/
theorem transCommit_gated (io : RootIo) (t : ApgTrans) (s : State) (hreq : t.requireSignature = true)
    (hdry : t.dryRun = false) (hlog : s.log = []) (hlost : s.unrestored = []) :
    (∀ err t' s', transCommit io t s = some (err, t', s') → GatedLog io t.plan s.mem s'.log) ∧
    (t.prepared = true → t.committed = false → io.out.keyringLoad = false →
      transCommit io t s = some (.unsigned, t, s)) ∧
    ∀ {collect mem₀ db₀ trans}, Queued mem₀ trans → transPrepare collect mem₀ db₀ trans = some (.ok, s.mem, t) →
      Reachable (fun pkg => pkg.metadata.Parsed) s.db → io.out.keyringLoad = true →
      ∀ {done step rest l p}, t.plan = done ++ step :: rest → commitLoop io t 0 done (start s) = some (.done l) →
      step.op ≠ .remove → step.pkg = some p → signed io.out done.length (s.mem p) = false →
      ∃ s', transCommit io t s = some (.unsigned, t, s') ∧ (∀ e ∈ s'.log, e.step < done.length) ∧
        (s'.unrestored = [] → ∀ r ∈ done, r.op = .install → s'.db.main.get r.pkgName = none) := by
  have hnil : GatedLog io t.plan s.mem [] := by
    intro before e after h
    simp at h
  have hstart : ∀ plan, plan = t.plan → LogInv io plan s.mem 0 (start s).state := by
    rintro plan rfl
    refine ⟨fun _ => rfl, ?_, ?_⟩
    · show GatedLog io t.plan s.mem s.log
      rw [hlog]; exact hnil
    · show ∀ e ∈ s.log, e.step < 0
      rw [hlog]; simp
  refine ⟨?_, ?_, ?_⟩
  · intro err t' s' h
    have hinv : ∀ {r}, commitLoop io t 0 t.plan (start s) = some r → LogInv io t.plan s.mem t.plan.length r.state := by
      intro r hl
      have hinv := commitLoop_logged hreq hdry t.plan [] [] (hstart _ (by simp)) hl
      rwa [List.nil_append, List.append_nil, List.length_nil, Nat.zero_add] at hinv
    obtain ⟨-, -, rfl⟩ | ⟨l, -, hl, -, -, rfl⟩ | ⟨l, s₁, hl, hback, -, rfl⟩ := transCommit_cases h
    · rw [hlog]; exact hnil
    · exact (hinv hl).gated
    · show GatedLog io t.plan s.mem s₁.log
      rw [rollbackCommitted_log hback]
      exact (hinv hl).gated
  · intro hprep hcom hkey
    unfold transCommit
    rw [if_neg (by simp [hprep]), if_neg (by simp [hcom]), if_pos (by simp [hreq, hkey])]
  · intro collect mem₀ db₀ trans hq hprep hdb hkey done step rest l p hplan hloop hop hp hsigned
    obtain ⟨g, order, installs, removals, hok⟩ := transPrepare_ok (queued_fresh hq) hprep
    have hinv := commitLoop_logged hreq hdry done [] (step :: rest) (hstart _ (by simp [hplan])) hloop
    have hsame : signed io.out done.length (l.state.mem p) = false := by
      have hpath : (l.state.mem p).pkgPath = (s.mem p).pkgPath := hinv.paths p
      rw [signed, hpath]; exact hsigned
    obtain ⟨s', hs', hrecords⟩ := rollback_no_install hq hprep hdry hdb hlost hplan hloop step
    refine ⟨s'.release, ?_, ?_, hrecords⟩
    · rw [transCommit_of_unsigned hok.prepared hok.committed hreq hdry hkey hplan hloop hop hp hsame, hs']
      rfl
    · intro e he
      have he' : e ∈ s'.log := he
      rw [rollbackCommitted_log hs'] at he'
      simpa using hinv.steps e he'

/-- Two packages with archives, of which only the first is signed. -/
def halfSigned : RootIo :=
  { dirs := ⟨cstr "/", none⟩
    out := { verify := fun i => i = 0 }
    install := fun _ => { archive := some { data := some { items := .nil } } } }

def archived (name : String) : Package := { bare name [] with pkgPath := some (cstr "/x.apg") }

/-- `a` is installed and recorded; at `b` the commit ends, and `a` is taken back. -/
theorem transCommit_gated_second :
    ∃ t s l, t.requireSignature = true ∧ t.dryRun = false ∧ s.log = [] ∧ s.unrestored = [] ∧
      commitLoop halfSigned t 0 [⟨.install, cstr "a", none, true, some 1⟩] (start s) = some (.done l) ∧
      l.state.db.main.get (cstr "a") ≠ none ∧
      ∃ s', transCommit halfSigned t s = some (.unsigned, t, s') ∧ (∀ e ∈ s'.log, e.step < 1) ∧
        s'.db.main.get (cstr "a") = none := by
  have hruns : ∃ mem t, transPrepare (fun _ => none)
        (fun p => if p = 1 then archived "a" else archived "b") (dbOpen true true)
        { installPkgs := [1, 2], requireSignature := true } = some (.ok, mem, t) ∧
      t.requireSignature = true ∧ t.dryRun = false ∧ signed halfSigned.out 1 (mem 2) = false ∧
      ∃ step rest, t.plan = [⟨.install, cstr "a", none, true, some 1⟩] ++ step :: rest ∧ step.op ≠ .remove ∧
        step.pkg = some 2 ∧
      ∃ l, commitLoop halfSigned t 0 [⟨.install, cstr "a", none, true, some 1⟩] (start (blank mem)) = some (.done l) ∧
        l.state.db.main.get (cstr "a") ≠ none ∧
        ∃ r, transCommit halfSigned t (blank mem) = some r ∧ r.2.2.unrestored = [] :=
    ⟨_, _, rfl, rfl, rfl, rfl, _, _, rfl, by decide, rfl, _, rfl, by decide, _, rfl, rfl⟩
  obtain ⟨mem, t, hprep, hreq, hdry, hsigned, step, rest, hplan, hop, hp, l, hloop, hrec, r, hr, hback⟩ := hruns
  have hq : Queued (fun p => if p = 1 then archived "a" else archived "b")
      { installPkgs := [1, 2], requireSignature := true } :=
    Queued.install 2 (Queued.install 1 (Queued.policy true false false Queued.new))
  obtain ⟨s', hs', hlog, hnone⟩ := (transCommit_gated halfSigned t (blank mem) hreq hdry rfl rfl).2.2 hq hprep
    (Reachable.new true true) rfl hplan hloop hop hp hsigned
  rw [hs', Option.some.injEq] at hr
  rw [← hr] at hback
  exact ⟨t, blank mem, l, hreq, hdry, rfl, rfl, hloop, hrec, s', hs', hlog, hnone hback _ (List.mem_singleton.2 rfl) rfl⟩

end Root

end Apg
