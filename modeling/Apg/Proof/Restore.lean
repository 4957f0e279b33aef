import Apg.Lib.Registry
import Apg.Proof.Execute

/-!
# `trans_commit` and the file tables

The lists of files and the owners of paths are a registry, and the steps of a commit
are changes of it: what is written forward and what is written back is said once for
each operation (`Tracks`), and a failed commit is the changes of its steps, made and
taken back.

* `transCommit_restoresFiles_iff`: **when a failed commit leaves the lists and the
  owners as they were.**
-/

namespace Apg

variable {out : Outside} {t : ApgTrans} {db₀ db db' : Db} {i : ℕ} {step : TransStep} {n : CStr} {pkg : Package}

/-! ## The file tables as a registry -/

/-- The file lists and the owners of a database. -/
def registry (db : Db) : Registry CStr CStr where
  lists := loadPackageFiles db
  owner := dbOwner db

/-- A stored list can hold the path: it is not empty, and no newline cuts it. -/
def Keepable (db : Db) (x : CStr) : Prop := db.filesOpen = true ∧ .newline ∉ x ∧ x ≠ []

instance (db : Db) : DecidablePred (Keepable db) := fun _ => inferInstanceAs (Decidable (_ ∧ _))

/-- What adding a package with these files writes to the file tables: the list as it
is read back, and the owner of every path. -/
def filesWritten (db : Db) (files : List (Option CStr)) : Option (List CStr × List CStr) :=
  if files = [] then none
  else some (if db.filesOpen then deserializeFiles (serializeFiles files) else [], files.reduceOption)

/-- The changes of a commit that completes some steps and fails at `step`. An upgrade
is taken back to the list from before if the package has a record (`had`) by then. -/
def undoneChanges (out : Outside) (db : Db) (step : TransStep) (err : TransError) :
    (CStr → Bool) → ℕ → List TransStep → Heap → List (Change CStr CStr)
  | had, i, [], _ =>
    if undoneToo out i step (had step.pkgName) err then
      [⟨step.pkgName, step.op = .upgrade && had step.pkgName, none⟩]
    else []
  | had, i, s :: done, mem =>
    let mem := stepHeap out i s mem
    ⟨s.pkgName, s.op = .upgrade && had s.pkgName,
      filesWritten db ((s.pkg.map fun p => (mem p).packageFiles).getD [])⟩ ::
        undoneChanges out db step err (Function.update had s.pkgName true) (i + 1) done mem

/-! ## Lines -/

/-- A newline ends what is before it. -/
theorem fileLines_append (rest : CStr) : ∀ s line : CStr,
    fileLines line (s ++ .newline :: rest) = fileLines line (s ++ [.newline]) ++ fileLines [] rest := by
  intro s
  induction s with
  | nil =>
    intro line
    simp only [List.nil_append, fileLines, if_true]
    split <;> rfl
  | cons c s ih =>
    intro line
    rw [List.cons_append, List.cons_append, fileLines, fileLines, ih [], ih (line ++ [c])]
    split_ifs <;> rfl

/-- Whatever else is on a list, a path that can be a line is read back from it. -/
theorem mem_deserialize {x : CStr} {files : List (Option CStr)} (hx : x ∈ files.reduceOption)
    (hline : .newline ∉ x) (hne : x ≠ []) : x ∈ deserializeFiles (serializeFiles files) := by
  unfold deserializeFiles serializeFiles
  generalize files.reduceOption = paths at hx ⊢
  induction paths with
  | nil => exact absurd hx (by simp)
  | cons path paths ih =>
    rw [List.flatMap_cons, List.append_assoc, List.singleton_append, fileLines_append, List.mem_append]
    rcases List.mem_cons.1 hx with rfl | hx
    · have hself := fileLines_newline hline [] []
      rw [List.nil_append, if_neg hne] at hself
      left
      rw [hself]
      exact List.mem_cons_self
    · exact Or.inr (ih hx)

theorem keepable_of_mem {x : CStr} {data : CStr} (hopen : db.filesOpen = true) (h : x ∈ deserializeFiles data) :
    Keepable db x :=
  ⟨hopen, newline_notMem_fileLines data [] (by simp) x h, ne_nil_of_mem_fileLines data [] x h⟩

theorem loadPackageFiles_keepable {x : CStr} (h : x ∈ loadPackageFiles db n) : Keepable db x := by
  unfold loadPackageFiles at h
  split at h
  · rename_i hopen
    cases hfiles : db.files.get n with
    | none => rw [hfiles] at h; exact absurd h (by simp)
    | some data =>
      rw [hfiles] at h
      exact keepable_of_mem hopen h
  · exact absurd h (by simp)

theorem filesWritten_backed (b : Bool) (files : List (Option CStr)) :
    Change.Backed (Keepable db) ⟨n, b, filesWritten db files⟩ := by
  unfold filesWritten
  split
  · exact ⟨by simp [Change.given], by simp [Change.kept]⟩
  · refine ⟨fun x hx hkeep => ?_, fun x hx => ?_⟩
    · simp only [Change.given, Change.kept, Option.map_some, Option.getD_some] at hx ⊢
      rw [if_pos hkeep.1]
      exact mem_deserialize hx hkeep.2.1 hkeep.2.2
    · simp only [Change.kept, Option.map_some, Option.getD_some] at hx
      split at hx
      · rename_i hopen
        exact keepable_of_mem hopen hx
      · exact absurd hx (by simp)

/-! ## What a write does to the registry -/

/-- **The tables show the registry**, with both flags as they were at first; and a
package that lists files has a record. -/
structure Tracks (db₀ : Db) (r : Registry CStr CStr) (db : Db) : Prop where
  lists : ∀ n, loadPackageFiles db n = r.lists n
  owner : db₀.fileOwnerOpen = true → ∀ x, dbOwner db x = r.owner x
  filesOpen : db.filesOpen = db₀.filesOpen
  fileOwnerOpen : db.fileOwnerOpen = db₀.fileOwnerOpen
  records : RecordsOK db
  listed : ∀ n, loadPackageFiles db n ≠ [] → db.main.get n ≠ none

variable {r : Registry CStr CStr}

theorem Tracks.same (h : Tracks db₀ r db) (hs : SameTables db db') : Tracks db₀ r db' := by
  refine ⟨fun n => ?_, fun ho x => ?_, ?_, ?_, recordsFrom_congr h.records hs, fun n hn => ?_⟩
  · rw [hs.loadPackageFiles_eq, h.lists]
  · rw [hs.dbOwner_eq, h.owner ho]
  · rw [hs.filesOpen, h.filesOpen]
  · rw [hs.fileOwnerOpen, h.fileOwnerOpen]
  · rw [hs.loadPackageFiles_eq] at hn
    rw [hs.main]
    exact h.listed n hn

theorem mem_loadPackageFiles (db : Db) (n x : CStr) :
    x ∈ loadPackageFiles db n ↔ db.filesOpen = true ∧ x ∈ storedFiles db n := by
  unfold loadPackageFiles storedFiles
  split
  · rename_i hopen
    simp [hopen]
  · rename_i hopen
    simp [hopen]

theorem apply_filesWritten (b : Bool) {files : List (Option CStr)} (h : files ≠ []) :
    r.apply ⟨n, b, filesWritten db files⟩ =
      r.put n (if db.filesOpen then deserializeFiles (serializeFiles files) else []) files.reduceOption := by
  unfold Registry.apply filesWritten
  rw [if_neg h]

theorem Tracks.owner_get (h : Tracks db₀ r db) (ho : db₀.fileOwnerOpen = true) (x : CStr) :
    r.owner x = db.fileOwner.get x := by
  have hopen : db.fileOwnerOpen = true := h.fileOwnerOpen.trans ho
  rw [← h.owner ho x]
  exact if_pos hopen

theorem Tracks.mem_lists (h : Tracks db₀ r db) (n x : CStr) :
    x ∈ r.lists n ↔ db.filesOpen = true ∧ x ∈ storedFiles db n := by
  rw [← h.lists]
  exact mem_loadPackageFiles db n x

theorem Tracks.add_lists (h : Tracks db₀ r db) (ht : AddTxn db n pkg db') (b : Bool) (m : CStr) :
    loadPackageFiles db' m = (r.apply ⟨n, b, filesWritten db₀ pkg.packageFiles⟩).lists m := by
  have hload := loadPackageFiles_add (n := m) ht
  rw [hload, h.filesOpen]
  by_cases hfiles : pkg.packageFiles = []
  · simp [hfiles, filesWritten, Registry.apply, h.lists]
  · rw [apply_filesWritten b hfiles]
    by_cases hm : m = n
    · subst hm
      rw [Registry.put_lists_self]
      by_cases hopen : db₀.filesOpen = true
      · simp [hopen, hfiles]
      · have hnone : loadPackageFiles db m = [] := by
          unfold loadPackageFiles
          rw [h.filesOpen, if_neg hopen]
        simp [hopen, hnone]
    · rw [Registry.put_lists_ne hm]
      simp [hm, h.lists]

theorem Tracks.add_owner (h : Tracks db₀ r db) (ht : AddTxn db n pkg db') (b : Bool)
    (ho : db₀.fileOwnerOpen = true) (x : CStr) :
    dbOwner db' x = (r.apply ⟨n, b, filesWritten db₀ pkg.packageFiles⟩).owner x := by
  have hopen : db.fileOwnerOpen = true := h.fileOwnerOpen.trans ho
  have hnow : dbOwner db' x = db'.fileOwner.get x := if_pos (ht.fileOwnerOpen.trans hopen)
  rw [hnow, ht.owner x]
  by_cases hfiles : pkg.packageFiles = []
  · have hpaths : pkg.paths = [] := by unfold Package.paths; rw [hfiles]; rfl
    simp [hfiles, hpaths, filesWritten, Registry.apply, h.owner_get ho]
  · rw [apply_filesWritten b hfiles]
    simp only [Registry.put, h.mem_lists, h.owner_get ho, hopen, true_and, ne_eq, hfiles, not_false_eq_true, and_assoc]
    rfl

/-- Adding a package is a change of its name. -/
theorem Tracks.add (h : Tracks db₀ r db) (hname : pkg.metadata.name = some n) (ha : addTxn db n pkg = some db')
    (b : Bool) : Tracks db₀ (r.apply ⟨n, b, filesWritten db₀ pkg.packageFiles⟩) db' := by
  have ht := addTxn_spec ha
  refine ⟨h.add_lists ht b, h.add_owner ht b, ht.filesOpen.trans h.filesOpen, ht.fileOwnerOpen.trans h.fileOwnerOpen,
    addTxn_recordsFrom h.records trivial hname ht, fun m hm => ?_⟩
  rw [ht.main, Table.get_put]
  split
  · simp
  · rename_i hne
    have hload := loadPackageFiles_add (n := m) ht
    rw [if_neg fun hm => hne hm.1] at hload
    rw [hload] at hm
    exact h.listed m hm

/-- So is removing one, if it is there. -/
theorem Tracks.remove (h : Tracks db₀ r db) (ht : RemoveTxn db n db') : Tracks db₀ (r.put n [] []) db' := by
  refine ⟨fun m => ?_, fun ho x => ?_, ht.filesOpen.trans h.filesOpen, ht.fileOwnerOpen.trans h.fileOwnerOpen,
    removeTxn_recordsFrom h.records ht, fun m hm => ?_⟩
  · rw [loadPackageFiles_remove ht]
    by_cases hm : m = n
    · subst hm
      rw [Registry.put_lists_self, if_pos rfl]
    · rw [Registry.put_lists_ne hm, if_neg hm, h.lists]
  · have hopen : db.fileOwnerOpen = true := h.fileOwnerOpen.trans ho
    have hnow : dbOwner db' x = db'.fileOwner.get x := if_pos (ht.fileOwnerOpen.trans hopen)
    rw [hnow, ht.fileOwner, deleteFileOwnerEntries_get]
    simp only [Registry.put, h.mem_lists, h.owner_get ho, hopen, true_and, and_assoc, List.not_mem_nil, if_false]
  · rw [loadPackageFiles_remove ht] at hm
    split at hm
    · exact absurd rfl hm
    · rename_i hne
      rw [ht.main, Table.get_del, if_neg hne]
      exact h.listed m hm

/-- A package that is not there has nothing to lose. -/
theorem Tracks.absent (h : Tracks db₀ r db) (hnone : db.main.get n = none) : Tracks db₀ (r.put n [] []) db := by
  have hempty : r.lists n = [] := by
    by_contra hne
    rw [← h.lists] at hne
    exact h.listed n hne hnone
  rw [Registry.put_nil hempty]
  exact h

/-! ## The way back -/

/-- The entry of a change: what it goes back to is the list from before. -/
structure EntryOf (c : Committed) (ch : Change CStr CStr) (before : List CStr) : Prop where
  name : ch.name = c.step.pkgName
  pkg : ∃ p, c.step.pkg = some p
  restored : ch.restores = true → ∃ previous, c.previous = some previous ∧
    previous.metadata.name = some c.step.pkgName ∧ previous.packageFiles = before.map some
  dropped : ch.restores = false → c.previous = none

/-- A list that was read is read back as it is. -/
theorem deserialize_lines {before : List CStr} (h : ∀ x ∈ before, Keepable db x) :
    deserializeFiles (serializeFiles (before.map some)) = before := by
  have hpaths : (before.map some).reduceOption = before := by simp [List.reduceOption]
  rw [deserialize_serialize, hpaths, List.filter_eq_self]
  · intro x hx
    simpa using (h x hx).2.2
  · rw [hpaths]
    exact fun x hx => (h x hx).2.1

/-- Going back to a package is writing the list from before. -/
theorem Tracks.restore {ch : Change CStr CStr} {previous : Package} {before : List CStr} (h : Tracks db₀ r db)
    (hname : previous.metadata.name = some ch.name) (hfiles : previous.packageFiles = before.map some)
    (hkeep : ∀ x ∈ before, Keepable db₀ x) (hres : ch.restores = true) (ha : addTxn db ch.name previous = some db') :
    Tracks db₀ (r.takeBack ch before) db' := by
  have hadd := h.add hname ha true
  rw [hfiles] at hadd
  unfold Registry.takeBack
  rw [if_pos hres]
  by_cases hempty : before = []
  · subst hempty
    exact hadd
  · obtain ⟨x, hx⟩ := List.exists_mem_of_ne_nil before hempty
    have hpaths : (before.map some).reduceOption = before := by simp [List.reduceOption]
    rw [apply_filesWritten true (by simpa using hempty), if_pos (hkeep x hx).1, deserialize_lines hkeep, hpaths] at hadd
    rw [if_neg hempty]
    exact hadd

/-- **Undoing one step takes its change back**, if its write is not lost. -/
theorem rollbackOne_tracks {w w' : World} {c : Committed} {ch : Change CStr CStr} {before : List CStr}
    (h : Tracks db₀ r w.db) (he : EntryOf c ch before) (hkeep : ∀ x ∈ before, Keepable db₀ x)
    (hrun : rollbackOne out w c = some w') (hlost : w'.unrestored = []) :
    Tracks db₀ (r.takeBack ch before) w'.db := by
  obtain ⟨p, hp⟩ := he.pkg
  unfold rollbackOne at hrun
  obtain ⟨w₁, hundone, rfl⟩ := Option.map_eq_some_iff.1 hrun
  rw [journal_unrestored] at hlost
  suffices hsuff : Tracks db₀ (r.takeBack ch before) w₁.db from hsuff.same (journalWrite_tables _ _)
  cases hres : ch.restores with
  | true =>
    obtain ⟨previous, hprev, hname, hfiles⟩ := he.restored hres
    simp only [hprev, hp] at hundone
    unfold upgradeBackupRestore at hundone
    obtain ⟨⟨ok, db₁⟩, hadd, rfl⟩ := Option.map_eq_some_iff.1 hundone
    obtain ⟨-, n', db₂, hn', htxn, hs⟩ | ⟨rfl, -⟩ := dbAdd_cases hadd
    · rw [hname, Option.some.injEq, ← he.name] at hn'
      rw [← he.name] at hname
      subst hn'
      exact (h.restore hname hfiles hkeep hres htxn).same hs
    · exact absurd hlost (by simp)
  | false =>
    have hback : r.takeBack ch before = r.put c.step.pkgName [] [] := by
      unfold Registry.takeBack
      rw [if_neg (by simp [hres]), he.name]
    rw [hback]
    simp only [he.dropped hres, Option.some.injEq] at hundone
    subst hundone
    unfold undoInstall at hlost ⊢
    obtain ⟨-, db₁, htxn, hs⟩ | ⟨hok, hs⟩ := dbRemove_cases (out.undoIo c.idx) w.db c.step.pkgName
    · exact (h.remove htxn).same hs
    · by_cases hnone : w.db.main.get c.step.pkgName = none
      · exact (h.absent hnone).same hs
      · exact absurd hlost (by simp [hok, hnone])

/-! ## The steps of a commit -/

section

variable {st st' : CommitState} {p : Ptr} {err : TransError}

theorem installPackageInRoot_stage {run : InstallRun} {w : World} (h : (installPackageInRoot run w p).1 = true) : run.stage = .done := by
  unfold installPackageInRoot at h
  cases hs : run.stage with
  | done => rfl
  | unpack => rw [hs] at h; exact absurd h (by simp)
  | copy => rw [hs] at h; exact absurd h (by simp)
  | postInstall => rw [hs] at h; exact absurd h (by simp)

/-- A package is recorded: the object it is, with its flag set, is added. -/
theorem recordPkg_done {previous : Option Package} (h : recordPkg out i step p previous st = some (.done st')) :
    (∃ name db₁, (st.world.mem p).metadata.name = some name ∧
      addTxn st.world.db name { st.world.mem p with installedByHand := step.explicitOp } = some db₁ ∧
      SameTables db₁ st'.world.db) ∧
      ∀ q, (st'.world.mem q).packageFiles = (st.world.mem q).packageFiles := by
  unfold recordPkg at h
  simp only [Function.update_self] at h
  obtain ⟨⟨ok, db'⟩, hadd, hend⟩ := Option.map_eq_some_iff.1 h
  obtain ⟨rfl, name, db₁, hn, htxn, hs⟩ | ⟨rfl, -⟩ := dbAdd_cases hadd
  · simp only [if_true, StepEnd.done.injEq] at hend
    subst hend
    refine ⟨⟨name, db₁, hn, htxn, hs.trans (journalWrite_tables _ _)⟩, fun q => ?_⟩
    by_cases hq : q = p
    · subst hq
      simp [World.journal]
    · simp [World.journal, hq]
  · simp at hend

theorem recordPkg_failed {previous : Option Package} (h : recordPkg out i step p previous st = some (.failed err st')) :
    err = .db ∧ SameTables st.world.db st'.world.db ∧ st'.committed = st.committed ++ [⟨i, step, previous⟩] := by
  unfold recordPkg at h
  simp only [Function.update_self] at h
  obtain ⟨⟨ok, db'⟩, hadd, hend⟩ := Option.map_eq_some_iff.1 h
  obtain ⟨rfl, -⟩ | ⟨rfl, hs⟩ := dbAdd_cases hadd
  · simp at hend
  · simp only [Bool.false_eq_true, if_false, StepEnd.failed.injEq] at hend
    obtain ⟨rfl, rfl⟩ := hend
    exact ⟨rfl, hs.trans (journalWrite_tables _ _), rfl⟩

/-- The step has added the object at `p` as it is in `heap`, with the lists there. -/
structure Wrote (st : CommitState) (heap : Heap) (p : Ptr) (st' : CommitState) : Prop where
  txn : ∃ pkg name db₁, pkg.metadata = (st.world.mem p).metadata ∧ pkg.metadata.name = some name ∧
    pkg.packageFiles = (heap p).packageFiles ∧ addTxn st.world.db name pkg = some db₁ ∧ SameTables db₁ st'.world.db
  lists : ∀ q, (st'.world.mem q).packageFiles = (heap q).packageFiles

/-- **A step that completes adds the object of its package**, with the files its
archive turned out to hold. -/
theorem commitStep_wrote (hdry : t.dryRun = false) (hop : step.op ≠ .remove) (hp : step.pkg = some p)
    (h : commitStep out t i step st = some (.done st')) : Wrote st (stepHeap out i step st.world.mem) p st' := by
  have hheap : stepHeap out i step st.world.mem = collectedBy (out.install i) p st.world.mem := by
    unfold stepHeap
    rw [if_neg hop, hp]
  rw [hheap]
  -- both kinds of steps record the object once its data are laid down
  have hrecord : ∀ (w : World) (previous : Option Package), w.mem = collectedBy (out.install i) p st.world.mem →
      w.db = st.world.db → recordPkg out i step p previous { st with world := w } = some (.done st') →
      Wrote st (collectedBy (out.install i) p st.world.mem) p st' := by
    intro w previous hmem hdb hrec
    obtain ⟨⟨name, db₁, hname, htxn, hs⟩, hlists⟩ := recordPkg_done hrec
    simp only [hmem, hdb] at hname htxn hlists
    have hmeta := (collectedBy_same (out.install i) p p st.world.mem).1
    exact ⟨⟨{ collectedBy (out.install i) p st.world.mem p with installedByHand := step.explicitOp }, name, db₁,
      hmeta, hname, rfl, htxn, hs⟩, hlists⟩
  have hlaid : (installPackageInRoot (out.install i) st.world p).1 = true →
      (installPackageInRoot (out.install i) st.world p).2.mem = collectedBy (out.install i) p st.world.mem ∧
        (installPackageInRoot (out.install i) st.world p).2.db = st.world.db := by
    intro hok
    rw [installPackageInRoot_done (installPackageInRoot_stage hok)]
    exact ⟨rfl, rfl⟩
  unfold commitStep at h
  cases hstep : step.op with
  | remove => exact absurd hstep hop
  | install =>
    simp only [hstep, hp, commitInstall, hdry, failInstall, Bool.false_eq_true, if_false] at h
    split_ifs at h with h1 h2
    · exact absurd h (by simp)
    · exact absurd h (by simp)
    · obtain ⟨hmem, hdb⟩ := hlaid (by simpa using h2)
      exact hrecord _ none hmem hdb h
  | upgrade =>
    simp only [hstep, hp, commitUpgrade, hdry, failInstall, Bool.false_eq_true, if_false] at h
    split_ifs at h with h1 h2 h3
    · exact absurd h (by simp)
    · exact absurd h (by simp)
    · exact absurd h (by simp)
    · obtain ⟨hmem, hdb⟩ := hlaid (by simpa using h3)
      exact hrecord _ _ hmem hdb h

theorem commitRemove_fails (hdry : t.dryRun = false) (h : commitRemove out t i step st = .failed err st') :
    SameTables st.world.db st'.world.db ∧ st'.committed = st.committed := by
  unfold commitRemove at h
  rw [if_neg (by simp [hdry])] at h
  simp only at h
  generalize hr : (if out.preRemove i then dbRemove (out.removeIo i) st.world.db step.pkgName
    else (false, st.world.db)) = r at h
  obtain ⟨ok, db'⟩ := r
  have hdb : ok = false → SameTables st.world.db db' := by
    intro hok
    split at hr
    · obtain ⟨htrue, -⟩ | ⟨-, hs⟩ := dbRemove_cases (out.removeIo i) st.world.db step.pkgName
      · rw [hr, hok] at htrue
        exact absurd htrue (by simp)
      · rw [hr] at hs
        exact hs
    · rw [Prod.mk.injEq] at hr
      rw [← hr.2]
      exact SameTables.refl _
  cases ok with
  | true => exact absurd h (by simp)
  | false =>
    simp only [Bool.false_eq_true, if_false, StepEnd.failed.injEq] at h
    obtain ⟨-, rfl⟩ := h
    exact ⟨(hdb rfl).trans (journalWrite_tables _ _), rfl⟩

/-- **A step that fails leaves the tables alone**, and joins those to be undone if it
got far enough. -/
theorem commitStep_fails (hdry : t.dryRun = false) (hpkg : step.op ≠ .remove → ∃ p, step.pkg = some p)
    (h : commitStep out t i step st = some (.failed err st')) :
    SameTables st.world.db st'.world.db ∧ st'.committed = st.committed ++
      if undoneToo out i step (dbGet st.world.db step.pkgName).isSome err then [⟨i, step, previousOf st step⟩]
      else [] := by
  -- a failure that is only noted in the journal
  have hnoted : ∀ (e : TransError) (w : World) (committed : List Committed), SameTables st.world.db w.db →
      some (StepEnd.failed e ⟨w.journal .install step false step.explicitOp, committed⟩) = some (.failed err st') →
      e = err ∧ SameTables st.world.db st'.world.db ∧ st'.committed = committed := by
    intro e w committed hs heq
    simp only [Option.some.injEq, StepEnd.failed.injEq] at heq
    obtain ⟨rfl, rfl⟩ := heq
    exact ⟨rfl, hs.trans (journalWrite_tables _ _), rfl⟩
  unfold commitStep at h
  cases hstep : step.op with
  | remove =>
    rw [hstep] at h
    obtain ⟨hs, hcom⟩ := commitRemove_fails hdry (Option.some.inj h)
    exact ⟨hs, by simp [hcom, undoneToo, hstep]⟩
  | install =>
    obtain ⟨p, hp⟩ := hpkg (by simp [hstep])
    have hinst := (installPackageInRoot_sameRecords (out.install i) st.world p).tables
    simp only [hstep, hp, commitInstall, hdry, failInstall, Bool.false_eq_true, if_false] at h
    split_ifs at h with h1 h2
    · obtain ⟨rfl, hs, hcom⟩ := hnoted _ _ _ (SameTables.refl _) h
      exact ⟨hs, by simp [hcom, undoneToo, hstep]⟩
    · obtain ⟨rfl, hs, hcom⟩ := hnoted _ _ _ hinst h
      exact ⟨hs, by simp [hcom, undoneToo, hstep]⟩
    · obtain ⟨rfl, hs, hcom⟩ := recordPkg_failed h
      exact ⟨hinst.trans hs, by simp [hcom, undoneToo, hstep, previousOf]⟩
  | upgrade =>
    obtain ⟨p, hp⟩ := hpkg (by simp [hstep])
    have hinst := (installPackageInRoot_sameRecords (out.install i) st.world p).tables
    simp only [hstep, hp, commitUpgrade, hdry, failInstall, Bool.false_eq_true, if_false] at h
    split_ifs at h with h1 h2 h3
    · obtain ⟨rfl, hs, hcom⟩ := hnoted _ _ _ (SameTables.refl _) h
      exact ⟨hs, by simp [hcom, undoneToo, hstep]⟩
    · -- what is there could not be saved
      obtain ⟨rfl, hs, hcom⟩ := hnoted _ _ _ (SameTables.refl _) h
      rw [Bool.and_eq_true] at h2
      have hlost : out.backup i = false := by simpa using h2.2
      exact ⟨hs, by simp [hcom, undoneToo, hstep, h2.1, hlost]⟩
    · obtain ⟨rfl, hs, hcom⟩ := hnoted _ _ _ hinst h
      have hsaved : dbGet st.world.db step.pkgName ≠ none → out.backup i = true := by
        intro hne
        have hsome := Option.isSome_iff_ne_none.2 hne
        simpa [hsome] using h2
      exact ⟨hs, by simpa [hcom, undoneToo, hstep, previousOf] using hsaved⟩
    · obtain ⟨rfl, hs, hcom⟩ := recordPkg_failed h
      exact ⟨hinst.trans hs, by simp [hcom, undoneToo, hstep, previousOf]⟩

end

/-! ## The whole way, and back -/

section

variable {mem₀ mem : Heap} {had : CStr → Bool} {w : World} {err : TransError}

/-- What is known before a step: the tables show the registry, `had` the records, and
`mem` the lists of the objects. -/
structure BeforeStep (db₀ : Db) (mem₀ mem : Heap) (had : CStr → Bool) (r : Registry CStr CStr) (w : World) : Prop where
  tracks : Tracks db₀ r w.db
  had : ∀ n, had n = (w.db.main.get n).isSome
  lists : ∀ q, (w.mem q).packageFiles = (mem q).packageFiles
  metadata : ∀ q, (w.mem q).metadata = (mem₀ q).metadata

theorem dbGet_isSome (h : RecordsOK db) (n : CStr) : (dbGet db n).isSome = (db.main.get n).isSome := by
  unfold dbGet
  cases hj : db.main.get n with
  | none => rfl
  | some j =>
    obtain ⟨p, hread, -⟩ := readRecord_name h hj
    rw [Option.bind_some, hread]
    rfl

theorem Tracks.keepable (h : Tracks db₀ r db) (n : CStr) : ∀ x ∈ r.lists n, Keepable db₀ x := by
  intro x hx
  rw [← h.lists] at hx
  have hkeep := loadPackageFiles_keepable hx
  exact ⟨h.filesOpen.symm.trans hkeep.1, hkeep.2⟩

/-- The entry of a step that is undone. -/
theorem BeforeStep.entry {st : CommitState} (h : BeforeStep db₀ mem₀ mem had r st.world) (hop : step.op ≠ .remove)
    (hpkg : ∃ p, step.pkg = some p) (i : ℕ) (written : Option (List CStr × List CStr)) :
    EntryOf ⟨i, step, previousOf st step⟩ ⟨step.pkgName, step.op = .upgrade && had step.pkgName, written⟩
      (r.lists step.pkgName) := by
  have hsome := dbGet_isSome h.tracks.records step.pkgName
  rw [← h.had] at hsome
  refine ⟨rfl, hpkg, fun hres => ?_, fun hres => ?_⟩
  · simp only [Bool.and_eq_true, decide_eq_true_eq] at hres
    rw [hres.2, Option.isSome_iff_exists] at hsome
    obtain ⟨previous, hprev⟩ := hsome
    refine ⟨previous, ?_, dbGet_name h.tracks.records hprev, ?_⟩
    · simp [previousOf, hres.1, hprev]
    · rw [dbGet_files h.tracks.records hprev, h.tracks.lists]
  · unfold previousOf
    cases hstep : step.op with
    | install => rfl
    | remove => exact absurd hstep hop
    | upgrade =>
      rw [hstep] at hres
      rw [show had step.pkgName = false by simpa using hres] at hsome
      simpa using hsome

theorem EntryOf.names {c : Committed} {ch : Change CStr CStr} {before : List CStr} (h : EntryOf c ch before) :
    ∀ previous, c.previous = some previous → previous.metadata.name = some c.step.pkgName := by
  intro previous hprev
  cases hres : ch.restores with
  | true =>
    obtain ⟨previous', hprev', hname, -⟩ := h.restored hres
    rw [hprev', Option.some.injEq] at hprev
    rw [← hprev, hname]
  | false =>
    rw [h.dropped hres] at hprev
    exact absurd hprev (by simp)

/-- The lists of the objects depend on the lists they had. -/
theorem stepHeap_files (out : Outside) (i : ℕ) (step : TransStep) {mem mem' : Heap}
    (h : ∀ q, (mem' q).packageFiles = (mem q).packageFiles) (q : Ptr) :
    (stepHeap out i step mem' q).packageFiles = (stepHeap out i step mem q).packageFiles := by
  unfold stepHeap
  split
  · exact h q
  · cases step.pkg with
    | none => exact h q
    | some p => exact collectedBy_files _ p q h

/-- **A step that completes makes its change.** -/
theorem BeforeStep.after {st st' : CommitState} {p : Ptr} (h : BeforeStep db₀ mem₀ mem had r st.world)
    (hdry : t.dryRun = false) (hop : step.op ≠ .remove) (hp : step.pkg = some p)
    (hname : (mem₀ p).metadata.name = some step.pkgName) (hs : commitStep out t i step st = some (.done st'))
    (hkeeps : ∀ q, (st'.world.mem q).metadata = (st.world.mem q).metadata) (b : Bool) :
    BeforeStep db₀ mem₀ (stepHeap out i step mem) (Function.update had step.pkgName true)
      (r.apply ⟨step.pkgName, b, filesWritten db₀ (stepHeap out i step mem p).packageFiles⟩) st'.world := by
  obtain ⟨⟨pkg, name, db₁, hmeta, hpname, hfiles, htxn, hsame⟩, hlists⟩ := commitStep_wrote hdry hop hp hs
  have hsteps := stepHeap_files out i step h.lists
  have hnn : name = step.pkgName := by
    rw [hmeta, h.metadata p, hname, Option.some.injEq] at hpname
    exact hpname.symm
  subst hnn
  have hadd := h.tracks.add hpname htxn b
  rw [hfiles, hsteps p] at hadd
  refine ⟨hadd.same hsame, fun n => ?_, fun q => (hlists q).trans (hsteps q),
    fun q => (hkeeps q).trans (h.metadata q)⟩
  rw [hsame.main, (addTxn_spec htxn).main, Table.get_put]
  by_cases hn : n = step.pkgName
  · simp [hn]
  · simp [hn, h.had]

/-- **A step that fails is taken back, if it is undone at all.** -/
theorem BeforeStep.fails {st st' : CommitState} (h : BeforeStep db₀ mem₀ mem had r st.world) (hdry : t.dryRun = false)
    (hpkg : step.op ≠ .remove → ∃ p, step.pkg = some p) (hfail : commitStep out t i step st = some (.failed err st')) :
    ∃ new, st'.committed = st.committed ++ new ∧
      ∀ w, rollbackCommitted out st'.world new = some w → w.unrestored = [] →
        Tracks db₀ (r.undone (undoneChanges out db₀ step err had i [] mem)) w.db := by
  obtain ⟨hsame, hcom⟩ := commitStep_fails hdry hpkg hfail
  rw [dbGet_isSome h.tracks.records, ← h.had] at hcom
  refine ⟨_, hcom, fun w hback hlost => ?_⟩
  rw [undoneChanges]
  have htracks := h.tracks.same hsame
  split_ifs at hback ⊢ with hjoins
  · have hop : step.op ≠ .remove := by
      intro hop
      simp [undoneToo, hop] at hjoins
    simp only [rollbackCommitted, Option.bind_some] at hback
    exact rollbackOne_tracks htracks (h.entry hop (hpkg hop) i none) (h.tracks.keepable _) hback hlost
  · simp only [rollbackCommitted, Option.some.injEq] at hback
    subst hback
    exact htracks

/-- **A commit that fails is the changes of its steps, made and taken back.** -/
theorem commitRun_undone (hdry : t.dryRun = false) : ∀ (done : List TransStep) {i : ℕ} {st st₁ st₂ : CommitState}
    {mem : Heap} {had : CStr → Bool} {r : Registry CStr CStr}, BeforeStep db₀ mem₀ mem had r st.world →
    (∀ s ∈ done, s.op ≠ .remove) →
    (∀ s ∈ done ++ [step], s.op ≠ .remove → ∃ p, s.pkg = some p ∧ (mem₀ p).metadata.name = some s.pkgName) →
    commitLoop out t i done st = some (.done st₁) →
    commitStep out t (i + done.length) step st₁ = some (.failed err st₂) →
    ∃ new, st₂.committed = st.committed ++ new ∧
      ∀ w, rollbackCommitted out st₂.world new = some w → w.unrestored = [] →
        Tracks db₀ (r.undone (undoneChanges out db₀ step err had i done mem)) w.db := by
  intro done
  induction done with
  | nil =>
    intro i st st₁ st₂ mem had r h _ hpkgs hloop hfail
    simp only [commitLoop, Option.some.injEq, StepEnd.done.injEq] at hloop
    subst hloop
    have hpkg : step.op ≠ .remove → ∃ p, step.pkg = some p := by
      intro hop
      obtain ⟨p, hp, -⟩ := hpkgs step (by simp) hop
      exact ⟨p, hp⟩
    exact h.fails hdry hpkg hfail
  | cons s done ih =>
    intro i st st₁ st₂ mem had r h hnone hpkgs hloop hfail
    have hop := hnone s List.mem_cons_self
    obtain ⟨p, hp, hname⟩ := hpkgs s (by simp) hop
    have hnow : s.op ≠ .remove → ∃ p, s.pkg = some p ∧ (st.world.mem p).metadata.name = some s.pkgName :=
      fun _ => ⟨p, hp, h.metadata p ▸ hname⟩
    have hindex : i + (s :: done).length = i + 1 + done.length := by
      rw [List.length_cons]; omega
    rw [hindex] at hfail
    simp only [commitLoop] at hloop
    cases hs : commitStep out t i s st with
    | none => rw [hs] at hloop; exact absurd hloop (by simp)
    | some e =>
      rw [hs] at hloop
      cases e with
      | failed err' st' => exact absurd hloop (by simp)
      | done st' =>
        rcases commitStep_cases hdry hnow hs with hrec | hrem
        · have hafter := h.after hdry hop hp hname hs hrec.keeps.metadata (s.op = .upgrade && had s.pkgName)
          obtain ⟨new, hcom, hundone⟩ := ih hafter (fun s hs => hnone s (List.mem_cons_of_mem _ hs))
            (fun s hs => hpkgs s (List.mem_cons_of_mem _ hs)) hloop hfail
          refine ⟨⟨i, s, previousOf st s⟩ :: new, ?_, fun w hback hlost => ?_⟩
          · rw [hcom, hrec.committed, List.append_assoc, List.singleton_append]
          · -- the later steps are undone first
            simp only [rollbackCommitted] at hback
            obtain ⟨w₁, hrest, hone⟩ := Option.bind_eq_some_iff.1 hback
            have hentry := h.entry hop ⟨p, hp⟩ i (filesWritten db₀ (stepHeap out i s mem p).packageFiles)
            have hlost₁ := (rollbackOne_main ⟨p, hp⟩ hentry.names hone hlost).1
            have hinner := hundone w₁ hrest hlost₁
            have hback := rollbackOne_tracks hinner hentry (h.tracks.keepable _) hone hlost
            rw [undoneChanges, hp]
            exact hback
        · exact absurd hrem.op hop

/-! ## What the changes are like -/

theorem undoneChanges_backed (db : Db) : ∀ (done : List TransStep) (had : CStr → Bool) (i : ℕ) (mem : Heap),
    ∀ c ∈ undoneChanges out db step err had i done mem, c.Backed (Keepable db) := by
  intro done
  induction done with
  | nil =>
    intro had i mem c hc
    rw [undoneChanges] at hc
    split at hc
    · rw [List.mem_singleton.1 hc]
      exact ⟨by simp [Change.given], by simp [Change.kept]⟩
    · exact absurd hc (by simp)
  | cons s done ih =>
    intro had i mem c hc
    rw [undoneChanges] at hc
    rcases List.mem_cons.1 hc with rfl | hc
    · exact filesWritten_backed _ _
    · exact ih _ _ _ c hc

/-- Behind an upgrade, every change of a name that has a record restores. -/
theorem undoneChanges_restores : ∀ (done : List TransStep) {had : CStr → Bool} {i : ℕ} {mem : Heap},
    (∀ s ∈ done, s.op = .upgrade) → step.op ≠ .install →
    ∀ c ∈ undoneChanges out db step err had i done mem, had c.name = true → c.restores = true := by
  intro done
  induction done with
  | nil =>
    intro had i mem _ hop c hc hhad
    rw [undoneChanges] at hc
    split at hc
    · rename_i hjoins
      rw [List.mem_singleton.1 hc] at hhad ⊢
      have hup : step.op = .upgrade := by
        simp only [undoneToo, hop, decide_false, Bool.false_and, Bool.false_or, Bool.and_eq_true,
          decide_eq_true_eq] at hjoins
        exact hjoins.1
      simp only at hhad
      simp [hup, hhad]
    · exact absurd hc (by simp)
  | cons s done ih =>
    intro had i mem hups hop c hc hhad
    rw [undoneChanges] at hc
    rcases List.mem_cons.1 hc with rfl | hc
    · simp only at hhad
      simp [hups s List.mem_cons_self, hhad]
    · apply ih (fun s hs => hups s (List.mem_cons_of_mem _ hs)) hop c hc
      by_cases hn : c.name = s.pkgName
      · simp [hn]
      · simp [hn, hhad]

/-- **Once a change of a name restores, the later ones do**: no install comes behind an
upgrade. -/
theorem undoneChanges_mono : ∀ (done : List TransStep) {had : CStr → Bool} {i : ℕ} {mem : Heap},
    (done ++ [step]).Pairwise (fun a b => a.op.rank ≤ b.op.rank) → (∀ s ∈ done, s.op ≠ .remove) →
    (undoneChanges out db step err had i done mem).Pairwise fun a b =>
      a.name = b.name → a.restores = true → b.restores = true := by
  intro done
  induction done with
  | nil =>
    intro had i mem _ _
    rw [undoneChanges]
    split
    · exact List.pairwise_singleton _ _
    · exact List.Pairwise.nil
  | cons s done ih =>
    intro had i mem hranked hnone
    obtain ⟨hle, hrest⟩ := List.pairwise_cons.1 hranked
    rw [undoneChanges]
    refine List.pairwise_cons.2 ⟨?_, ih hrest fun s hs => hnone s (List.mem_cons_of_mem _ hs)⟩
    intro b hb hname hres
    simp only [Bool.and_eq_true, decide_eq_true_eq] at hres hname
    have hbehind : ∀ a ∈ done ++ [step], a.op ≠ .install := by
      intro a ha hop
      have hrank := hle a ha
      rw [hres.1, hop] at hrank
      exact absurd hrank (by decide)
    have hups : ∀ a ∈ done, a.op = .upgrade := by
      intro a ha
      cases hop : a.op with
      | install => exact absurd hop (hbehind a (List.mem_append_left _ ha))
      | upgrade => rfl
      | remove => exact absurd hop (hnone a (List.mem_cons_of_mem _ ha))
    apply undoneChanges_restores done hups (hbehind step (by simp)) b hb
    simp [← hname]

end

/-! ## Databases that can come about -/

theorem Tracks.backed (h : Tracks db₀ r db) (hb : Registry.Backed (Keepable db₀) r) :
    Tracks db (registry db) db ∧ Registry.Backed (Keepable db) (registry db) := by
  refine ⟨⟨fun _ => rfl, fun _ _ => rfl, rfl, rfl, h.records, h.listed⟩, fun x n hx hn => ?_, fun n x hx => ?_⟩
  · have hopen : db.fileOwnerOpen = true := by
      by_contra hclosed
      have hnone : dbOwner db x = none := if_neg hclosed
      rw [show dbOwner db x = some n from hn] at hnone
      exact absurd hnone (by simp)
    have howner : dbOwner db x = r.owner x := h.owner (h.fileOwnerOpen.symm.trans hopen) x
    have hmem := hb.owner x n ⟨h.filesOpen.symm.trans hx.1, hx.2⟩ (howner.symm.trans hn)
    rw [← h.lists] at hmem
    exact hmem
  · exact loadPackageFiles_keepable hx

theorem dbAdd_backed {io : ℕ → Rc} {ok : Bool} (h : Tracks db (registry db) db)
    (hb : Registry.Backed (Keepable db) (registry db)) (ha : dbAdd io db pkg = some (ok, db')) :
    Tracks db' (registry db') db' ∧ Registry.Backed (Keepable db') (registry db') := by
  obtain ⟨-, name, db₁, hname, htxn, hs⟩ | ⟨-, hs⟩ := dbAdd_cases ha
  · have hadd := (h.add hname htxn false).same hs
    exact hadd.backed (Registry.apply_backed hb (filesWritten_backed _ _))
  · exact (h.same hs).backed hb

theorem dbUpdate_backed {io : ℕ → Rc} {change : Package → Package} {ok : Bool} (h : Tracks db (registry db) db)
    (hb : Registry.Backed (Keepable db) (registry db)) (hu : dbUpdate io db n change = some (ok, db')) :
    Tracks db' (registry db') db' ∧ Registry.Backed (Keepable db') (registry db') := by
  obtain ⟨p, db₁, db₂, -, hs₁, hadd, hs₂⟩ | ⟨-, hs⟩ := dbUpdate_cases hu
  · obtain ⟨h₁, hb₁⟩ := (h.same hs₁).backed hb
    obtain ⟨h₂, hb₂⟩ := dbAdd_backed h₁ hb₁ hadd
    exact (h₂.same hs₂).backed hb₂
  · exact (h.same hs).backed hb

/-- **An owner of a path has it on its list**, if the list can hold it, after any
sequence of writes. -/
theorem reachable_backed {P : Package → Prop} (h : Reachable P db) :
    Tracks db (registry db) db ∧ Registry.Backed (Keepable db) (registry db) := by
  induction h with
  | new f o =>
    have hlists : ∀ n, loadPackageFiles (dbOpen f o) n = [] := by
      intro n
      unfold loadPackageFiles
      split <;> rfl
    have howner : ∀ x, dbOwner (dbOpen f o) x = none := by
      intro x
      unfold dbOwner
      split <;> rfl
    refine ⟨⟨fun _ => rfl, fun _ _ => rfl, rfl, rfl, ?_, fun n hn => absurd (hlists n) hn⟩, fun x n _ hn => ?_,
      fun n x hx => loadPackageFiles_keepable hx⟩
    · exact reachable_recordsOK (Reachable.new (P := P) f o)
    · rw [show (registry (dbOpen f o)).owner x = none from howner x] at hn
      exact absurd hn (by simp)
  | add io _ _ ha ih => exact dbAdd_backed ih.1 ih.2 ha
  | @remove db io n _ ih =>
    obtain ⟨-, db₁, htxn, hs⟩ | ⟨-, hs⟩ := dbRemove_cases io db n
    · exact ((ih.1.remove htxn).same hs).backed (Registry.put_backed ih.2 (by simp) (by simp))
    · exact (ih.1.same hs).backed ih.2
  | setHold io n held _ hu ih => exact dbUpdate_backed ih.1 ih.2 hu
  | setInstalledByHand io n byHand _ hu ih => exact dbUpdate_backed ih.1 ih.2 hu

/-! ## A failed commit -/

/-- The changes of the file tables by a commit that completes the steps `done` and
fails at `step`. -/
def commitChanges (out : Outside) (mem : Heap) (db : Db) (done : List TransStep) (step : TransStep)
    (err : TransError) : List (Change CStr CStr) :=
  undoneChanges out db step err (fun n => (db.main.get n).isSome) 0 done mem

/-- **When a failed commit leaves the file lists and the owners as they were.** Of the
steps about a package, the first one finds no list and is no upgrade; or it is one,
and if it finds an empty list then every list written by them is empty. Of the steps
about a path, the first upgrade from a list with the path is of the package that owned
it, or of one that has it on its list only since; and without such an upgrade, a path
that is written had no owner. -/
theorem transCommit_restoresFiles_iff {collect : Ptr → Option (List CStr)} {mem₀ mem : Heap} {db₀ db : Db}
    {trans t t' : ApgTrans} {done : List TransStep} {err err' : TransError} {w : World} (hq : Queued mem₀ trans)
    (hprep : transPrepare collect mem₀ db₀ trans = some (.ok, mem, t)) (hdry : t.dryRun = false)
    (hdb : Reachable (fun _ => True) db) (hfail : FailsAt out t mem db done step err)
    (hsteps : ∀ s ∈ done, s.op ≠ .remove) (hcommit : transCommit out mem db t = some (err', t', w))
    (hwrites : w.unrestored = []) :
    ((∀ n, loadPackageFiles w.db n = loadPackageFiles db n) ∧ ∀ x, dbOwner w.db x = dbOwner db x) ↔
      (∀ n, (registry db).ListKept (commitChanges out mem db done step err) n) ∧
        (db.fileOwnerOpen = true →
          ∀ x, (registry db).OwnerKept (Keepable db) (commitChanges out mem db done step err) x) := by
  obtain ⟨htracks, hbacked⟩ := reachable_backed hdb
  obtain ⟨⟨hranked, hpkgs⟩, hprepared, hcommitted⟩ := hfail.planOK hq hprep
  have hmono : (commitChanges out mem db done step err).Pairwise fun a b =>
      a.name = b.name → a.restores = true → b.restores = true := undoneChanges_mono done hranked hsteps
  -- the commit is the changes, made and taken back
  obtain ⟨st, st', hloop, hstep, hrun⟩ := transCommit_of_failsAt hprepared hcommitted hfail
  rw [hrun] at hcommit
  obtain ⟨w₁, hback, hw⟩ := Option.map_eq_some_iff.1 hcommit
  simp only [Prod.mk.injEq] at hw
  obtain ⟨-, -, rfl⟩ := hw
  have hbefore : BeforeStep db mem mem (fun n => (db.main.get n).isSome) (registry db) (commitStart mem db).world :=
    ⟨htracks.same ⟨rfl, rfl, rfl, rfl, rfl, rfl⟩, fun _ => rfl, fun _ => rfl, fun _ => rfl⟩
  rw [← Nat.zero_add done.length] at hstep
  obtain ⟨new, hnew, hundone⟩ := commitRun_undone hdry done hbefore hsteps hpkgs hloop hstep
  rw [hnew, show (commitStart mem db).committed = [] from rfl, List.nil_append] at hback
  have hafter : Tracks db ((registry db).undone (commitChanges out mem db done step err)) w₁.db :=
    hundone w₁ hback hwrites
  have hlists : ∀ n, loadPackageFiles { w₁.db with suppressJournal := false } n =
      ((registry db).undone (commitChanges out mem db done step err)).lists n := hafter.lists
  by_cases hopen : db.fileOwnerOpen = true
  · have howner : ∀ x, dbOwner { w₁.db with suppressJournal := false } x =
        ((registry db).undone (commitChanges out mem db done step err)).owner x := hafter.owner hopen
    simp only [hlists, howner, hopen, forall_const]
    exact Registry.undone_iff hbacked (undoneChanges_backed db done _ 0 mem) hmono
  · -- nobody owns anything
    have hclosed : ∀ x, dbOwner { w₁.db with suppressJournal := false } x = dbOwner db x := by
      intro x
      unfold dbOwner
      rw [if_neg hopen, if_neg]
      rw [hafter.fileOwnerOpen]
      exact hopen
    simp only [hlists, hclosed, hopen, implies_true, and_true, false_implies, Bool.false_eq_true]
    exact forall_congr' fun n => Registry.undone_lists_iff hmono

/-- `a` with a file is upgraded to a version with another one, and when `b` cannot be
removed the first file is its file again. -/
theorem transCommit_restoresFiles_upgraded :
    ∃ db trans mem t w, Reachable (fun _ => True) db ∧ Queued (fun _ => bare "a" ["/y"]) trans ∧
      transPrepare (fun _ => none) (fun _ => bare "a" ["/y"]) db trans = some (.ok, mem, t) ∧
      transCommit noRemove mem db t = some (.removeFailed, t, w) ∧ dbOwner db (cstr "/x") = some (cstr "a") ∧
      (∀ n, loadPackageFiles w.db n = loadPackageFiles db n) ∧ ∀ x, dbOwner w.db x = dbOwner db x := by
  have hruns : ∃ db₁, dbAdd (fun _ => .success) (dbOpen true true) (bare "a" ["/x"]) = some (true, db₁) ∧
      ∃ db, dbAdd (fun _ => .success) db₁ (bare "b" []) = some (true, db) ∧
        (loadPackageFiles db (cstr "a") = [cstr "/x"] ∧ dbOwner db (cstr "/x") = some (cstr "a") ∧
          dbOwner db (cstr "/y") = none ∧ db.filesOpen = true) ∧
        ∃ mem t, transPrepare (fun _ => none) (fun _ => bare "a" ["/y"]) db
            { upgradePkgs := [1], removeNames := [cstr "b"] } = some (.ok, mem, t) ∧
          t.dryRun = false ∧
          FailsAt noRemove t mem db [⟨.upgrade, cstr "a", none, false, some 1⟩] ⟨.remove, cstr "b", none, true, none⟩
            .removeFailed ∧
          commitChanges noRemove mem db [⟨.upgrade, cstr "a", none, false, some 1⟩]
            ⟨.remove, cstr "b", none, true, none⟩ .removeFailed =
              [⟨cstr "a", true, some ([cstr "/y"], [cstr "/y"])⟩] ∧
          ∃ w, transCommit noRemove mem db t = some (.removeFailed, t, w) ∧ w.unrestored = [] :=
    ⟨_, rfl, _, rfl, ⟨by decide, by decide, by decide, rfl⟩, _, _, rfl, rfl, ⟨by decide, [], _, _, rfl, rfl, rfl⟩, rfl,
      _, rfl, rfl⟩
  obtain ⟨db₁, h1, db, h2, ⟨hload, hx, hy, hopen⟩, mem, t, hprep, hdry, hfail, hchanges, w, hcommit, hlost⟩ := hruns
  have hq : Queued (fun _ => bare "a" ["/y"]) { upgradePkgs := [1], removeNames := [cstr "b"] } :=
    Queued.remove (cstr "b") (Queued.upgrade 1 Queued.new)
  have hdb : Reachable (fun _ => True) db := ((Reachable.new true true).add _ trivial h1).add _ trivial h2
  have hsteps : ∀ s ∈ [(⟨.upgrade, cstr "a", none, false, some 1⟩ : TransStep)], s.op ≠ .remove := by
    intro s hs
    rw [List.mem_singleton.1 hs]
    simp
  refine ⟨db, _, mem, t, w, hdb, hq, hprep, hcommit, hx,
    (transCommit_restoresFiles_iff hq hprep hdry hdb hfail hsteps hcommit hlost).2 ?_⟩
  rw [hchanges]
  refine ⟨fun n c hc => ?_, fun _ x => ⟨fun n hn => ?_, fun hnone n hn => ?_⟩⟩
  · -- the only change restores, and finds a list that is not empty
    have hfirst := List.find?_some hc
    have hmem := List.mem_singleton.1 (List.mem_of_find?_eq_some hc)
    rw [hmem] at hfirst ⊢
    have hn : cstr "a" = n := by simpa using hfirst
    rw [if_pos rfl, ← hn]
    intro hempty
    rw [show (registry db).lists (cstr "a") = [cstr "/x"] from hload] at hempty
    exact absurd hempty (by simp)
  · rw [Registry.backTo] at hn
    split_ifs at hn with hback
    · have hin : x = cstr "/x" := by
        have hin : x ∈ loadPackageFiles db (cstr "a") := hback.2
        rw [hload] at hin
        exact List.mem_singleton.1 hin
      rw [← Option.some.inj hn, if_pos hback.2, hin]
      exact hx
    · exact absurd hn (by simp [Registry.backTo])
  · have hin : x = cstr "/y" := by
      obtain ⟨c, hc, -, hgiven⟩ := Registry.mem_given_of_last hn
      rw [List.mem_singleton.1 hc] at hgiven
      exact List.mem_singleton.1 hgiven
    rw [hin, if_pos ⟨hopen, by decide, by decide⟩]
    exact hy

/-- **An upgrade gives a package without files one that belongs to another**: when `b`
cannot be removed the package keeps it, on its list and as its owner. -/
theorem transCommit_restoresFiles_kept :
    ∃ db trans mem t done step w, Reachable (fun _ => True) db ∧ Queued (fun _ => bare "a" ["/x"]) trans ∧
      transPrepare (fun _ => none) (fun _ => bare "a" ["/x"]) db trans = some (.ok, mem, t) ∧ t.dryRun = false ∧
      FailsAt noRemove t mem db done step .removeFailed ∧ (∀ s ∈ done, s.op ≠ .remove) ∧
      transCommit noRemove mem db t = some (.removeFailed, t, w) ∧ w.unrestored = [] ∧
      loadPackageFiles db (cstr "a") = [] ∧ loadPackageFiles w.db (cstr "a") = [cstr "/x"] ∧
      dbOwner db (cstr "/x") = some (cstr "c") ∧ dbOwner w.db (cstr "/x") = some (cstr "a") := by
  have hruns : ∃ db₁, dbAdd (fun _ => .success) (dbOpen true true) (bare "a" []) = some (true, db₁) ∧
      ∃ db₂, dbAdd (fun _ => .success) db₁ (bare "b" []) = some (true, db₂) ∧
      ∃ db, dbAdd (fun _ => .success) db₂ (bare "c" ["/x"]) = some (true, db) ∧
        ∃ mem t, transPrepare (fun _ => none) (fun _ => bare "a" ["/x"]) db
            { upgradePkgs := [1], removeNames := [cstr "b"] } = some (.ok, mem, t) ∧
          t.dryRun = false ∧
          FailsAt noRemove t mem db [⟨.upgrade, cstr "a", none, false, some 1⟩] ⟨.remove, cstr "b", none, true, none⟩
            .removeFailed ∧
          ∃ w, transCommit noRemove mem db t = some (.removeFailed, t, w) ∧ w.unrestored = [] ∧
            loadPackageFiles db (cstr "a") = [] ∧ loadPackageFiles w.db (cstr "a") = [cstr "/x"] ∧
            dbOwner db (cstr "/x") = some (cstr "c") ∧ dbOwner w.db (cstr "/x") = some (cstr "a") :=
    ⟨_, rfl, _, rfl, _, rfl, _, _, rfl, rfl, ⟨by decide, [], _, _, rfl, rfl, rfl⟩, _, rfl, rfl, by decide, by decide,
      by decide, by decide⟩
  obtain ⟨db₁, h1, db₂, h2, db, h3, mem, t, hprep, hdry, hfail, w, hcommit, hlost, hends⟩ := hruns
  have hq : Queued (fun _ => bare "a" ["/x"]) { upgradePkgs := [1], removeNames := [cstr "b"] } :=
    Queued.remove (cstr "b") (Queued.upgrade 1 Queued.new)
  have hdb : Reachable (fun _ => True) db :=
    (((Reachable.new true true).add _ trivial h1).add _ trivial h2).add _ trivial h3
  refine ⟨db, _, mem, t, _, _, w, hdb, hq, hprep, hdry, hfail, fun s hs => ?_, hcommit, hlost, hends⟩
  rw [List.mem_singleton.1 hs]
  simp

end Apg
