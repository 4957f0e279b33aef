import Apg.Proof.Commit

/-!
# Carrying out a prepared plan

With everything outside going well, a step that delivers a package completes, and a
removal completes if the package has a record at that moment. `trans_prepare` does
not ask for that, and a dry run does not look.

* `transCommit_executable_iff`: **a dry run of a prepared transaction returns
  `TRANS_OK`, and a commit exactly when every name queued for removal is there to be
  removed, and queued once.**
-/

namespace Apg

variable {out : Outside} {t : ApgTrans} {mem : Heap} {db db' : Db} {i : ℕ} {step : TransStep} {n : CStr}
  {pkg : Package}

/-! ## What the store accepts -/

/-- The names of the sub-databases there can be. -/
def reservedNames : List CStr := [cstr "files", cstr "file_owner", cstr "journal"]

/-- The database can be written to, and its records stand under keys of their own. -/
structure StoreOK (db : Db) : Prop where
  writable : db.readonly = false
  named : ∀ k ∈ db.namedDbs, k ∈ reservedNames
  keys : ∀ n, db.main.get n ≠ none → validKey n = true ∧ n ∉ db.namedDbs

theorem journalWrite_storeOK (h : StoreOK db) (e : JournalEntry) : StoreOK (journalWrite db e) := by
  unfold journalWrite
  split
  · rename_i hfree
    refine ⟨h.writable, fun k hk => ?_, fun n hn => ?_⟩
    · simp only at hk
      split at hk
      · exact h.named k hk
      · rcases List.mem_append.1 hk with hk | hk
        · exact h.named k hk
        · rw [List.mem_singleton.1 hk]; decide
    · obtain ⟨hvalid, hnot⟩ := h.keys n hn
      refine ⟨hvalid, ?_⟩
      simp only
      split
      · exact hnot
      · -- the table of the journal is made only while no record has its name
        intro hin
        rcases List.mem_append.1 hin with hin | hin
        · exact hnot hin
        · rw [List.mem_singleton.1 hin] at hn
          exact hn hfree
  · exact h

/-- `putFiles` in one piece. -/
theorem putFiles_eq (db : Db) (name : CStr) (files : List (Option CStr)) :
    putFiles db name files =
      if db.fileOwnerOpen then
        (putOwners name files.reduceOption (deleteFileOwnerEntries db name).fileOwner).map fun owners =>
          { db with
            files := if db.filesOpen then db.files.put name (serializeFiles files) else db.files
            fileOwner := owners }
      else
        some { db with
          files := if db.filesOpen then db.files.put name (serializeFiles files) else db.files
          fileOwner := (deleteFileOwnerEntries db name).fileOwner } := by
  unfold putFiles
  simp only
  rw [deleteFileOwnerEntries_same]
  generalize (deleteFileOwnerEntries db name).fileOwner = owners
  by_cases hf : db.filesOpen = true
  all_goals
    simp only [hf, if_true, Bool.false_eq_true, if_false]

theorem addTxn_storeOK (h : StoreOK db) (ha : addTxn db n pkg = some db') : StoreOK db' := by
  have hspec := addTxn_spec ha
  have hnamed := (addTxn_journal ha).2.2
  refine ⟨hspec.readonly.trans h.writable, hnamed ▸ h.named, fun m hm => ?_⟩
  rw [hnamed]
  rw [hspec.main, Table.get_put] at hm
  split at hm
  · rename_i heq
    rw [heq]; exact ⟨hspec.key, addTxn_unreserved ha⟩
  · exact h.keys m hm

theorem journalUnless_storeOK (h : StoreOK db) (e : JournalEntry) :
    StoreOK (if db.suppressJournal then db else journalWrite db e) := by
  split
  · exact h
  · exact journalWrite_storeOK h e

theorem dbAdd_storeOK {io : ℕ → Rc} {ok : Bool} (h : StoreOK db) (ha : dbAdd io db pkg = some (ok, db')) :
    StoreOK db' := by
  unfold dbAdd at ha
  split at ha
  · simp only [Option.some.injEq, Prod.mk.injEq] at ha
    rw [← ha.2]; exact h
  split at ha
  · exact absurd ha (by simp)
  rename_i name _
  rcases dbAddLoop_cases io db name pkg mapGrowAttempts 0 with ⟨db₁, htxn, hloop⟩ | ⟨rc, -, hloop⟩
  · simp only [hloop, Option.some.injEq, Prod.mk.injEq] at ha
    rw [← ha.2]
    exact journalUnless_storeOK (addTxn_storeOK h htxn) _
  · simp only [hloop, Option.some.injEq, Prod.mk.injEq] at ha
    rw [← ha.2]
    exact journalUnless_storeOK h _

theorem removeTxn_storeOK (h : StoreOK db) (io : Rc) (n : CStr) : StoreOK (removeTxn io db n).2 := by
  -- a record less changes nothing about the others
  have hdel : ∀ files owners, StoreOK { db with main := db.main.del n, files := files, fileOwner := owners } := by
    intro files owners
    refine ⟨h.writable, h.named, fun m hm => h.keys m ?_⟩
    simp only [Table.get_del] at hm
    split at hm
    · exact absurd rfl hm
    · exact hm
  unfold removeTxn
  split
  · split
    · exact h
    split
    · exact h
    simp only
    split
    · rw [deleteFileOwnerEntries_same]
      exact hdel _ _
    · exact hdel _ _
  · exact h

theorem dbRemove_storeOK (h : StoreOK db) (io : Rc) (n : CStr) : StoreOK (dbRemove io db n).2 := by
  unfold dbRemove
  split
  · exact h
  · exact journalUnless_storeOK (removeTxn_storeOK h io n) _

theorem dbUpdate_storeOK {io : ℕ → Rc} {change : Package → Package} {ok : Bool} (h : StoreOK db)
    (hu : dbUpdate io db n change = some (ok, db')) : StoreOK db' := by
  unfold dbUpdate at hu
  split at hu
  · simp only [Option.some.injEq, Prod.mk.injEq] at hu
    rw [← hu.2]; exact h
  split at hu
  · simp only [Option.some.injEq, Prod.mk.injEq] at hu
    rw [← hu.2]; exact h
  · obtain ⟨⟨ok', db₂⟩, hadd, hres⟩ := Option.map_eq_some_iff.1 hu
    simp only [Prod.mk.injEq] at hres
    rw [← hres.2]
    have hquiet : StoreOK { db with suppressJournal := true } := ⟨h.writable, h.named, h.keys⟩
    have hadded := dbAdd_storeOK hquiet hadd
    exact ⟨hadded.writable, hadded.named, hadded.keys⟩

theorem reachable_storeOK {P : Package → Prop} (h : Reachable P db) : StoreOK db := by
  induction h with
  | new f o =>
    refine ⟨rfl, fun k hk => ?_, fun n hn => absurd rfl hn⟩
    cases f <;> cases o <;> simp [dbOpen, reservedNames] at hk ⊢ <;> tauto
  | add io _ _ ha ih => exact dbAdd_storeOK ih ha
  | remove io n _ ih => exact dbRemove_storeOK ih io n
  | setHold io n held _ hu ih => exact dbUpdate_storeOK ih hu
  | setInstalledByHand io n byHand _ hu ih => exact dbUpdate_storeOK ih hu

/-! ## Writes that succeed -/

theorem putOwners_succeeds {n : CStr} : ∀ {paths : List CStr} (owners : Table CStr CStr),
    (∀ path ∈ paths, validKey path = true) → ∃ owners', putOwners n paths owners = some owners' := by
  intro paths
  induction paths with
  | nil => intro owners _; exact ⟨owners, rfl⟩
  | cons path paths ih =>
    intro owners h
    obtain ⟨owners', hrest⟩ := ih (owners.put path n) fun p hp => h p (List.mem_cons_of_mem _ hp)
    refine ⟨owners', ?_⟩
    rw [putOwners, if_pos (h path List.mem_cons_self), hrest]

theorem addTxn_succeeds (hkey : validKey n = true) (hfree : n ∉ db.namedDbs)
    (hpaths : db.fileOwnerOpen = true → ∀ path ∈ pkg.paths, validKey path = true) :
    ∃ db', addTxn db n pkg = some db' := by
  unfold addTxn
  rw [if_neg (by simp [hkey, hfree])]
  simp only
  split
  · rw [putFiles_eq]
    split
    · rename_i ho
      obtain ⟨owners', hput⟩ := putOwners_succeeds (n := n) _ (hpaths ho)
      exact ⟨_, Option.map_eq_some_iff.2 ⟨owners', hput, rfl⟩⟩
    · exact ⟨_, rfl⟩
  · exact ⟨_, rfl⟩

/-- **A write that goes well.** -/
theorem dbAdd_succeeds {io : ℕ → Rc} (h : StoreOK db) (hname : pkg.metadata.name = some n) (hkey : validKey n = true)
    (hfree : n ∉ reservedNames) (hpaths : db.fileOwnerOpen = true → ∀ path ∈ pkg.paths, validKey path = true)
    (hio : ∀ k, io k = .success) :
    ∃ db', dbAdd io db pkg = some (true, db') ∧ StoreOK db' ∧ db'.fileOwnerOpen = db.fileOwnerOpen ∧
      ∀ m, db'.main.get m ≠ none ↔ m = n ∨ db.main.get m ≠ none := by
  obtain ⟨db₁, htxn⟩ := addTxn_succeeds hkey (fun hin => hfree (h.named n hin)) hpaths
  have hloop : dbAddLoop io db n pkg mapGrowAttempts 0 = (.success, db₁) := by
    simp [mapGrowAttempts, dbAddLoop, dbAddOnce, hio, htxn]
  have hadd : ∃ db', dbAdd io db pkg = some (true, db') := by
    unfold dbAdd
    rw [if_neg (by simp [h.writable]), hname]
    simp only [hloop, decide_true]
    exact ⟨_, rfl⟩
  obtain ⟨db', hadd⟩ := hadd
  have hstore := dbAdd_storeOK h hadd
  refine ⟨db', hadd, hstore, ?_⟩
  obtain ⟨-, n', db₂, hn', htxn', hs⟩ | ⟨hfalse, -⟩ := dbAdd_cases hadd
  · have hnn : n = n' := Option.some.inj (hname.symm.trans hn')
    have ht := addTxn_spec htxn'
    refine ⟨hs.fileOwnerOpen.trans ht.fileOwnerOpen, fun m => ?_⟩
    rw [hs.main, ht.main, Table.get_put, ← hnn]
    by_cases hm : m = n
    · simp [hm]
    · simp [hm]
  · exact absurd hfalse (by simp)

/-- A removal goes well exactly when there is a record. -/
theorem dbRemove_succeeds_iff (h : StoreOK db) (n : CStr) :
    (dbRemove .success db n).1 = true ↔ db.main.get n ≠ none := by
  constructor
  · intro hok
    obtain ⟨-, db₁, htxn, -⟩ | ⟨hfalse, -⟩ := dbRemove_cases .success db n
    · exact htxn.found
    · rw [hok] at hfalse
      exact absurd hfalse (by simp)
  · intro hrec
    obtain ⟨hkey, hfree⟩ := h.keys n hrec
    unfold dbRemove removeTxn
    rw [if_neg (by simp [h.writable])]
    simp only [hkey, hfree, hrec, Bool.not_true, decide_false, Bool.or_self, Bool.false_eq_true, if_false]
    split <;> rfl

/-! ## The package objects of a commit -/

/-- The list of an object is replaced by what its archive turns out to hold. -/
def collectedBy (run : InstallRun) (p : Ptr) (mem : Heap) : Heap :=
  match run.files with
  | none => mem
  | some files => Function.update mem p { mem p with packageFiles := files.map some }

def stepHeap (out : Outside) (i : ℕ) (step : TransStep) (mem : Heap) : Heap :=
  if step.op = .remove then mem
  else
    match step.pkg with
    | none => mem
    | some p => collectedBy (out.install i) p mem

/-- The objects after the data of some steps have been laid down. -/
def heapAt (out : Outside) : ℕ → List TransStep → Heap → Heap
  | _, [], mem => mem
  | i, step :: steps, mem => heapAt out (i + 1) steps (stepHeap out i step mem)

theorem heapAt_append (out : Outside) (step : TransStep) : ∀ (done : List TransStep) (i : ℕ) (mem : Heap),
    heapAt out i (done ++ [step]) mem = stepHeap out (i + done.length) step (heapAt out i done mem) := by
  intro done
  induction done with
  | nil => intro i mem; rfl
  | cons s done ih =>
    intro i mem
    have hlen : i + 1 + done.length = i + (s :: done).length := by
      rw [List.length_cons]; omega
    rw [List.cons_append, heapAt, ih, hlen]
    rfl

/-- Only the lists of objects change. -/
theorem collectedBy_same (run : InstallRun) (p q : Ptr) (mem : Heap) :
    (collectedBy run p mem q).metadata = (mem q).metadata ∧ (collectedBy run p mem q).pkgPath = (mem q).pkgPath := by
  unfold collectedBy
  cases run.files with
  | none => exact ⟨rfl, rfl⟩
  | some files =>
    by_cases hq : q = p
    · subst hq; simp
    · simp [hq]

theorem collectedBy_files (run : InstallRun) (p q : Ptr) {mem mem' : Heap}
    (h : ∀ q, (mem' q).packageFiles = (mem q).packageFiles) :
    (collectedBy run p mem' q).packageFiles = (collectedBy run p mem q).packageFiles := by
  unfold collectedBy
  cases run.files with
  | none => exact h q
  | some files =>
    by_cases hq : q = p
    · subst hq; simp
    · simp [hq, h q]

theorem installPackageInRoot_done {run : InstallRun} (h : run.stage = .done) (w : World) (p : Ptr) :
    installPackageInRoot run w p = (true, { w with mem := collectedBy run p w.mem }) := by
  unfold installPackageInRoot collectedBy
  rw [h]
  cases run.files <;> rfl

theorem signed_congr {pkg' : Package} (h : pkg'.pkgPath = pkg.pkgPath) : signed out i pkg' = signed out i pkg := by
  unfold signed
  rw [h]

/-! ## Steps that go well -/

/-- Everything outside goes well in a commit of the plan: signatures, archives,
scripts and backups, and every write of a key. -/
structure AllGoesWell (out : Outside) (mem : Heap) (db : Db) (t : ApgTrans) : Prop where
  keyring : out.keyringLoad = true
  signed : t.requireSignature = true → ∀ i step p, t.plan[i]? = some step → step.pkg = some p →
    signed out i (mem p) = true
  backup : ∀ i, out.backup i = true
  install : ∀ i, (out.install i).stage = .done
  addIo : ∀ i k, out.addIo i k = .success
  preRemove : ∀ i, out.preRemove i = true
  removeIo : ∀ i, out.removeIo i = .success
  names : ∀ step ∈ t.plan, step.op ≠ .remove → validKey step.pkgName = true ∧ step.pkgName ∉ reservedNames
  paths : db.fileOwnerOpen = true → ∀ done step rest p, t.plan = done ++ step :: rest → step.op ≠ .remove →
    step.pkg = some p → ∀ path ∈ (heapAt out 0 (done ++ [step]) mem p).paths, validKey path = true

/-- What holds after the steps `done` when everything has gone well. -/
structure ExecInv (out : Outside) (mem : Heap) (db : Db) (done : List TransStep) (w : World) : Prop where
  lists : ∀ q, (w.mem q).packageFiles = (heapAt out 0 done mem q).packageFiles
  metadata : ∀ q, (w.mem q).metadata = (mem q).metadata
  pkgPath : ∀ q, (w.mem q).pkgPath = (mem q).pkgPath
  store : StoreOK w.db
  fileOwnerOpen : w.db.fileOwnerOpen = db.fileOwnerOpen

theorem ExecInv.journal {done : List TransStep} {w : World} (h : ExecInv out mem db done w) (op : JournalOp)
    (ok explicitOp : Bool) : ExecInv out mem db done (w.journal op step ok explicitOp) := by
  have hstore := journalWrite_storeOK h.store ⟨op, some step.pkgName, step.pkgVersion, ok, explicitOp⟩
  have htables := journalWrite_tables w.db ⟨op, some step.pkgName, step.pkgVersion, ok, explicitOp⟩
  exact ⟨h.lists, h.metadata, h.pkgPath, hstore, htables.fileOwnerOpen.trans h.fileOwnerOpen⟩

section

variable {done rest : List TransStep} {p : Ptr} {w : World}

/-- The data of a package are laid down. -/
theorem ExecInv.collected (h : ExecInv out mem db done w) (hop : step.op ≠ .remove) (hp : step.pkg = some p) :
    ExecInv out mem db (done ++ [step]) { w with mem := collectedBy (out.install done.length) p w.mem } := by
  have hheap : heapAt out 0 (done ++ [step]) mem = collectedBy (out.install done.length) p (heapAt out 0 done mem) := by
    rw [heapAt_append, Nat.zero_add]
    unfold stepHeap
    rw [if_neg hop, hp]
  refine ⟨fun q => ?_, fun q => ?_, fun q => ?_, h.store, h.fileOwnerOpen⟩
  · rw [hheap]
    exact collectedBy_files _ p q h.lists
  · exact (collectedBy_same _ p q _).1.trans (h.metadata q)
  · exact (collectedBy_same _ p q _).2.trans (h.pkgPath q)

/-- The record of a package whose data are laid down. -/
theorem recordPkg_succeeds (previous : Option Package) (committed : List Committed) (hgood : AllGoesWell out mem db t)
    (h : ExecInv out mem db (done ++ [step]) w) (hplan : t.plan = done ++ step :: rest)
    (hop : step.op ≠ .remove) (hp : step.pkg = some p) (hname : (mem p).metadata.name = some step.pkgName) :
    ∃ st', recordPkg out done.length step p previous ⟨w, committed⟩ = some (.done st') ∧
      ExecInv out mem db (done ++ [step]) st'.world ∧
      ∀ n, st'.world.db.main.get n ≠ none ↔ n = step.pkgName ∨ w.db.main.get n ≠ none := by
  have hmem : step ∈ t.plan := by rw [hplan]; simp
  obtain ⟨hkey, hfree⟩ := hgood.names step hmem hop
  -- the object has its flag set, and is recorded
  obtain ⟨pkg, hpkg⟩ : ∃ pkg, pkg = { w.mem p with installedByHand := step.explicitOp } := ⟨_, rfl⟩
  have hpaths : w.db.fileOwnerOpen = true → ∀ path ∈ pkg.paths, validKey path = true := by
    intro ho path hpath
    have hlist : pkg.paths = (heapAt out 0 (done ++ [step]) mem p).paths := by
      unfold Package.paths
      rw [hpkg]
      exact congrArg List.reduceOption (h.lists p)
    rw [hlist] at hpath
    exact hgood.paths (h.fileOwnerOpen.symm.trans ho) done step rest p hplan hop hp path hpath
  have hpname : pkg.metadata.name = some step.pkgName := by
    rw [hpkg, ← hname, ← h.metadata p]
  obtain ⟨db', hadd, hstore, hopen, hmain⟩ := dbAdd_succeeds h.store hpname hkey hfree hpaths (hgood.addIo done.length)
  have hworld : ExecInv out mem db (done ++ [step])
      { w with mem := Function.update w.mem p pkg, db := db' } := by
    refine ⟨fun q => ?_, fun q => ?_, fun q => ?_, hstore, hopen.trans h.fileOwnerOpen⟩
    all_goals
      by_cases hq : q = p
      · subst hq
        simp only [Function.update_self, hpkg]
        first | exact h.lists q | exact h.metadata q | exact h.pkgPath q
      · simp only [Function.update_of_ne hq]
        first | exact h.lists q | exact h.metadata q | exact h.pkgPath q
  refine ⟨⟨World.journal { w with mem := Function.update w.mem p pkg, db := db' } .install step true step.explicitOp,
    committed ++ [⟨done.length, step, previous⟩]⟩, ?_, hworld.journal .install true step.explicitOp, fun n => ?_⟩
  · unfold recordPkg
    simp only [Function.update_self, ← hpkg]
    rw [hadd]
    rfl
  · rw [journal_main]
    exact hmain n

/-- **A step that delivers a package completes.** -/
theorem commitStep_delivers {st : CommitState} (hgood : AllGoesWell out mem db t) (hdry : t.dryRun = false)
    (h : ExecInv out mem db done st.world) (hplan : t.plan = done ++ step :: rest) (hop : step.op ≠ .remove)
    (hp : step.pkg = some p) (hname : (mem p).metadata.name = some step.pkgName) :
    ∃ st', commitStep out t done.length step st = some (.done st') ∧
      ExecInv out mem db (done ++ [step]) st'.world ∧
      ∀ n, st'.world.db.main.get n ≠ none ↔ n = step.pkgName ∨ st.world.db.main.get n ≠ none := by
  have hat : t.plan[done.length]? = some step := by rw [hplan]; simp
  have hsigned : (t.requireSignature && !signed out done.length (st.world.mem p)) = false := by
    cases hreq : t.requireSignature with
    | false => rfl
    | true =>
      rw [signed_congr (h.pkgPath p), hgood.signed hreq done.length step p hat hp]
      rfl
  have hlaid := installPackageInRoot_done (hgood.install done.length) st.world p
  have hcollected := h.collected hop hp
  unfold commitStep
  cases hstep : step.op with
  | remove => exact absurd hstep hop
  | install =>
    rw [hp]
    simp only
    unfold commitInstall
    rw [if_neg (by simp [hsigned]), if_neg (by simp [hdry]), hlaid]
    exact recordPkg_succeeds none st.committed hgood hcollected hplan hop hp hname
  | upgrade =>
    rw [hp]
    simp only
    unfold commitUpgrade
    rw [if_neg (by simp [hsigned]), if_neg (by simp [hdry]), if_neg (by simp [hgood.backup]), hlaid]
    exact recordPkg_succeeds (dbGet st.world.db step.pkgName) st.committed hgood hcollected hplan hop hp hname

/-- **A removal completes if there is a record**, and fails if there is none. -/
theorem commitStep_removes {st : CommitState} (hgood : AllGoesWell out mem db t) (hdry : t.dryRun = false)
    (h : ExecInv out mem db done st.world) (hop : step.op = .remove) :
    (st.world.db.main.get step.pkgName ≠ none → ∃ st', commitStep out t done.length step st = some (.done st') ∧
      ExecInv out mem db (done ++ [step]) st'.world ∧
      ∀ n, st'.world.db.main.get n ≠ none ↔ n ≠ step.pkgName ∧ st.world.db.main.get n ≠ none) ∧
    (st.world.db.main.get step.pkgName = none →
      ∃ st', commitStep out t done.length step st = some (.failed .removeFailed st')) := by
  have hcommit : commitStep out t done.length step st = some (commitRemove out t done.length step st) := by
    unfold commitStep
    rw [hop]
  have hlists : heapAt out 0 (done ++ [step]) mem = heapAt out 0 done mem := by
    rw [heapAt_append]
    unfold stepHeap
    rw [if_pos hop]
  have hok := dbRemove_succeeds_iff h.store step.pkgName
  have hstore := dbRemove_storeOK h.store .success step.pkgName
  have hcases := dbRemove_cases .success st.world.db step.pkgName
  rw [hcommit]
  unfold commitRemove
  rw [if_neg (by simp [hdry])]
  simp only [hgood.preRemove, hgood.removeIo, if_true]
  generalize dbRemove .success st.world.db step.pkgName = r at hok hstore hcases ⊢
  obtain ⟨ok, db'⟩ := r
  simp only at hok hstore hcases ⊢
  refine ⟨fun hrec => ?_, fun hnone => ?_⟩
  · rw [hok.2 hrec] at hcases
    rw [hok.2 hrec, if_pos rfl]
    obtain ⟨-, db₁, htxn, hs⟩ | ⟨hfalse, -⟩ := hcases
    · have hworld : ExecInv out mem db (done ++ [step]) { st.world with db := db' } :=
        ⟨hlists ▸ h.lists, h.metadata, h.pkgPath, hstore,
          (hs.fileOwnerOpen.trans htxn.fileOwnerOpen).trans h.fileOwnerOpen⟩
      refine ⟨_, rfl, hworld.journal .remove true step.explicitOp, fun n => ?_⟩
      rw [journal_main, hs.main, htxn.main, Table.get_del]
      by_cases hn : n = step.pkgName
      · simp [hn]
      · simp [hn]
    · exact absurd hfalse (by simp)
  · have hfalse : ok = false := by
      cases ok with
      | false => rfl
      | true => exact absurd hnone (hok.1 rfl)
    rw [hfalse, if_neg Bool.false_ne_true]
    exact ⟨_, rfl⟩

/-- The steps that deliver packages complete. -/
theorem commitLoop_delivers (hgood : AllGoesWell out mem db t) (hdry : t.dryRun = false) :
    ∀ (steps done : List TransStep) (st : CommitState), t.plan = done ++ steps ++ rest →
    (∀ s ∈ steps, s.op ≠ .remove ∧ ∃ p, s.pkg = some p ∧ (mem p).metadata.name = some s.pkgName) →
    ExecInv out mem db done st.world →
    ∃ st', commitLoop out t done.length steps st = some (.done st') ∧ ExecInv out mem db (done ++ steps) st'.world ∧
      ∀ n, st'.world.db.main.get n ≠ none ↔ (∃ s ∈ steps, s.pkgName = n) ∨ st.world.db.main.get n ≠ none := by
  intro steps
  induction steps with
  | nil =>
    intro done st _ _ h
    refine ⟨st, rfl, ?_, fun n => by simp⟩
    rw [List.append_nil]
    exact h
  | cons s steps ih =>
    intro done st hplan hsteps h
    obtain ⟨hop, p, hp, hname⟩ := hsteps s List.mem_cons_self
    have hplan' : t.plan = done ++ s :: (steps ++ rest) := by rw [hplan]; simp
    obtain ⟨st₁, hstep, hinv, hmain⟩ := commitStep_delivers hgood hdry h hplan' hop hp hname
    have hplan'' : t.plan = done ++ [s] ++ steps ++ rest := by rw [hplan]; simp
    obtain ⟨st₂, hloop, hinv', hmain'⟩ := ih (done ++ [s]) st₁ hplan''
      (fun s' hs' => hsteps s' (List.mem_cons_of_mem _ hs')) hinv
    refine ⟨st₂, ?_, ?_, fun n => ?_⟩
    · rw [commitLoop, hstep]
      rw [List.length_append] at hloop
      exact hloop
    · have hassoc : done ++ s :: steps = done ++ [s] ++ steps := by simp
      rw [hassoc]
      exact hinv'
    · rw [hmain' n, hmain n]
      simp only [List.mem_cons, exists_eq_or_imp, eq_comm (a := n)]
      rw [or_left_comm, or_assoc]

/-- **The removals complete exactly when each finds its record**, and the first that
does not is the failure of the commit. -/
theorem commitLoop_removes (hgood : AllGoesWell out mem db t) (hdry : t.dryRun = false) :
    ∀ (names : List CStr) (done : List TransStep) (st : CommitState), ExecInv out mem db done st.world →
    (names.Nodup ∧ (∀ n ∈ names, st.world.db.main.get n ≠ none) ∧
      ∃ st', commitLoop out t done.length (names.map removeStep) st = some (.done st')) ∨
    (¬(names.Nodup ∧ ∀ n ∈ names, st.world.db.main.get n ≠ none) ∧
      ∃ st', commitLoop out t done.length (names.map removeStep) st = some (.failed .removeFailed st')) := by
  intro names
  induction names with
  | nil => intro done st _; exact Or.inl ⟨List.nodup_nil, by simp, st, rfl⟩
  | cons n names ih =>
    intro done st h
    have hop : (removeStep n).op = .remove := rfl
    obtain ⟨hfound, hmissing⟩ := commitStep_removes hgood hdry h hop
    by_cases hrec : st.world.db.main.get n = none
    · obtain ⟨st', hfail⟩ := hmissing hrec
      refine Or.inr ⟨fun hall => hall.2 n List.mem_cons_self hrec, st', ?_⟩
      rw [List.map_cons, commitLoop, hfail]
    · obtain ⟨st₁, hstep, hinv, hmain⟩ := hfound hrec
      have hlen : (done ++ [removeStep n]).length = done.length + 1 := by simp
      have hrest := ih (done ++ [removeStep n]) st₁ hinv
      have hloop : commitLoop out t done.length ((n :: names).map removeStep) st =
          commitLoop out t (done.length + 1) (names.map removeStep) st₁ := by
        rw [List.map_cons, commitLoop, hstep]
      rw [hloop]
      rw [hlen] at hrest
      -- what is left is there after the removal of `n` if it was there before and is not `n`
      have hleft : (names.Nodup ∧ ∀ m ∈ names, st₁.world.db.main.get m ≠ none) ↔
          ((n :: names).Nodup ∧ ∀ m ∈ n :: names, st.world.db.main.get m ≠ none) := by
        rw [List.nodup_cons, List.forall_mem_cons]
        constructor
        · rintro ⟨hnd, hall⟩
          refine ⟨⟨fun hin => ?_, hnd⟩, hrec, fun m hm => ((hmain m).1 (hall m hm)).2⟩
          exact ((hmain n).1 (hall n hin)).1 rfl
        · rintro ⟨⟨hnot, hnd⟩, -, hall⟩
          refine ⟨hnd, fun m hm => (hmain m).2 ⟨fun heq => ?_, hall m hm⟩⟩
          have hmn : m = n := heq
          exact hnot (hmn ▸ hm)
      rcases hrest with ⟨hnd, hall, hdone⟩ | ⟨hnot, hfail⟩
      · have := hleft.1 ⟨hnd, hall⟩
        exact Or.inl ⟨this.1, this.2, hdone⟩
      · exact Or.inr ⟨fun hall => hnot (hleft.2 hall), hfail⟩

/-- A dry run looks at the signatures and at nothing else. -/
theorem commitLoop_dry (hdry : t.dryRun = true) (st : CommitState) : ∀ (steps : List TransStep) (i : ℕ),
    (∀ j s, steps[j]? = some s → s.op ≠ .remove → ∃ p, s.pkg = some p ∧
      (t.requireSignature = true → signed out (i + j) (st.world.mem p) = true)) →
    commitLoop out t i steps st = some (.done st) := by
  intro steps
  induction steps with
  | nil => intro i _; rfl
  | cons s steps ih =>
    intro i h
    have hstep : commitStep out t i s st = some (.done st) := by
      cases hop : s.op with
      | remove =>
        unfold commitStep
        rw [hop]
        simp only
        unfold commitRemove
        rw [if_pos hdry]
      | install =>
        obtain ⟨p, hp, hsigned⟩ := h 0 s rfl (by simp [hop])
        unfold commitStep
        rw [hop, hp]
        simp only
        unfold commitInstall
        rw [if_neg (by simpa using hsigned), if_pos hdry]
      | upgrade =>
        obtain ⟨p, hp, hsigned⟩ := h 0 s rfl (by simp [hop])
        unfold commitStep
        rw [hop, hp]
        simp only
        unfold commitUpgrade
        rw [if_neg (by simpa using hsigned), if_pos hdry]
    rw [commitLoop, hstep]
    refine ih (i + 1) fun j s' hj hop => ?_
    obtain ⟨p, hp, hsigned⟩ := h (j + 1) s' (by simpa using hj) hop
    refine ⟨p, hp, fun hreq => ?_⟩
    have hidx : i + 1 + j = i + (j + 1) := by omega
    rw [hidx]
    exact hsigned hreq

end

/-! ## The whole -/

section

variable {mem₀ : Heap} {trans : ApgTrans} {g : DepGraph} {order removals : List CStr} {installs : List TransStep}

theorem recorded_ne_none_iff (hr : RecordsOK db) (n : CStr) : recorded db n ≠ none ↔ db.main.get n ≠ none := by
  unfold recorded dbGet
  cases hj : db.main.get n with
  | none => simp
  | some j =>
    obtain ⟨p, hread, -⟩ := readRecord_name hr hj
    simp [hread]

theorem lastUpgrade_ne_none_iff (hf : Fresh mem₀ trans) (n : CStr) :
    lastUpgrade mem₀ trans n ≠ none ↔ ∃ s ∈ trans.upgradePkgs.map (upgradeStep mem₀ db), s.pkgName = n := by
  unfold lastUpgrade findPkg
  rw [Ne, List.find?_eq_none]
  simp only [List.mem_reverse, decide_eq_true_eq, not_forall, not_not, List.mem_map, exists_exists_and_eq_and,
    exists_prop]
  have hnames : ∀ p ∈ trans.upgradePkgs, ((mem₀ p).metadata.name = some n ↔ (upgradeStep mem₀ db p).pkgName = n) := by
    intro p hp
    have hname := name_of_ne_none (hf.named p (Or.inr (Or.inr hp)))
    have hstep : (upgradeStep mem₀ db p).pkgName = heapName mem₀ p := rfl
    rw [hname, hstep, Option.some.injEq]
  constructor
  · rintro ⟨p, hp, hn⟩
    exact ⟨p, hp, (hnames p hp).1 hn⟩
  · rintro ⟨p, hp, hn⟩
    exact ⟨p, hp, (hnames p hp).2 hn⟩

/-- The names that are there once all packages have been delivered. -/
theorem delivered_names (hf : Fresh mem₀ trans) (hr : RecordsOK db)
    (hp : PrepareOK mem₀ db trans g order installs removals mem t) (n : CStr) :
    ((∃ s ∈ installs ++ trans.upgradePkgs.map (upgradeStep mem₀ db), s.pkgName = n) ∨ db.main.get n ≠ none) ↔
      recorded db n ≠ none ∨ lastUpgrade mem₀ trans n ≠ none ∨ ∃ p, PulledAt mem₀ db trans g n p := by
  have hinstalls : (∃ s ∈ installs, s.pkgName = n) ↔ ∃ p, PulledAt mem₀ db trans g n p := by
    constructor
    · rintro ⟨s, hs, hn⟩
      obtain ⟨-, -, -, p, -, hpkg⟩ := hp.steps.sound s hs
      exact ⟨p, (installs_iff hf hr hp n p).1 ⟨s, hs, hn, hpkg⟩⟩
    · rintro ⟨p, hpull⟩
      obtain ⟨s, hs, hn, -⟩ := (installs_iff hf hr hp n p).2 hpull
      exact ⟨s, hs, hn⟩
  have hboth : (∃ s ∈ installs ++ trans.upgradePkgs.map (upgradeStep mem₀ db), s.pkgName = n) ↔
      (∃ s ∈ installs, s.pkgName = n) ∨ ∃ s ∈ trans.upgradePkgs.map (upgradeStep mem₀ db), s.pkgName = n := by
    simp only [List.mem_append, or_and_right, exists_or]
  rw [hboth, hinstalls, ← lastUpgrade_ne_none_iff hf n, recorded_ne_none_iff hr n]
  constructor
  · rintro ((h | h) | h)
    · exact Or.inr (Or.inr h)
    · exact Or.inr (Or.inl h)
    · exact Or.inl h
  · rintro (h | h | h)
    · exact Or.inr h
    · exact Or.inl (Or.inr h)
    · exact Or.inl (Or.inl h)

theorem commitStart_exec (hdb : StoreOK db) : ExecInv out mem db [] (commitStart mem db).world :=
  ⟨fun _ => rfl, fun _ => rfl, fun _ => rfl, ⟨hdb.writable, hdb.named, hdb.keys⟩, rfl⟩

/-- What becomes of a commit, from its loop. -/
theorem transCommit_code (mem : Heap) (db : Db) (t : ApgTrans) (hprep : t.prepared = true) (hcom : t.committed = false)
    (hkey : out.keyringLoad = true) :
    (∀ st, commitLoop out t 0 t.plan (commitStart mem db) = some (.done st) →
      (transCommit out mem db t).map (·.1) = some .ok) ∧
    ∀ err st, commitLoop out t 0 t.plan (commitStart mem db) = some (.failed err st) → err ≠ .ok →
      (transCommit out mem db t).map (·.1) ≠ some .ok := by
  unfold transCommit commitStart
  rw [if_neg (by simp [hprep]), if_neg (by simp [hcom]), if_neg (by simp [hkey])]
  refine ⟨fun st hloop => ?_, fun err st hloop herr => ?_⟩
  · rw [hloop]
    rfl
  · rw [hloop, Option.map_map]
    intro hok
    obtain ⟨w, -, hw⟩ := Option.map_eq_some_iff.1 hok
    exact herr hw

/-- **Whether a prepared plan can be carried out**: a dry run always says so, and it is
so exactly when every name queued for removal is there once the packages have been
delivered, and is queued once. -/
theorem transCommit_executable_iff {collect : Ptr → Option (List CStr)} (hq : Queued mem₀ trans)
    (hdb : Reachable (fun _ => True) db) (hg : transGraph mem₀ db trans = some g)
    (hprep : transPrepare collect mem₀ db trans = some (.ok, mem, t)) (hgood : AllGoesWell out mem db t) :
    (transCommit out mem db (transSetDryRun t true)).map (·.1) = some .ok ∧
    ((transCommit out mem db (transSetDryRun t false)).map (·.1) = some .ok ↔
      trans.removeNames.Nodup ∧ ∀ n ∈ trans.removeNames,
        recorded db n ≠ none ∨ lastUpgrade mem₀ trans n ≠ none ∨ ∃ p, PulledAt mem₀ db trans g n p) := by
  have hf := queued_fresh hq
  have hr := reachable_recordsOK hdb
  obtain ⟨g', order, installs, removals, hp⟩ := transPrepare_ok hf hprep
  have hgg := hp.graph
  rw [hg, Option.some.injEq] at hgg
  subst hgg
  have hpkgs := (prepareOK_planOK hf hp).pkgs
  refine ⟨?_, ?_⟩
  · refine (transCommit_code mem db (transSetDryRun t true) hp.prepared hp.committed hgood.keyring).1
      (commitStart mem db) ?_
    refine commitLoop_dry rfl _ t.plan 0 fun j s hj hop => ?_
    obtain ⟨p, hps, -⟩ := hpkgs s (List.mem_of_getElem? hj) hop
    refine ⟨p, hps, fun hreq => ?_⟩
    rw [Nat.zero_add]
    exact hgood.signed hreq j s p hj hps
  · -- the plan without its removals
    obtain ⟨steps, hsteps⟩ : ∃ steps, steps = installs ++ trans.upgradePkgs.map (upgradeStep mem₀ db) := ⟨_, rfl⟩
    have hplan : t.plan = steps ++ removals.map removeStep := by rw [hp.plan, hsteps]
    have hgood' : AllGoesWell out mem db (transSetDryRun t false) :=
      ⟨hgood.keyring, hgood.signed, hgood.backup, hgood.install, hgood.addIo, hgood.preRemove, hgood.removeIo,
        hgood.names, hgood.paths⟩
    have hdeliver : ∀ s ∈ steps, s.op ≠ .remove ∧ ∃ p, s.pkg = some p ∧ (mem p).metadata.name = some s.pkgName := by
      intro s hs
      have hop : s.op ≠ .remove := by
        rw [hsteps, List.mem_append] at hs
        rcases hs with hs | hs
        · rw [(hp.steps.sound s hs).1]; simp
        · obtain ⟨p, -, rfl⟩ := List.mem_map.1 hs
          simp [upgradeStep]
      exact ⟨hop, hpkgs s (by rw [hplan]; simp [hs]) hop⟩
    obtain ⟨st, hloop, hinv, hmain⟩ := commitLoop_delivers hgood' rfl steps [] (commitStart mem db) hplan hdeliver
      (commitStart_exec (reachable_storeOK hdb))
    rw [List.nil_append] at hinv
    have hnames : ∀ n, st.world.db.main.get n ≠ none ↔
        recorded db n ≠ none ∨ lastUpgrade mem₀ trans n ≠ none ∨ ∃ p, PulledAt mem₀ db trans g n p := by
      intro n
      rw [hmain n, ← delivered_names hf hr hp n, hsteps]
      rfl
    have hcond : (removals.Nodup ∧ ∀ n ∈ removals, st.world.db.main.get n ≠ none) ↔
        trans.removeNames.Nodup ∧ ∀ n ∈ trans.removeNames,
          recorded db n ≠ none ∨ lastUpgrade mem₀ trans n ≠ none ∨ ∃ p, PulledAt mem₀ db trans g n p := by
      rw [hp.removed.nodup_iff]
      refine and_congr_right fun _ => forall_congr' fun n => ?_
      rw [hp.removed.mem_iff, hnames n]
    have hwhole : commitLoop out (transSetDryRun t false) 0 t.plan (commitStart mem db) =
        commitLoop out (transSetDryRun t false) steps.length (removals.map removeStep) st := by
      rw [List.length_nil] at hloop
      rw [hplan, commitLoop_append, hloop, Nat.zero_add]
    obtain ⟨hcode, hcode'⟩ := transCommit_code mem db (transSetDryRun t false) hp.prepared hp.committed hgood.keyring
    rw [← hcond]
    rcases commitLoop_removes hgood' rfl removals steps st hinv with ⟨hnd, hall, st', hdone⟩ | ⟨hnot, st', hfail⟩
    · exact ⟨fun _ => ⟨hnd, hall⟩, fun _ => hcode st' (hwhole.trans hdone)⟩
    · exact ⟨fun hok => absurd hok (hcode' _ st' (hwhole.trans hfail) (by simp)), fun h => absurd h hnot⟩

end

/-! ## Two queues -/

/-- A plan that delivers nothing asks for nothing of its packages. -/
theorem allGoesWell_removals (mem : Heap) (db : Db) (hplan : ∀ step ∈ t.plan, step.op = .remove)
    (hreq : t.requireSignature = false) : AllGoesWell {} mem db t := by
  refine ⟨rfl, fun h => ?_, fun _ => rfl, fun _ => rfl, fun _ _ => rfl, fun _ => rfl, fun _ => rfl, ?_, ?_⟩
  · rw [hreq] at h
    exact absurd h (by simp)
  · intro step hs hop
    exact absurd (hplan step hs) hop
  · intro _ done step rest p hsplit hop
    exact absurd (hplan step (by rw [hsplit]; simp)) hop

/-- Without lists from archives the package objects stay as they are. -/
theorem heapAt_unlisted (hout : ∀ i, (out.install i).files = none) : ∀ (steps : List TransStep) (i : ℕ) (mem : Heap),
    heapAt out i steps mem = mem := by
  intro steps
  induction steps with
  | nil => exact fun _ _ => rfl
  | cons step steps ih =>
    intro i mem
    have hstep : stepHeap out i step mem = mem := by
      unfold stepHeap collectedBy
      split
      · rfl
      · rw [hout]
        cases step.pkg <;> rfl
    rw [heapAt, hstep, ih]

/-- `b` is queued, and `a`, which is recorded, is queued for removal. -/
theorem transCommit_executable_recorded :
    ∃ db trans mem t, Reachable (fun _ => True) db ∧ Queued (fun _ => bare "b" ["/b"]) trans ∧
      transPrepare (fun _ => none) (fun _ => bare "b" ["/b"]) db trans = some (.ok, mem, t) ∧
      t.plan.map (fun s => (s.op, s.pkgName)) = [(.install, cstr "b"), (.remove, cstr "a")] ∧
      (transCommit {} mem db (transSetDryRun t false)).map (·.1) = some .ok := by
  have hruns : ∃ db, dbAdd (fun _ => .success) (dbOpen true true) (bare "a" []) = some (true, db) ∧
      db.main.get (cstr "a") ≠ none ∧
      ∃ g, transGraph (fun _ => bare "b" ["/b"]) db { installPkgs := [1], removeNames := [cstr "a"] } = some g ∧
      ∃ mem t, transPrepare (fun _ => none) (fun _ => bare "b" ["/b"]) db { installPkgs := [1], removeNames := [cstr "a"] } =
          some (.ok, mem, t) ∧
        t.plan = [⟨.install, cstr "b", none, true, some 1⟩, ⟨.remove, cstr "a", none, true, none⟩] ∧
        t.requireSignature = false ∧ (mem 1).paths = [cstr "/b"] :=
    ⟨_, rfl, by decide, _, rfl, _, _, rfl, rfl, rfl, rfl⟩
  obtain ⟨db, hadd, hrec, g, hg, mem, t, hprep, hplan, hreq, hpaths⟩ := hruns
  have hdb : Reachable (fun _ => True) db := (Reachable.new true true).add _ trivial hadd
  have hq : Queued (fun _ => bare "b" ["/b"]) { installPkgs := [1], removeNames := [cstr "a"] } :=
    Queued.remove (cstr "a") (Queued.install 1 Queued.new)
  have hgood : AllGoesWell {} mem db t := by
    refine ⟨rfl, fun h => ?_, fun _ => rfl, fun _ => rfl, fun _ _ => rfl, fun _ => rfl, fun _ => rfl, ?_, ?_⟩
    · rw [hreq] at h
      exact absurd h (by simp)
    · intro step hs hop
      simp only [hplan, List.mem_cons, List.not_mem_nil, or_false] at hs
      rcases hs with rfl | rfl
      · exact ⟨by decide, by decide⟩
      · exact absurd rfl hop
    · intro _ done step rest p hsplit hop hp
      -- the install is the only step that delivers
      have hs : step ∈ t.plan := by rw [hsplit]; simp
      simp only [hplan, List.mem_cons, List.not_mem_nil, or_false] at hs
      rcases hs with rfl | rfl
      · obtain rfl := Option.some.inj hp
        rw [heapAt_unlisted fun _ => rfl, hpaths]
        decide
      · exact absurd rfl hop
  refine ⟨db, _, mem, t, hdb, hq, hprep, by rw [hplan]; rfl, ?_⟩
  refine (transCommit_executable_iff hq hdb hg hprep hgood).2.2 ⟨List.nodup_singleton _, fun n hn => Or.inl ?_⟩
  rw [List.mem_singleton.1 hn, recorded_ne_none_iff (reachable_recordsOK hdb)]
  exact hrec

/-- **A name that is not installed is queued for removal**: `trans_prepare` and a dry
run return `TRANS_OK`, and the commit does not. -/
theorem transCommit_executable_missing :
    ∃ trans mem t, Queued (fun _ => bare "a" []) trans ∧
      transPrepare (fun _ => none) (fun _ => bare "a" []) (dbOpen true true) trans = some (.ok, mem, t) ∧
      AllGoesWell {} mem (dbOpen true true) t ∧
      (transCommit {} mem (dbOpen true true) (transSetDryRun t true)).map (·.1) = some .ok ∧
      (transCommit {} mem (dbOpen true true) (transSetDryRun t false)).map (·.1) = some .removeFailed := by
  have hruns : ∃ mem t, transPrepare (fun _ => none) (fun _ => bare "a" []) (dbOpen true true)
        { removeNames := [cstr "a"] } = some (.ok, mem, t) ∧
      t.plan = [⟨.remove, cstr "a", none, true, none⟩] ∧ t.requireSignature = false ∧
      (transCommit {} mem (dbOpen true true) (transSetDryRun t true)).map (·.1) = some .ok ∧
      (transCommit {} mem (dbOpen true true) (transSetDryRun t false)).map (·.1) = some .removeFailed :=
    ⟨_, _, rfl, rfl, rfl, rfl, rfl⟩
  obtain ⟨mem, t, hprep, hplan, hreq, hdry, hreal⟩ := hruns
  have hgood := allGoesWell_removals mem (dbOpen true true) (t := t) (by rw [hplan]; simp) hreq
  exact ⟨_, mem, t, Queued.remove (cstr "a") Queued.new, hprep, hgood, hdry, hreal⟩

end Apg
