import Apg.Proof.Db
import Apg.Spec.Sharing

/-!
# Processes on one database

A handle for reading changes nothing, so what processes do to a database in any order of
their steps they could have done one after the other (`Run.serial`), and what one
process keeps all of them keep.

* `run_serial_iff`: **any interleaving of handles is an order of sessions.**
* `run_dbOwner`: **no owner dangles in any interleaving**, wherever processes die.
-/

namespace Apg.Sharing

open Exclusive

variable {d d' : Disk} {h h' : Handle} {c : DbCall} {r : Bool}

theorem diskOf_view (h : Handle) (d : Disk) (suppress : Bool) : diskOf (h.view d suppress) = d := rfl

/-- **What a call can do**: open the tables of a handle that has none, or write through one
that has. -/
theorem act_cases (ha : c.act h d = some (r, h', d')) :
    (∃ files fileOwner, c = .openTables files fileOwner ∧ h.opened = false ∧ (h', d') = openFileTables files fileOwner h d) ∨
      (h.opened = true ∧ h' = h ∧ ∃ db, c.run (h.view d) = some (r, db) ∧ d' = diskOf db) := by
  unfold DbCall.act at ha
  split at ha
  · rename_i files fileOwner hopen
    simp only [Option.some.injEq, Prod.mk.injEq] at ha
    exact Or.inl ⟨files, fileOwner, rfl, hopen, ha.2.symm⟩
  · cases ha
  · rename_i hopen
    obtain ⟨⟨ok, db⟩, hrun, hr⟩ := Option.map_eq_some_iff.1 ha
    simp only [Prod.mk.injEq] at hr
    obtain ⟨rfl, rfl, rfl⟩ := hr
    exact Or.inr ⟨hopen, rfl, db, hrun, rfl⟩

/-! ## Handles for reading -/

theorem openNamed_readonly (io : Bool) (n : CStr) (d : Disk) : (openNamed false io n d).2 = d := by
  unfold openNamed
  split <;> rfl

theorem run_readonly {db db' : Db} (hro : db.readonly = true) (hr : c.run db = some (r, db')) : db' = db := by
  cases c with
  | openTables files fileOwner => cases hr
  | record io pkg =>
    simp only [DbCall.run, dbAdd, hro, if_true, Option.some.injEq, Prod.mk.injEq] at hr
    exact hr.2.symm
  | erase io n =>
    simp only [DbCall.run, dbRemove, hro, if_true, Option.some.injEq, Prod.mk.injEq] at hr
    exact hr.2.symm
  | setHold io n held =>
    simp only [DbCall.run, dbSetHold, dbUpdate, hro, if_true, Option.some.injEq, Prod.mk.injEq] at hr
    exact hr.2.symm
  | setInstalledByHand io n byHand =>
    simp only [DbCall.run, dbSetInstalledByHand, dbUpdate, hro, if_true, Option.some.injEq, Prod.mk.injEq] at hr
    exact hr.2.symm
  | journal entry =>
    simp only [DbCall.run, hro, if_true, Option.some.injEq, Prod.mk.injEq] at hr
    exact hr.2.symm

/-- **A handle for reading changes nothing.** -/
theorem database_harmless : Harmless database fun h => h.readonly = true where
  onlooker := rfl
  act c h d r h' d' hro ha := by
    obtain ⟨files, fileOwner, -, -, hres⟩ | ⟨-, rfl, db, hrun, rfl⟩ := act_cases ha
    · simp only [openFileTables, hro, Bool.not_true, Prod.mk.injEq] at hres
      obtain ⟨rfl, rfl⟩ := hres
      exact ⟨rfl, by rw [openNamed_readonly, openNamed_readonly]⟩
    · refine ⟨hro, ?_⟩
      have hdb : db = h'.view d := run_readonly hro hrun
      rw [hdb, diskOf_view]

/-! ## `db_add` in two calls -/

theorem addTxn_suppress (db : Db) (n : CStr) (pkg : Package) (b : Bool) :
    addTxn { db with suppressJournal := b } n pkg = (addTxn db n pkg).map fun db => { db with suppressJournal := b } := by
  unfold addTxn putFiles deleteFileOwnerEntries
  by_cases hkey : (!validKey n || decide (n ∈ db.namedDbs)) = true
  · simp only [hkey, if_true, Option.map_none]
  · cases hf : db.filesOpen <;> cases ho : db.fileOwnerOpen <;> by_cases hp : pkg.packageFiles.length > 0 <;>
      simp [hkey, hp, Function.comp_def]

theorem dbAddLoop_suppress (io : ℕ → Rc) (db : Db) (n : CStr) (pkg : Package) (b : Bool) : ∀ m k,
    dbAddLoop io { db with suppressJournal := b } n pkg m k =
      ((dbAddLoop io db n pkg m k).1, { (dbAddLoop io db n pkg m k).2 with suppressJournal := b }) := by
  have honce : ∀ rc, dbAddOnce rc { db with suppressJournal := b } n pkg =
      ((dbAddOnce rc db n pkg).1, { (dbAddOnce rc db n pkg).2 with suppressJournal := b }) := by
    intro rc
    unfold dbAddOnce
    rw [addTxn_suppress]
    cases rc with
    | success => cases addTxn db n pkg <;> rfl
    | _ => rfl
  intro m
  induction m with
  | zero => intro k; exact honce (io k)
  | succ m ih =>
    intro k
    unfold dbAddLoop
    rw [honce]
    rcases hr : dbAddOnce (io k) db n pkg with ⟨rc, db₁⟩
    cases rc with
    | mapFull => exact ih (k + 1)
    | _ => rfl

/-- **`db_add` is a `record` and a `journal`**, the second one made of the answer of the first. -/
theorem dbAdd_calls (h : Handle) (d : Disk) (io : ℕ → Rc) {pkg : Package} {n : CStr} (hw : h.readonly = false)
    (hname : pkg.metadata.name = some n) :
    (dbAdd io (h.view d false) pkg).map (fun x => (x.1, diskOf x.2)) =
      ((DbCall.record io pkg).run (h.view d)).bind fun x =>
        ((DbCall.journal ⟨.install, some n, pkg.metadata.version, x.1, true⟩).run (h.view (diskOf x.2))).map
          fun y => (x.1, diskOf y.2) := by
  obtain ⟨⟨rc, db⟩, hloop⟩ : ∃ r, dbAddLoop io (h.view d) n pkg mapGrowAttempts 0 = r := ⟨_, rfl⟩
  have hloud : dbAddLoop io (h.view d false) n pkg mapGrowAttempts 0 = (rc, { db with suppressJournal := false }) := by
    have hs := dbAddLoop_suppress io (h.view d) n pkg false mapGrowAttempts 0
    rwa [hloop] at hs
  have hquiet : db.suppressJournal = true := by
    have hs := dbAddLoop_suppress io (h.view d) n pkg true mapGrowAttempts 0
    rw [hloop] at hs
    exact (congrArg (fun r => r.2.suppressJournal) (hloop.symm.trans hs)).trans rfl
  have hro : ∀ d suppress, (h.view d suppress).readonly = false := fun _ _ => hw
  simp only [DbCall.run, dbAdd, hname, hro, hloop, hloud, hquiet, Bool.false_eq_true, if_true, if_false, Option.map_some,
    Option.bind_some, Option.some.injEq, Prod.mk.injEq, true_and]
  unfold journalWrite
  by_cases hj : db.main.get (cstr "journal") = none
  · have hj' : (h.view (diskOf db)).main.get (cstr "journal") = none := hj
    rw [if_pos hj, if_pos hj']
    rfl
  · have hj' : ¬ (h.view (diskOf db)).main.get (cstr "journal") = none := hj
    rw [if_neg hj, if_neg hj']
    rfl
/-! ## Any order of the steps -/

variable {ι : Type*} [DecidableEq ι] {s : System ι Disk Handle DbCall Bool}

/-- **Handles in any order are handles one after the other**: the disk, and what the writing
handles are answered, are those of sessions that do not overlap, and any such sessions
are one of the orders. -/
theorem run_serial_iff [Inhabited ι] (d₀ : Disk) (log : List (DbCall × Bool)) :
    (∃ s : System ι Disk Handle DbCall Bool, Run database d₀ s ∧ s.store = d ∧ s.log = log) ↔
      ∃ sessions, Serial database d₀ sessions d ∧ sessions.flatten = log := by
  constructor
  · rintro ⟨s, hrun, rfl, rfl⟩
    exact hrun.serial database_harmless
  · rintro ⟨sessions, hserial, rfl⟩
    obtain ⟨s, hrun, hstore, hlog, -⟩ := hserial.run (default : ι)
    exact ⟨s, hrun, hstore, hlog⟩

/-! ## What all processes keep -/

/-- What a write keeps of a database, its flags and its named tables included. -/
structure Keeps (db db' : Db) : Prop where
  records : RecordsOK db → RecordsOK db'
  owners : OwnersOK db → OwnersOK db'
  flags : db'.filesOpen = db.filesOpen ∧ db'.fileOwnerOpen = db.fileOwnerOpen
  named : db.namedDbs ⊆ db'.namedDbs
  unreserved : ∀ n ∈ db.namedDbs, db.main.get n = none → db'.main.get n = none

section

variable {db db' db'' : Db} {pkg : Package} {n : CStr}

theorem Keeps.of_same (hs : SameTables db db') (hn : db.namedDbs ⊆ db'.namedDbs) : Keeps db db' :=
  ⟨fun h => recordsFrom_congr h hs, fun h => ownersOK_congr h hs, ⟨hs.filesOpen, hs.fileOwnerOpen⟩, hn,
    fun n _ hnone => by rw [hs.main, hnone]⟩

theorem Keeps.trans (h : Keeps db db') (h' : Keeps db' db'') : Keeps db db'' :=
  ⟨fun hr => h'.records (h.records hr), fun ho => h'.owners (h.owners ho),
    ⟨h'.flags.1.trans h.flags.1, h'.flags.2.trans h.flags.2⟩, fun _ hm => h'.named (h.named hm),
    fun n hn hnone => h'.unreserved n (h.named hn) (h.unreserved n hn hnone)⟩

theorem journalWrite_keeps (db : Db) (e : JournalEntry) : Keeps db (journalWrite db e) := by
  refine Keeps.of_same (journalWrite_tables db e) ?_
  unfold journalWrite
  split
  · show db.namedDbs ⊆ if cstr "journal" ∈ db.namedDbs then db.namedDbs else db.namedDbs ++ [cstr "journal"]
    split
    · exact List.Subset.refl _
    · exact List.subset_append_left _ _
  · exact List.Subset.refl _

theorem journalUnless_keeps (db : Db) (e : JournalEntry) :
    Keeps db (if db.suppressJournal then db else journalWrite db e) := by
  split
  · exact Keeps.of_same (SameTables.refl db) (List.Subset.refl _)
  · exact journalWrite_keeps db e

theorem addTxn_keeps (hname : pkg.metadata.name = some n) (hpaths : pkg.NoNewline) (h : addTxn db n pkg = some db') :
    Keeps db db' := by
  have ht := addTxn_spec h
  refine ⟨fun hr => addTxn_recordsFrom hr trivial hname ht, fun ho => addTxn_ownersOK ho hpaths ht,
    ⟨ht.filesOpen, ht.fileOwnerOpen⟩, ?_, fun k hk hnone => ?_⟩
  · rw [(addTxn_journal h).2.2]
    exact List.Subset.refl _
  · have hne : k ≠ n := fun he => addTxn_unreserved h (he ▸ hk)
    rw [ht.main, Table.get_put, if_neg hne, hnone]

theorem dbAdd_keeps {io : ℕ → Rc} {ok : Bool} (hpaths : pkg.NoNewline) (h : dbAdd io db pkg = some (ok, db')) :
    Keeps db db' := by
  unfold dbAdd at h
  split at h
  · simp only [Option.some.injEq, Prod.mk.injEq] at h
    exact h.2 ▸ Keeps.of_same (SameTables.refl db) (List.Subset.refl _)
  · cases hname : pkg.metadata.name with
    | none => simp [hname] at h
    | some n =>
      simp only [hname] at h
      rcases dbAddLoop_cases io db n pkg mapGrowAttempts 0 with ⟨db₁, htxn, hloop⟩ | ⟨rc, -, hloop⟩
      · simp only [hloop, Option.some.injEq, Prod.mk.injEq] at h
        exact h.2 ▸ (addTxn_keeps hname hpaths htxn).trans (journalUnless_keeps db₁ _)
      · simp only [hloop, Option.some.injEq, Prod.mk.injEq] at h
        exact h.2 ▸ journalUnless_keeps db _

theorem dbRemove_keeps (db : Db) (io : Rc) (n : CStr) : Keeps db (dbRemove io db n).2 := by
  unfold dbRemove
  split
  · exact Keeps.of_same (SameTables.refl db) (List.Subset.refl _)
  · have htxn : Keeps db (removeTxn io db n).2 := by
      rcases removeTxn_cases io db n with ⟨db₁, ht, h⟩ | ⟨rc, -, h⟩
      · have hnamed := (removeTxn_journal io db n).2.2
        rw [h] at hnamed ⊢
        refine ⟨fun hr => removeTxn_recordsFrom hr ht, fun ho => removeTxn_ownersOK ho ht, ⟨ht.filesOpen, ht.fileOwnerOpen⟩,
          ?_, fun k _ hnone => ?_⟩
        · show db.namedDbs ⊆ db₁.namedDbs
          rw [show db₁.namedDbs = db.namedDbs from hnamed]
          exact List.Subset.refl _
        · show db₁.main.get k = none
          rw [ht.main, Table.get_del, hnone, ite_self]
      · rw [h]
        exact Keeps.of_same (SameTables.refl db) (List.Subset.refl _)
    exact htxn.trans (journalUnless_keeps _ _)

theorem dbUpdate_keeps {io : ℕ → Rc} {change : Package → Package} {ok : Bool}
    (hchange : ∀ p, (change p).packageFiles = p.packageFiles) (h : dbUpdate io db n change = some (ok, db')) :
    Keeps db db' := by
  unfold dbUpdate at h
  split at h
  · simp only [Option.some.injEq, Prod.mk.injEq] at h
    exact h.2 ▸ Keeps.of_same (SameTables.refl db) (List.Subset.refl _)
  · split at h
    · simp only [Option.some.injEq, Prod.mk.injEq] at h
      exact h.2 ▸ Keeps.of_same (SameTables.refl db) (List.Subset.refl _)
    · rename_i p hp
      obtain ⟨⟨ok', db₂⟩, hadd, hres⟩ := Option.map_eq_some_iff.1 h
      simp only [Prod.mk.injEq] at hres
      obtain ⟨-, rfl⟩ := hres
      -- what is written back was read without a newline
      have hpaths : (change p).NoNewline := by
        unfold Package.NoNewline Package.paths
        rw [hchange]
        exact dbGet_noNewline hp
      have hbefore : Keeps db { db with suppressJournal := true } :=
        Keeps.of_same ⟨rfl, rfl, rfl, rfl, rfl, rfl⟩ (List.Subset.refl _)
      have hafter : Keeps db₂ { db₂ with suppressJournal := false } :=
        Keeps.of_same ⟨rfl, rfl, rfl, rfl, rfl, rfl⟩ (List.Subset.refl _)
      exact (hbefore.trans (dbAdd_keeps hpaths hadd)).trans hafter

theorem run_keeps (hplain : c.Plain) (hr : c.run db = some (r, db')) : Keeps db db' := by
  cases c with
  | openTables files fileOwner => cases hr
  | record io pkg => exact dbAdd_keeps hplain hr
  | erase io n =>
    simp only [DbCall.run, Option.some.injEq] at hr
    have hdb : (dbRemove io db n).2 = db' := by rw [hr]
    exact hdb ▸ dbRemove_keeps db io n
  | setHold io n held =>
    refine dbUpdate_keeps ?_ hr
    intro p
    rfl
  | setInstalledByHand io n byHand =>
    refine dbUpdate_keeps ?_ hr
    intro p
    rfl
  | journal entry =>
    simp only [DbCall.run] at hr
    split at hr
    · simp only [Option.some.injEq, Prod.mk.injEq] at hr
      exact hr.2 ▸ Keeps.of_same (SameTables.refl db) (List.Subset.refl _)
    · simp only [Option.some.injEq, Prod.mk.injEq] at hr
      exact hr.2 ▸ journalWrite_keeps db entry

end

/-- A handle through which both file tables are seen. -/
def allOpen : Handle := { opened := true, filesOpen := true, fileOwnerOpen := true }

/-- No record has the name of a file table that is not there yet, and whoever looks finds
records and owners in order. -/
structure DiskOK (d : Disk) : Prop where
  reserved : ∀ n ∈ [cstr "files", cstr "file_owner"], n ∈ d.namedDbs ∨ d.main.get n = none
  records : ∀ h : Handle, RecordsOK (h.view d)
  owners : ∀ h : Handle, OwnersOK (h.view d)

/-- A writing handle whose tables are open has both of them. -/
structure HandleOK (h : Handle) (d : Disk) : Prop where
  disk : DiskOK d
  writes : h.readonly = false
  opened : h.opened = true → h.filesOpen = true ∧ h.fileOwnerOpen = true ∧
    ∀ n ∈ [cstr "files", cstr "file_owner"], n ∈ d.namedDbs

theorem DiskOK.empty : DiskOK {} where
  reserved n _ := Or.inr rfl
  records h n j hj := by cases hj
  owners h _ _ x n hx := by cases hx

/-- A file table can always be opened, and is there then. -/
theorem DiskOK.openNamed (h : DiskOK d) {n : CStr} (hn : n ∈ [cstr "files", cstr "file_owner"]) :
    (openNamed true true n d).1 = true ∧ DiskOK (openNamed true true n d).2 ∧ n ∈ (openNamed true true n d).2.namedDbs ∧
      d.namedDbs ⊆ (openNamed true true n d).2.namedDbs := by
  unfold Sharing.openNamed
  by_cases hm : n ∈ d.namedDbs
  · rw [if_pos hm]
    exact ⟨rfl, h, hm, List.Subset.refl _⟩
  · have hnone := (h.reserved n hn).resolve_left hm
    rw [if_neg hm, if_pos (by simp [hnone])]
    refine ⟨rfl, ⟨fun k hk => ?_, h.records, h.owners⟩, by simp, List.subset_append_left _ _⟩
    exact (h.reserved k hk).imp_left fun hk => List.mem_append_left _ hk

/-- **A call of a writing handle keeps the disk in order.** -/
theorem HandleOK.act (h : HandleOK hd d) (hplain : c.Plain) (ha : c.act hd d = some (r, h', d')) : HandleOK h' d' := by
  obtain ⟨files, fileOwner, rfl, -, hres⟩ | ⟨hopen, rfl, db, hrun, rfl⟩ := act_cases ha
  · obtain ⟨rfl, rfl⟩ := hplain
    simp only [openFileTables, h.writes, Bool.not_false, Prod.mk.injEq] at hres
    obtain ⟨rfl, rfl⟩ := hres
    obtain ⟨hf, hdf, hfiles, -⟩ := h.disk.openNamed (n := cstr "files") (by simp)
    obtain ⟨ho, hdo, howner, hkept⟩ := hdf.openNamed (n := cstr "file_owner") (by simp)
    refine ⟨hdo, rfl, fun _ => ⟨hf, ho, fun n hn => ?_⟩⟩
    rw [List.mem_cons, List.mem_singleton] at hn
    rcases hn with rfl | rfl
    · exact hkept hfiles
    · exact howner
  · have hk := run_keeps hplain hrun
    obtain ⟨hf, ho, hnamed⟩ := h.opened hopen
    refine ⟨⟨fun n hn => Or.inl (hk.named (hnamed n hn)), fun _ => hk.records (h.disk.records h'), fun _ _ _ => ?_⟩, h.writes,
      fun _ => ⟨hf, ho, fun n hn => hk.named (hnamed n hn)⟩⟩
    exact hk.owners (h.disk.owners h') (hk.flags.1.trans hf) (hk.flags.2.trans ho)

theorem recorded_of_owner {db : Db} (h : OwnersOK db) (hr : RecordsOK db) (hf : db.filesOpen = true)
    (ho : db.fileOwnerOpen = true) {x n : CStr} (howner : dbOwner db x = some n) :
    ∃ pkg, dbGet db n = some pkg ∧ some x ∈ pkg.packageFiles := by
  unfold dbOwner at howner
  rw [if_pos ho] at howner
  obtain ⟨hrec, hmem⟩ := h hf ho x n howner
  obtain ⟨j, hj⟩ := Option.ne_none_iff_exists'.1 hrec
  obtain ⟨q, hname, -, rfl⟩ := hr n j hj
  obtain ⟨p, -, -, hread⟩ := readRecord_toJson hname db
  refine ⟨_, by rw [dbGet, hj, Option.bind_some, hread], ?_⟩
  rw [loadPackageFiles, if_pos hf]
  exact List.mem_map_of_mem hmem

/-- **No owner dangles**, in any order of the steps of any handles: whoever owns a path is
recorded, and lists it. -/
theorem run_dbOwner {ι : Type*} [DecidableEq ι] {s : System ι Disk Handle {c : DbCall // c.Plain} Bool}
    (h : Run (database.only DbCall.Plain) {} s) (view : Handle) (hf : view.filesOpen = true) (ho : view.fileOwnerOpen = true)
    {x n : CStr} (howner : dbOwner (view.view s.store) x = some n) :
    ∃ pkg, dbGet (view.view s.store) n = some pkg ∧ some x ∈ pkg.packageFiles := by
  have hdisk : DiskOK s.store := by
    refine h.keeps HandleOK (database_harmless.only _) (fun d hd => ?_) (fun c hd d r h' d' hk ha => ?_)
      (fun hd d => HandleOK.disk) DiskOK.empty
    · exact ⟨hd, rfl, fun hopen => by cases hopen⟩
    · exact hk.act c.2 ha
  exact recorded_of_owner (hdisk.owners view) (hdisk.records view) hf ho howner

/-- A handle opens the tables, records a package and dies, and then the script it had
started ends. -/
theorem run_dbOwner_died : ∃ s : System ℕ Disk Handle {c : DbCall // c.Plain} Bool,
    Run (database.only DbCall.Plain) {} s ∧ s.holder = none ∧
      dbOwner (allOpen.view s.store) (cstr "/x") = some (cstr "p") ∧
      ∃ pkg, dbGet (allOpen.view s.store) (cstr "p") = some pkg ∧ some (cstr "/x") ∈ pkg.packageFiles := by
  have hplain : (DbCall.record (fun _ => .success) (bare "p" ["/x"])).Plain := by
    show ∀ path ∈ (bare "p" ["/x"]).paths, CChar.newline ∉ path
    decide
  have hcalls : ∃ d, Calls (database.only DbCall.Plain) (database.only DbCall.Plain).fresh {}
      [(⟨.openTables true true, rfl, rfl⟩, true), (⟨.record (fun _ => .success) (bare "p" ["/x"]), hplain⟩, true)] allOpen d ∧
        dbOwner (allOpen.view d) (cstr "/x") = some (cstr "p") :=
    ⟨_, (Calls.nil.snoc rfl).snoc rfl, by decide⟩
  obtain ⟨d, hcalls, howner⟩ := hcalls
  have hasked : Run (database.only DbCall.Plain) {} _ := Relation.ReflTransGen.single (Step.ask (i := 0) rfl)
  have hlocked := hasked.tail (Step.lock (i := 0) rfl rfl)
  have hmade := Run.calls hlocked (System.goes_same _ 0 _) hcalls
  have hdied := (hmade.tail (Step.die 0)).tail (Step.unlock (System.goes_same _ 0 _))
  exact ⟨_, hdied, rfl, howner, run_dbOwner hdied allOpen rfl rfl howner⟩

end Apg.Sharing
