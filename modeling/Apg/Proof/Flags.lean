import Apg.Proof.Db

/-!
# The flag setters

`db_set_hold` and `db_set_installed_by_hand` read a record, change the flag and add
the package again, with the list of files it was read with.

* `dbUpdate_writes`: what such a call does to the tables.
* `dbSetFlag_frame_iff`: **only the flag changes, exactly if the package owns every
  path of its list**: adding it again makes it the owner of all of them.
-/

namespace Apg

variable {db db' : Db} {name : CStr} {pkg : Package} {change : Package → Package} {io : ℕ → Rc}

/-! ## The journal stays silent -/

/-- With the journal suppressed an addition writes nothing to it. -/
theorem dbAdd_suppressed {ok : Bool} (hsup : db.suppressJournal = true) (h : dbAdd io db pkg = some (ok, db')) :
    db'.journal = db.journal := by
  unfold dbAdd at h
  split at h
  · simp only [Option.some.injEq, Prod.mk.injEq] at h
    rw [← h.2]
  cases hname : pkg.metadata.name with
  | none => simp [hname] at h
  | some name =>
    simp only [hname, Option.some.injEq, Prod.mk.injEq] at h
    obtain ⟨-, hdb⟩ := h
    rcases dbAddLoop_cases io db name pkg mapGrowAttempts 0 with ⟨db₁, htxn, hloop⟩ | ⟨rc, -, hloop⟩
    · have hstill : db₁.suppressJournal = true := (addTxn_journal htxn).2.1.trans hsup
      rw [hloop, if_pos hstill] at hdb
      rw [← hdb]
      exact (addTxn_journal htxn).1
    · rw [hloop, if_pos hsup] at hdb
      rw [← hdb]

/-! ## What a setter writes -/

/-- What is read of a record, with the list stored under its name. -/
theorem dbGet_settled (hr : RecordsOK db) (h : dbGet db name = some pkg) :
    pkg.metadata.name = some name ∧ pkg.packageFiles = (loadPackageFiles db name).map some ∧ pkg.metadata.Parsed ∧
      pkg.metadata.written = pkg.metadata ∧ nonEmpty pkg.pkgPath = pkg.pkgPath := by
  unfold dbGet at h
  obtain ⟨j, hj, hread⟩ := Option.bind_eq_some_iff.1 h
  obtain ⟨p, hname, -, rfl⟩ := hr name j hj
  obtain ⟨q, hq, hqn, hq'⟩ := readRecord_toJson hname db
  rw [hq', Option.some.injEq] at hread
  obtain ⟨hparsed, -, hwritten, hpath⟩ := written_of_fromJson hq
  rw [← hread]
  exact ⟨hqn, rfl, hparsed, hwritten, hpath⟩

/-- **A setter that succeeds adds the package it read, with the change.** -/
theorem dbUpdate_writes (h : dbUpdate io db name change = some (true, db')) :
    ∃ p db₁ name', dbGet db name = some p ∧ (change p).metadata.name = some name' ∧ AddTxn db name' (change p) db₁ ∧
      SameTables db₁ db' ∧ db'.journal = db.journal := by
  unfold dbUpdate at h
  split at h
  · simp at h
  cases hget : dbGet db name with
  | none => simp [hget] at h
  | some p =>
    simp only [hget] at h
    obtain ⟨⟨ok, db₂⟩, hadd, hres⟩ := Option.map_eq_some_iff.1 h
    simp only [Prod.mk.injEq] at hres
    obtain ⟨rfl, rfl⟩ := hres
    obtain ⟨-, name', db₁, hname', htxn, hs⟩ | ⟨hfalse, -⟩ := dbAdd_cases hadd
    swap
    · exact absurd hfalse (by simp)
    have ht := addTxn_spec htxn
    have hj := dbAdd_suppressed rfl hadd
    exact ⟨p, db₁, name', rfl, hname', ⟨ht.key, ht.main, ht.files, ht.paths, ht.owner, ht.filesOpen, ht.fileOwnerOpen,
      ht.readonly⟩, hs.trans ⟨rfl, rfl, rfl, rfl, rfl, rfl⟩, hj⟩

/-! ## The frame -/

/-- The call has changed the flag of the package and nothing else. -/
structure FlagOnly (db : Db) (name : CStr) (change : Package → Package) (db' : Db) : Prop where
  record : dbGet db' name = (dbGet db name).map change
  others : ∀ n, n ≠ name → dbGet db' n = dbGet db n
  lists : ∀ n, storedFiles db' n = storedFiles db n
  owners : ∀ x, dbOwner db' x = dbOwner db x
  journal : db'.journal = db.journal

/-- The package is the owner of every path of its list. -/
def OwnsItsPaths (db : Db) (name : CStr) : Prop :=
  db.fileOwnerOpen → ∀ x ∈ loadPackageFiles db name, dbOwner db x = some name

/-- The change leaves everything but the flags. -/
structure OnFlags (change : Package → Package) : Prop where
  metadata : ∀ p, (change p).metadata = p.metadata
  pkgPath : ∀ p, (change p).pkgPath = p.pkgPath
  packageFiles : ∀ p, (change p).packageFiles = p.packageFiles

theorem written_change (hc : OnFlags change) (hwritten : pkg.metadata.written = pkg.metadata)
    (hpath : nonEmpty pkg.pkgPath = pkg.pkgPath) (files : List (Option CStr)) :
    { (change pkg).written with packageFiles := files } = { change pkg with packageFiles := files } := by
  unfold Package.written
  rw [hc.metadata, hc.pkgPath, hwritten, hpath, ← hc.metadata, ← hc.pkgPath]

/-- The list that is written is the one that was there. -/
theorem storedFiles_setter {db₁ : Db} (hc : OnFlags change) (hfiles : pkg.packageFiles = (loadPackageFiles db name).map some)
    (ht : AddTxn db name (change pkg) db₁) (n : CStr) : storedFiles db₁ n = storedFiles db n := by
  unfold storedFiles
  rw [ht.files, hc.packageFiles, hfiles]
  split_ifs with hwrite
  · obtain ⟨hopen, hne⟩ := hwrite
    rw [Table.get_put]
    by_cases hn : n = name
    · subst hn
      rw [if_pos rfl]
      unfold loadPackageFiles at hne ⊢
      rw [if_pos hopen] at hne ⊢
      cases hdata : db.files.get n with
      | none => simp [hdata] at hne
      | some data =>
        simp only [Option.map_some, Option.getD_some]
        exact deserialize_serialize_lines data
    · rw [if_neg hn]
  · rfl

theorem loadPackageFiles_stored (db : Db) (n : CStr) :
    loadPackageFiles db n = if db.filesOpen then storedFiles db n else [] := rfl

/-- The owners after the setter: the package owns every path of its list. -/
theorem dbOwner_setter {db₁ : Db} (hc : OnFlags change) (hfiles : pkg.packageFiles = (loadPackageFiles db name).map some)
    (ht : AddTxn db name (change pkg) db₁) (x : CStr) :
    dbOwner db₁ x = if db.fileOwnerOpen ∧ x ∈ loadPackageFiles db name then some name else dbOwner db x := by
  have hpaths : (change pkg).paths = loadPackageFiles db name := by
    unfold Package.paths
    rw [hc.packageFiles, hfiles]
    simp [List.reduceOption]
  unfold dbOwner
  rw [ht.fileOwnerOpen, ht.owner, hpaths]
  by_cases hopen : db.fileOwnerOpen = true
  swap
  · simp [hopen]
  rw [if_pos hopen, if_pos hopen]
  by_cases hx : x ∈ loadPackageFiles db name
  · rw [if_pos ⟨hopen, hx⟩, if_pos ⟨hopen, hx⟩]
  · -- a path outside the list that is read is outside the list that is cleared
    have hkept : ¬(db.fileOwnerOpen = true ∧ db.filesOpen = true ∧ (change pkg).packageFiles ≠ [] ∧
        x ∈ storedFiles db name ∧ db.fileOwner.get x = some name) := by
      rintro ⟨-, hf, -, hstored, -⟩
      rw [loadPackageFiles_stored, if_pos hf] at hx
      exact hx hstored
    rw [if_neg fun h => hx h.2, if_neg hkept, if_neg fun h => hx h.2]

/-- **What a setter changes.** -/
theorem dbUpdate_frame_iff (hr : RecordsOK db) (hc : OnFlags change) (h : dbUpdate io db name change = some (true, db')) :
    FlagOnly db name change db' ↔ OwnsItsPaths db name := by
  obtain ⟨p, db₁, name', hget, hname', ht, hs, hj⟩ := dbUpdate_writes h
  obtain ⟨hname, hfiles, hparsed, hwritten, hpath⟩ := dbGet_settled hr hget
  rw [hc.metadata, hname, Option.some.injEq] at hname'
  subst hname'
  have hown : ∀ x, dbOwner db' x = if db.fileOwnerOpen ∧ x ∈ loadPackageFiles db name then some name else dbOwner db x := by
    intro x
    rw [hs.dbOwner_eq]
    exact dbOwner_setter hc hfiles ht x
  constructor
  · intro hframe hopen x hx
    have hsame := hframe.owners x
    rw [hown x, if_pos ⟨hopen, hx⟩] at hsame
    exact hsame.symm
  · intro hall
    have hlists : ∀ n, storedFiles db' n = storedFiles db n := by
      intro n
      rw [← storedFiles_setter hc hfiles ht n]
      unfold storedFiles
      rw [hs.files]
    refine ⟨?_, ?_, hlists, ?_, hj⟩
    · have hadded := dbGet_added ht (by rw [hc.metadata, hname]) (by rw [hc.metadata]; exact hparsed)
      have hlist : loadPackageFiles db₁ name = loadPackageFiles db name := by
        rw [loadPackageFiles_stored, loadPackageFiles_stored, ht.filesOpen, storedFiles_setter hc hfiles ht]
      rw [dbGet_sameTables hs, hadded, hlist, hget, Option.map_some, written_change hc hwritten hpath, ← hfiles,
        ← hc.packageFiles]
    · intro n hn
      rw [dbGet_sameTables hs]
      exact dbGet_other hr ht hn
    · intro x
      rw [hown x]
      split_ifs with hx
      · exact (hall hx.1 x hx.2).symm
      · rfl

theorem onFlags_hold (held : Bool) : OnFlags fun pkg => { pkg with held := held } :=
  ⟨fun _ => rfl, fun _ => rfl, fun _ => rfl⟩

theorem onFlags_byHand (byHand : Bool) : OnFlags fun pkg => { pkg with installedByHand := byHand } :=
  ⟨fun _ => rfl, fun _ => rfl, fun _ => rfl⟩

/-- **The flag setters change only the flag, exactly if the package owns the paths of
its list.** -/
theorem dbSetFlag_frame_iff (hreach : Reachable (fun _ => True) db) (b : Bool) :
    (dbSetHold io db name b = some (true, db') →
      (FlagOnly db name (fun pkg => { pkg with held := b }) db' ↔ OwnsItsPaths db name)) ∧
    (dbSetInstalledByHand io db name b = some (true, db') →
      (FlagOnly db name (fun pkg => { pkg with installedByHand := b }) db' ↔ OwnsItsPaths db name)) := by
  have hr := reachable_recordsOK hreach
  exact ⟨dbUpdate_frame_iff hr (onFlags_hold b), dbUpdate_frame_iff hr (onFlags_byHand b)⟩

/-- `p` and then `q` are added with the same path; `p` is held. -/
theorem dbSetFlag_frame_shared :
    ∃ db db', Reachable (fun _ => True) db ∧ dbSetHold (fun _ => .success) db (cstr "p") true = some (true, db') ∧
      dbOwner db (cstr "/x") = some (cstr "q") ∧ dbOwner db' (cstr "/x") = some (cstr "p") ∧
      ¬FlagOnly db (cstr "p") (fun pkg => { pkg with held := true }) db' := by
  have hrun : ∃ db₁, dbAdd (fun _ => .success) (dbOpen true true) (bare "p" ["/x"]) = some (true, db₁) ∧
      ∃ db, dbAdd (fun _ => .success) db₁ (bare "q" ["/x"]) = some (true, db) ∧
        ∃ db', dbSetHold (fun _ => .success) db (cstr "p") true = some (true, db') ∧
          dbOwner db (cstr "/x") = some (cstr "q") ∧ dbOwner db' (cstr "/x") = some (cstr "p") :=
    ⟨_, rfl, _, rfl, _, rfl, by decide, by decide⟩
  obtain ⟨db₁, h1, db, h2, db', h3, hbefore, hafter⟩ := hrun
  refine ⟨db, db', ((Reachable.new true true).add _ trivial h1).add _ trivial h2, h3, hbefore, hafter, ?_⟩
  intro hframe
  have hsame := hframe.owners (cstr "/x")
  rw [hbefore, hafter] at hsame
  exact absurd hsame (by decide)

/-- `p` is held beside `q`, which has a file of its own. -/
theorem dbSetFlag_frame_beside :
    ∃ db db' q, dbSetHold (fun _ => .success) db (cstr "p") true = some (true, db') ∧
      dbGet db (cstr "q") = some q ∧ dbOwner db (cstr "/y") = some (cstr "q") ∧
      FlagOnly db (cstr "p") (fun pkg => { pkg with held := true }) db' := by
  have hrun : ∃ db₁, dbAdd (fun _ => .success) (dbOpen true true) (bare "p" ["/x"]) = some (true, db₁) ∧
      ∃ db q, dbAdd (fun _ => .success) db₁ (bare "q" ["/y"]) = some (true, db) ∧
        ∃ db', dbSetHold (fun _ => .success) db (cstr "p") true = some (true, db') ∧ dbGet db (cstr "q") = some q ∧
          dbOwner db (cstr "/y") = some (cstr "q") ∧ dbOwner db (cstr "/x") = some (cstr "p") ∧
          loadPackageFiles db (cstr "p") = [cstr "/x"] :=
    ⟨_, rfl, _, _, rfl, _, rfl, rfl, by decide, by decide, by decide⟩
  obtain ⟨db₁, h1, db, q, h2, db', h3, hq, hy, hown, hlist⟩ := hrun
  have hreach : Reachable (fun _ => True) db := ((Reachable.new true true).add _ trivial h1).add _ trivial h2
  refine ⟨db, db', q, h3, hq, hy, ((dbSetFlag_frame_iff hreach true).1 h3).2 ?_⟩
  intro _ x hx
  rw [hlist, List.mem_singleton] at hx
  rw [hx, hown]

end Apg
