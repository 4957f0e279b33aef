import Apg.Proof.Json
import Apg.Spec.Db

/-!
# The tables of the package database

What one write does to the three tables is said once for each of them
(`AddTxn`, `removeTxn_cases`); every invariant is derived from that.

* `dbAdd_readBack_iff`: **when a package is read back as it was added.**
* `dbOwner_recorded`: **an owner of a file has a record that lists the file.**
-/

namespace Apg

/-! ## File lists -/

theorem fileLines_newline {path : CStr} (h : .newline ∉ path) (rest : CStr) : ∀ line : CStr,
    fileLines line (path ++ .newline :: rest) =
      if line ++ path = [] then fileLines [] rest else (line ++ path) :: fileLines [] rest := by
  induction path with
  | nil => intro line; simp [fileLines]
  | cons c path ih =>
    intro line
    rw [List.mem_cons, not_or] at h
    have hc : c ≠ .newline := fun hc => h.1 hc.symm
    rw [List.cons_append, fileLines, if_neg hc, ih h.2]
    simp

theorem fileLines_flatMap : ∀ {paths : List CStr}, (∀ path ∈ paths, .newline ∉ path) →
    fileLines [] (paths.flatMap fun path => path ++ [.newline]) = paths.filter (· ≠ []) := by
  intro paths
  induction paths with
  | nil => intro _; rfl
  | cons path paths ih =>
    intro h
    have hrest := ih fun p hp => h p (List.mem_cons_of_mem _ hp)
    rw [List.flatMap_cons, List.append_assoc, List.singleton_append,
      fileLines_newline (h path List.mem_cons_self), List.nil_append, hrest]
    by_cases hp : path = []
    · simp [hp]
    · simp [hp]

/-- **A list of files is read back as it was written**, without its `NULL` and
empty entries. -/
theorem deserialize_serialize {files : List (Option CStr)} (h : ∀ path ∈ files.reduceOption, .newline ∉ path) :
    deserializeFiles (serializeFiles files) = files.reduceOption.filter (· ≠ []) :=
  fileLines_flatMap h

/-- No line of a list holds a newline. -/
theorem newline_notMem_fileLines : ∀ (s line : CStr), .newline ∉ line → ∀ path ∈ fileLines line s, .newline ∉ path := by
  intro s
  induction s with
  | nil => intro line _ path hp; simp [fileLines] at hp
  | cons c s ih =>
    intro line hl path hp
    unfold fileLines at hp
    split_ifs at hp with hc hline
    · exact ih [] (by simp) path hp
    · rcases List.mem_cons.1 hp with rfl | hp
      · exact hl
      · exact ih [] (by simp) path hp
    · refine ih (line ++ [c]) ?_ path hp
      rw [List.mem_append, not_or]
      exact ⟨hl, by simpa using fun h => hc h.symm⟩

/-- No line of a list is empty. -/
theorem ne_nil_of_mem_fileLines : ∀ (s line : CStr), ∀ path ∈ fileLines line s, path ≠ [] := by
  intro s
  induction s with
  | nil => intro line path hp; simp [fileLines] at hp
  | cons c s ih =>
    intro line path hp
    unfold fileLines at hp
    split_ifs at hp with hc hline
    · exact ih [] path hp
    · rcases List.mem_cons.1 hp with rfl | hp
      · exact hline
      · exact ih [] path hp
    · exact ih _ path hp

/-- **Lines are written as they were read.** -/
theorem deserialize_serialize_lines (s : CStr) :
    deserializeFiles (serializeFiles ((deserializeFiles s).map some)) = deserializeFiles s := by
  have hpaths : ((deserializeFiles s).map some).reduceOption = deserializeFiles s := by simp [List.reduceOption]
  rw [deserialize_serialize, hpaths, List.filter_eq_self]
  · intro x hx
    simpa using ne_nil_of_mem_fileLines s [] x hx
  · rw [hpaths]
    exact newline_notMem_fileLines s [] (by simp)

/-! ## Owners -/

theorem deleteOwners_get {name : CStr} : ∀ (paths : List CStr) (owners : Table CStr CStr) (x : CStr),
    (deleteOwners name paths owners).get x =
      if x ∈ paths ∧ owners.get x = some name then none else owners.get x := by
  intro paths
  induction paths with
  | nil => intro owners x; simp [deleteOwners]
  | cons path paths ih =>
    intro owners x
    have hstep : deleteOwners name (path :: paths) owners =
        deleteOwners name paths (if owners.get path = some name then owners.del path else owners) := rfl
    rw [hstep, ih]
    by_cases hx : x = path
    · subst hx
      by_cases ho : owners.get x = some name
      · simp [ho]
      · simp [ho]
    · by_cases ho : owners.get path = some name
      · simp [ho, hx]
      · simp [ho, hx]

theorem putOwners_get {name : CStr} : ∀ (paths : List CStr) {owners owners' : Table CStr CStr},
    putOwners name paths owners = some owners' →
    (∀ path ∈ paths, validKey path) ∧ ∀ x, owners'.get x = if x ∈ paths then some name else owners.get x := by
  intro paths
  induction paths with
  | nil =>
    intro owners owners' h
    simp only [putOwners, Option.some.injEq] at h
    subst h
    simp
  | cons path paths ih =>
    intro owners owners' h
    unfold putOwners at h
    split_ifs at h with hk
    obtain ⟨h1, h2⟩ := ih h
    refine ⟨?_, ?_⟩
    · intro p hp
      rcases List.mem_cons.1 hp with rfl | hp
      · exact hk
      · exact h1 p hp
    · intro x
      rw [h2, Table.get_put]
      by_cases hx : x = path
      · simp [hx]
      · simp [hx]

/-! ## What a write does -/

/-- The tables and the flags of the handle are the same. -/
structure SameTables (db db' : Db) : Prop where
  main : db'.main = db.main
  files : db'.files = db.files
  fileOwner : db'.fileOwner = db.fileOwner
  filesOpen : db'.filesOpen = db.filesOpen
  fileOwnerOpen : db'.fileOwnerOpen = db.fileOwnerOpen
  readonly : db'.readonly = db.readonly

theorem SameTables.refl (db : Db) : SameTables db db := ⟨rfl, rfl, rfl, rfl, rfl, rfl⟩

theorem SameTables.trans {db db' db'' : Db} (h1 : SameTables db db') (h2 : SameTables db' db'') :
    SameTables db db'' :=
  ⟨h2.main.trans h1.main, h2.files.trans h1.files, h2.fileOwner.trans h1.fileOwner,
    h2.filesOpen.trans h1.filesOpen, h2.fileOwnerOpen.trans h1.fileOwnerOpen, h2.readonly.trans h1.readonly⟩

variable {db db' : Db} {name : CStr} {pkg : Package}

theorem journalWrite_tables (db : Db) (e : JournalEntry) : SameTables db (journalWrite db e) := by
  unfold journalWrite
  split
  · exact ⟨rfl, rfl, rfl, rfl, rfl, rfl⟩
  · exact SameTables.refl db

/-- The stored list of a package, whether or not the table is open. -/
def storedFiles (db : Db) (name : CStr) : List CStr := ((db.files.get name).map deserializeFiles).getD []

/-- What adding `pkg` under `name` does to the tables. -/
structure AddTxn (db : Db) (name : CStr) (pkg : Package) (db' : Db) : Prop where
  key : validKey name
  main : db'.main = db.main.put name (packageToJson pkg)
  files : db'.files = if db.filesOpen ∧ pkg.packageFiles ≠ [] then db.files.put name (serializeFiles pkg.packageFiles)
    else db.files
  paths : db.fileOwnerOpen → pkg.packageFiles ≠ [] → ∀ path ∈ pkg.paths, validKey path
  owner : ∀ x, db'.fileOwner.get x =
    if db.fileOwnerOpen ∧ x ∈ pkg.paths then some name
    else if db.fileOwnerOpen ∧ db.filesOpen ∧ pkg.packageFiles ≠ [] ∧ x ∈ storedFiles db name ∧
        db.fileOwner.get x = some name then none
    else db.fileOwner.get x
  filesOpen : db'.filesOpen = db.filesOpen
  fileOwnerOpen : db'.fileOwnerOpen = db.fileOwnerOpen
  readonly : db'.readonly = db.readonly

theorem deleteFileOwnerEntries_get (db : Db) (name x : CStr) :
    (deleteFileOwnerEntries db name).fileOwner.get x =
      if db.fileOwnerOpen ∧ db.filesOpen ∧ x ∈ storedFiles db name ∧ db.fileOwner.get x = some name then none
      else db.fileOwner.get x := by
  unfold deleteFileOwnerEntries
  by_cases hopen : (db.filesOpen && db.fileOwnerOpen) = true
  · rw [if_pos hopen]
    rw [Bool.and_eq_true] at hopen
    simp only [hopen.1, hopen.2, true_and]
    exact deleteOwners_get _ _ x
  · rw [if_neg hopen]
    rw [Bool.and_eq_true, not_and_or] at hopen
    rw [if_neg]
    rintro ⟨h1, h2, -⟩
    rcases hopen with h | h
    · exact h h2
    · exact h h1

theorem deleteFileOwnerEntries_same (db : Db) (name : CStr) :
    deleteFileOwnerEntries db name = { db with fileOwner := (deleteFileOwnerEntries db name).fileOwner } := by
  unfold deleteFileOwnerEntries
  split <;> rfl

/-- What `putFiles` does: the list is stored, the package's old entries are taken
out, and the new ones are put over whatever was there. -/
theorem putFiles_spec {packageFiles : List (Option CStr)} (h : putFiles db name packageFiles = some db') :
    db'.main = db.main ∧
      db'.files = (if db.filesOpen then db.files.put name (serializeFiles packageFiles) else db.files) ∧
      (db.fileOwnerOpen → ∀ path ∈ packageFiles.reduceOption, validKey path) ∧
      (∀ x, db'.fileOwner.get x =
        if db.fileOwnerOpen ∧ x ∈ packageFiles.reduceOption then some name
        else (deleteFileOwnerEntries db name).fileOwner.get x) ∧
      db'.filesOpen = db.filesOpen ∧ db'.fileOwnerOpen = db.fileOwnerOpen ∧ db'.readonly = db.readonly := by
  unfold putFiles at h
  simp only at h
  rw [deleteFileOwnerEntries_same] at h
  generalize (deleteFileOwnerEntries db name).fileOwner = owners at h ⊢
  by_cases hf : db.filesOpen = true
  all_goals
    simp only [hf, if_true, Bool.false_eq_true, if_false] at h ⊢
    by_cases ho : db.fileOwnerOpen = true
    · simp only [ho, if_true] at h
      obtain ⟨owners', hput, rfl⟩ := Option.map_eq_some_iff.1 h
      obtain ⟨hvalid, hget⟩ := putOwners_get _ hput
      exact ⟨rfl, rfl, fun _ => hvalid, by simpa [ho] using hget, rfl, ho.symm, rfl⟩
    · simp only [ho, if_false, Bool.false_eq_true, Option.some.injEq] at h
      subst h
      exact ⟨rfl, rfl, fun h => absurd h ho, by simp [ho], rfl, by simp [ho], rfl⟩

theorem addTxn_spec (h : addTxn db name pkg = some db') : AddTxn db name pkg db' := by
  unfold addTxn at h
  split at h
  · exact absurd h (by simp)
  · rename_i hkey
    simp only [Bool.or_eq_true, Bool.not_eq_true', decide_eq_true_eq, not_or, Bool.not_eq_false] at hkey
    simp only at h
    by_cases hfiles : pkg.packageFiles = []
    · have hpaths : pkg.paths = [] := by unfold Package.paths; rw [hfiles]; rfl
      rw [if_neg (by simp [hfiles]), Option.some.injEq] at h
      subst h
      exact ⟨hkey.1, rfl, by simp [hfiles], by simp [hpaths], by simp [hpaths, hfiles], rfl, rfl, rfl⟩
    · rw [if_pos (List.length_pos_iff.2 hfiles)] at h
      obtain ⟨h1, h2, h3, h4, h5, h6, h7⟩ := putFiles_spec h
      refine ⟨hkey.1, h1, by simpa [hfiles] using h2, fun ho _ => h3 ho, ?_, h5, h6, h7⟩
      intro x
      rw [h4 x, deleteFileOwnerEntries_get]
      have hstored : storedFiles { db with main := db.main.put name (packageToJson pkg) } name = storedFiles db name := rfl
      simp only [hstored, hfiles, ne_eq, not_false_eq_true, true_and]
      rfl

/-- The tables are all a transaction changes. -/
theorem addTxn_journal (h : addTxn db name pkg = some db') :
    db'.journal = db.journal ∧ db'.suppressJournal = db.suppressJournal ∧ db'.namedDbs = db.namedDbs := by
  unfold addTxn at h
  split_ifs at h with hkey hfiles
  · unfold putFiles deleteFileOwnerEntries at h
    simp only at h
    split_ifs at h
    all_goals
      first
        | (obtain ⟨owners, -, rfl⟩ := Option.map_eq_some_iff.1 h; exact ⟨rfl, rfl, rfl⟩)
        | (rw [Option.some.injEq] at h; rw [← h]; exact ⟨rfl, rfl, rfl⟩)
  · rw [Option.some.injEq] at h
    rw [← h]
    exact ⟨rfl, rfl, rfl⟩

/-- A name of a sub-database is never recorded. -/
theorem addTxn_unreserved (h : addTxn db name pkg = some db') : name ∉ db.namedDbs := by
  intro hmem
  unfold addTxn at h
  rw [if_pos (by simp [hmem])] at h
  exact absurd h (by simp)

theorem journalUnless_tables (db : Db) (e : JournalEntry) :
    SameTables db (if db.suppressJournal then db else journalWrite db e) := by
  split
  · exact SameTables.refl db
  · exact journalWrite_tables db e

theorem dbAddOnce_cases (io : Rc) (db : Db) (name : CStr) (pkg : Package) :
    (∃ db', addTxn db name pkg = some db' ∧ dbAddOnce io db name pkg = (.success, db')) ∨
      ∃ rc, rc ≠ .success ∧ dbAddOnce io db name pkg = (rc, db) := by
  cases io with
  | success =>
    cases h : addTxn db name pkg with
    | none => exact Or.inr ⟨.failed, by simp, by simp [dbAddOnce, h]⟩
    | some db' => exact Or.inl ⟨db', rfl, by simp [dbAddOnce, h]⟩
  | mapFull => exact Or.inr ⟨.mapFull, by simp, rfl⟩
  | notFound => exact Or.inr ⟨.notFound, by simp, rfl⟩
  | failed => exact Or.inr ⟨.failed, by simp, rfl⟩

/-- However many attempts are made, the transaction is carried out once or not at
all. -/
theorem dbAddLoop_cases (io : ℕ → Rc) (db : Db) (name : CStr) (pkg : Package) : ∀ n k,
    (∃ db', addTxn db name pkg = some db' ∧ dbAddLoop io db name pkg n k = (.success, db')) ∨
      ∃ rc, rc ≠ .success ∧ dbAddLoop io db name pkg n k = (rc, db) := by
  intro n
  induction n with
  | zero => intro k; exact dbAddOnce_cases (io k) db name pkg
  | succ n ih =>
    intro k
    unfold dbAddLoop
    rcases dbAddOnce_cases (io k) db name pkg with ⟨db', htxn, h⟩ | ⟨rc, hrc, h⟩
    · rw [h]
      exact Or.inl ⟨db', htxn, rfl⟩
    · rw [h]
      cases rc with
      | success => exact absurd rfl hrc
      | mapFull => exact ih (k + 1)
      | notFound => exact Or.inr ⟨.notFound, by simp, rfl⟩
      | failed => exact Or.inr ⟨.failed, by simp, rfl⟩

/-- **What `db_add` can do**: carry out its transaction and return true, or leave
the tables alone and return false. -/
theorem dbAdd_cases {io : ℕ → Rc} {ok : Bool} (h : dbAdd io db pkg = some (ok, db')) :
    (ok = true ∧ ∃ name db₁, pkg.metadata.name = some name ∧ addTxn db name pkg = some db₁ ∧ SameTables db₁ db') ∨
      (ok = false ∧ SameTables db db') := by
  unfold dbAdd at h
  split at h
  · simp only [Option.some.injEq, Prod.mk.injEq] at h
    obtain ⟨rfl, rfl⟩ := h
    exact Or.inr ⟨rfl, SameTables.refl db⟩
  · cases hname : pkg.metadata.name with
    | none => simp [hname] at h
    | some name =>
      simp only [hname] at h
      rcases dbAddLoop_cases io db name pkg mapGrowAttempts 0 with ⟨db₁, htxn, hloop⟩ | ⟨rc, hrc, hloop⟩
      · simp only [hloop, Option.some.injEq, Prod.mk.injEq] at h
        obtain ⟨rfl, rfl⟩ := h
        exact Or.inl ⟨by simp, name, db₁, rfl, htxn, journalUnless_tables _ _⟩
      · simp only [hloop, Option.some.injEq, Prod.mk.injEq] at h
        obtain ⟨rfl, rfl⟩ := h
        exact Or.inr ⟨by simpa using hrc, journalUnless_tables _ _⟩

/-- What removing `name` does to the tables. -/
structure RemoveTxn (db : Db) (name : CStr) (db' : Db) : Prop where
  key : validKey name
  found : db.main.get name ≠ none
  main : db'.main = db.main.del name
  files : db'.files = if db.filesOpen then db.files.del name else db.files
  fileOwner : db'.fileOwner = (deleteFileOwnerEntries db name).fileOwner
  filesOpen : db'.filesOpen = db.filesOpen
  fileOwnerOpen : db'.fileOwnerOpen = db.fileOwnerOpen
  readonly : db'.readonly = db.readonly

theorem removeTxn_cases (io : Rc) (db : Db) (name : CStr) :
    (∃ db', RemoveTxn db name db' ∧ removeTxn io db name = (.success, db')) ∨
      ∃ rc, rc ≠ .success ∧ removeTxn io db name = (rc, db) := by
  cases io with
  | success =>
    unfold removeTxn
    simp only
    split
    · exact Or.inr ⟨.failed, by simp, rfl⟩
    · rename_i hkey
      simp only [Bool.or_eq_true, Bool.not_eq_true', decide_eq_true_eq, not_or, Bool.not_eq_false] at hkey
      split
      · exact Or.inr ⟨.notFound, by simp, rfl⟩
      · rename_i hfound
        left
        -- without the table of lists the owners are left as they are
        by_cases hf : db.filesOpen = true
        · rw [if_pos hf]
          refine ⟨_, ?_, rfl⟩
          rw [deleteFileOwnerEntries_same]
          refine ⟨hkey.1, hfound, rfl, by simp [hf], ?_, rfl, rfl, rfl⟩
          unfold deleteFileOwnerEntries
          split <;> rfl
        · rw [if_neg hf]
          refine ⟨_, ?_, rfl⟩
          refine ⟨hkey.1, hfound, rfl, by simp [hf], ?_, rfl, rfl, rfl⟩
          unfold deleteFileOwnerEntries
          rw [if_neg (by simp [hf])]
  | mapFull => exact Or.inr ⟨.mapFull, by simp, rfl⟩
  | notFound => exact Or.inr ⟨.notFound, by simp, rfl⟩
  | failed => exact Or.inr ⟨.failed, by simp, rfl⟩

theorem removeTxn_journal (io : Rc) (db : Db) (name : CStr) :
    (removeTxn io db name).2.journal = db.journal ∧ (removeTxn io db name).2.suppressJournal = db.suppressJournal ∧
      (removeTxn io db name).2.namedDbs = db.namedDbs := by
  cases io with
  | success =>
    unfold removeTxn
    simp only
    split_ifs
    · exact ⟨rfl, rfl, rfl⟩
    · exact ⟨rfl, rfl, rfl⟩
    · rw [deleteFileOwnerEntries_same]
      exact ⟨rfl, rfl, rfl⟩
    · exact ⟨rfl, rfl, rfl⟩
  | mapFull => exact ⟨rfl, rfl, rfl⟩
  | notFound => exact ⟨rfl, rfl, rfl⟩
  | failed => exact ⟨rfl, rfl, rfl⟩

/-- **What `db_remove` can do**: carry out its transaction and return true, or
leave the tables alone and return false. -/
theorem dbRemove_cases (io : Rc) (db : Db) (name : CStr) :
    ((dbRemove io db name).1 = true ∧ ∃ db₁, RemoveTxn db name db₁ ∧ SameTables db₁ (dbRemove io db name).2) ∨
      ((dbRemove io db name).1 = false ∧ SameTables db (dbRemove io db name).2) := by
  unfold dbRemove
  split
  · exact Or.inr ⟨rfl, SameTables.refl db⟩
  · rcases removeTxn_cases io db name with ⟨db₁, htxn, h⟩ | ⟨rc, hrc, h⟩
    · rw [h]
      exact Or.inl ⟨by simp, db₁, htxn, journalUnless_tables db₁ _⟩
    · rw [h]
      exact Or.inr ⟨by simpa using hrc, journalUnless_tables db _⟩

/-! ## Records -/

/-- Every record is that of a package of its name, with the property `P`. -/
def RecordsFrom (P : Package → Prop) (db : Db) : Prop :=
  ∀ n j, db.main.get n = some j → ∃ p : Package, p.metadata.name = some n ∧ P p ∧ j = packageToJson p

/-- Every record is that of a package of its name. -/
def RecordsOK (db : Db) : Prop := RecordsFrom (fun _ => True) db

section

variable {P : Package → Prop}

theorem recordsFrom_congr (h : RecordsFrom P db) (hs : SameTables db db') : RecordsFrom P db' := by
  intro n j hj
  rw [hs.main] at hj
  exact h n j hj

theorem addTxn_recordsFrom (h : RecordsFrom P db) (hp : P pkg) (hname : pkg.metadata.name = some name)
    (ht : AddTxn db name pkg db') : RecordsFrom P db' := by
  intro n j hj
  rw [ht.main, Table.get_put] at hj
  by_cases hn : n = name
  · rw [if_pos hn, Option.some.injEq] at hj
    exact ⟨pkg, hn ▸ hname, hp, hj.symm⟩
  · rw [if_neg hn] at hj
    exact h n j hj

theorem dbAdd_recordsFrom {io : ℕ → Rc} {ok : Bool} (h : RecordsFrom P db) (hp : P pkg)
    (ha : dbAdd io db pkg = some (ok, db')) : RecordsFrom P db' := by
  obtain ⟨-, name, db₁, hname, htxn, hs⟩ | ⟨-, hs⟩ := dbAdd_cases ha
  · exact recordsFrom_congr (addTxn_recordsFrom h hp hname (addTxn_spec htxn)) hs
  · exact recordsFrom_congr h hs

theorem removeTxn_recordsFrom (h : RecordsFrom P db) (ht : RemoveTxn db name db') : RecordsFrom P db' := by
  intro n j hj
  rw [ht.main, Table.get_del] at hj
  split at hj
  · exact absurd hj (by simp)
  · exact h n j hj

theorem dbRemove_recordsFrom (h : RecordsFrom P db) (io : Rc) (n : CStr) : RecordsFrom P (dbRemove io db n).2 := by
  obtain ⟨-, db₁, htxn, hs⟩ | ⟨-, hs⟩ := dbRemove_cases io db n
  · exact recordsFrom_congr (removeTxn_recordsFrom h htxn) hs
  · exact recordsFrom_congr h hs

/-- What a flag setter can do: write back the record it read, with the change. -/
theorem dbUpdate_cases {io : ℕ → Rc} {change : Package → Package} {ok : Bool}
    (h : dbUpdate io db name change = some (ok, db')) :
    (∃ p db₁ db₂, dbGet db name = some p ∧ SameTables db db₁ ∧ dbAdd io db₁ (change p) = some (ok, db₂) ∧
      SameTables db₂ db') ∨ (ok = false ∧ SameTables db db') := by
  unfold dbUpdate at h
  split at h
  · simp only [Option.some.injEq, Prod.mk.injEq] at h
    obtain ⟨rfl, rfl⟩ := h
    exact Or.inr ⟨rfl, SameTables.refl db⟩
  · split at h
    · simp only [Option.some.injEq, Prod.mk.injEq] at h
      obtain ⟨rfl, rfl⟩ := h
      exact Or.inr ⟨rfl, SameTables.refl db⟩
    · rename_i p hp
      obtain ⟨⟨ok', db₂⟩, hadd, hres⟩ := Option.map_eq_some_iff.1 h
      simp only [Prod.mk.injEq] at hres
      obtain ⟨rfl, rfl⟩ := hres
      exact Or.inl ⟨p, { db with suppressJournal := true }, db₂, hp, ⟨rfl, rfl, rfl, rfl, rfl, rfl⟩, hadd,
        ⟨rfl, rfl, rfl, rfl, rfl, rfl⟩⟩

theorem dbUpdate_recordsFrom {io : ℕ → Rc} {change : Package → Package} {ok : Bool} (h : RecordsFrom P db)
    (hu : dbUpdate io db name change = some (ok, db')) (hread : ∀ p, dbGet db name = some p → P (change p)) :
    RecordsFrom P db' := by
  obtain ⟨p, db₁, db₂, hp, hs₁, hadd, hs₂⟩ | ⟨-, hs⟩ := dbUpdate_cases hu
  · exact recordsFrom_congr (dbAdd_recordsFrom (recordsFrom_congr h hs₁) (hread p hp) hadd) hs₂
  · exact recordsFrom_congr h hs

/-- The property must not depend on the flags, and records must be read with it. -/
theorem reachable_recordsFrom (hread : ∀ {db n p q}, dbGet db n = some p → q.metadata = p.metadata → P q)
    (h : Reachable P db) : RecordsFrom P db := by
  induction h with
  | new f o => intro n j hj; simp [dbOpen] at hj
  | add io _ hp ha ih => exact dbAdd_recordsFrom ih hp ha
  | remove io n _ ih => exact dbRemove_recordsFrom ih io n
  | setHold io n held _ hu ih => exact dbUpdate_recordsFrom ih hu fun _ hp => hread hp rfl
  | setInstalledByHand io n byHand _ hu ih => exact dbUpdate_recordsFrom ih hu fun _ hp => hread hp rfl

theorem reachable_mono {Q : Package → Prop} (hPQ : ∀ p, P p → Q p) (h : Reachable P db) : Reachable Q db := by
  induction h with
  | new f o => exact Reachable.new f o
  | add io _ hp ha ih => exact ih.add io (hPQ _ hp) ha
  | remove io n _ ih => exact ih.remove io n
  | setHold io n held _ hu ih => exact ih.setHold io n held hu
  | setInstalledByHand io n byHand _ hu ih => exact ih.setInstalledByHand io n byHand hu

theorem reachable_recordsOK (h : Reachable P db) : RecordsOK db :=
  reachable_recordsFrom (fun _ _ => trivial) (reachable_mono (fun _ _ => trivial) h)

end

/-! ## Reading back -/

/-- A written record is one of a package with the same name. -/
theorem packageFromJson_name (p : Package) :
    ∃ q, packageFromJson (packageToJson p) = some q ∧ q.metadata.name = some (p.metadata.name.getD []) := by
  refine ⟨_, rfl, ?_⟩
  have hname : objGet "name" (packageToJson p) = some (addStr "name" p.metadata.name "").2 := rfl
  have hempty : cstr "" = [] := rfl
  simp only [parseMetadataFromRoot, hname, getStr_add, hempty]

/-- A record is read with the list stored under its own name. -/
theorem readRecord_toJson {p : Package} {n : CStr} (hname : p.metadata.name = some n) (db : Db) :
    ∃ q, packageFromJson (packageToJson p) = some q ∧ q.metadata.name = some n ∧
      readRecord db (packageToJson p) = some { q with packageFiles := (loadPackageFiles db n).map some } := by
  obtain ⟨q, hq, hqn⟩ := packageFromJson_name p
  rw [hname, Option.getD_some] at hqn
  refine ⟨q, hq, hqn, ?_⟩
  unfold readRecord
  rw [hq, Option.map_some, hqn]

/-- What is read of a name depends on its record and its stored list only. -/
theorem dbGet_congr (h : RecordsOK db) {n : CStr} (hmain : db'.main.get n = db.main.get n)
    (hfiles : loadPackageFiles db' n = loadPackageFiles db n) : dbGet db' n = dbGet db n := by
  unfold dbGet
  rw [hmain]
  cases hj : db.main.get n with
  | none => rfl
  | some j =>
    obtain ⟨p, hname, -, rfl⟩ := h n j hj
    obtain ⟨q, hq, -, hread⟩ := readRecord_toJson hname db
    obtain ⟨q', hq', -, hread'⟩ := readRecord_toJson hname db'
    rw [hq, Option.some.injEq] at hq'
    subst hq'
    rw [Option.bind_some, Option.bind_some, hread, hread', hfiles]

/-- The list a record is read with. -/
theorem dbGet_files (hr : RecordsOK db) {n : CStr} {q : Package} (h : dbGet db n = some q) :
    q.packageFiles = (loadPackageFiles db n).map some := by
  obtain ⟨j, hj, hread⟩ := Option.bind_eq_some_iff.1 h
  obtain ⟨p, hname, -, rfl⟩ := hr n j hj
  obtain ⟨r, -, -, hread'⟩ := readRecord_toJson hname db
  rw [hread, Option.some.injEq] at hread'
  rw [hread']

theorem loadPackageFiles_add {n : CStr} (ht : AddTxn db name pkg db') :
    loadPackageFiles db' n =
      if n = name ∧ db.filesOpen ∧ pkg.packageFiles ≠ [] then deserializeFiles (serializeFiles pkg.packageFiles)
      else loadPackageFiles db n := by
  unfold loadPackageFiles
  rw [ht.filesOpen, ht.files]
  by_cases hf : db.filesOpen = true
  · by_cases hp : pkg.packageFiles = []
    · simp [hf, hp]
    · by_cases hn : n = name
      · simp [hf, hp, hn]
      · simp [hf, hp, hn]
  · simp [hf]

theorem loadPackageFiles_remove (ht : RemoveTxn db name db') (n : CStr) :
    loadPackageFiles db' n = if n = name then [] else loadPackageFiles db n := by
  unfold loadPackageFiles
  rw [ht.filesOpen, ht.files]
  by_cases hf : db.filesOpen = true
  · by_cases hn : n = name
    · simp [hf, hn]
    · simp [hf, hn]
  · simp [hf]

theorem SameTables.dbOwner_eq (hs : SameTables db db') (x : CStr) : dbOwner db' x = dbOwner db x := by
  unfold dbOwner
  rw [hs.fileOwnerOpen, hs.fileOwner]

theorem SameTables.loadPackageFiles_eq (hs : SameTables db db') (n : CStr) :
    loadPackageFiles db' n = loadPackageFiles db n := by
  unfold loadPackageFiles
  rw [hs.filesOpen, hs.files]

theorem dbGet_sameTables (hs : SameTables db db') (n : CStr) : dbGet db' n = dbGet db n := by
  unfold dbGet
  rw [hs.main]
  congr 1
  funext j
  unfold readRecord
  simp only [hs.loadPackageFiles_eq]

/-- What is read under the name a package was added with: its record, with
whatever list is stored there now. -/
theorem dbGet_added (ht : AddTxn db name pkg db') (hname : pkg.metadata.name = some name) (hp : pkg.metadata.Parsed) :
    dbGet db' name = some { pkg.written with packageFiles := (loadPackageFiles db' name).map some } := by
  obtain ⟨q, hq, -, hread⟩ := readRecord_toJson hname db'
  rw [packageFromJson_toJson hp, Option.some.injEq] at hq
  unfold dbGet
  rw [ht.main, Table.get_put, if_pos rfl, Option.bind_some, hread, ← hq]

/-- Adding a package leaves what is read under other names. -/
theorem dbGet_other (hr : RecordsOK db) (ht : AddTxn db name pkg db') {n : CStr} (hn : n ≠ name) :
    dbGet db' n = dbGet db n := by
  refine dbGet_congr hr ?_ ?_
  · rw [ht.main, Table.get_put, if_neg hn]
  · rw [loadPackageFiles_add ht, if_neg (fun h => hn h.1)]

/-- **When a package is read back as it was added**: its record always is, and the
list of its files is unless the list is empty where an earlier one is stored, or
the table of lists is not open. -/
theorem dbAdd_readBack_iff {io : ℕ → Rc} (root : Json) (hreach : Reachable (fun _ => True) db)
    (hroot : packageMetadataFromJson root = some pkg.metadata) (hname : pkg.metadata.name = some name)
    (hpaths : ∀ path ∈ pkg.paths, path ≠ [] ∧ .newline ∉ path) (hadd : dbAdd io db pkg = some (true, db')) :
    (dbGet db' name = some { pkg.written with packageFiles := pkg.paths.map some } ∧
        ∀ n, n ≠ name → dbGet db' n = dbGet db n) ↔
      (db.filesOpen ∧ pkg.packageFiles ≠ []) ∨ (pkg.paths = [] ∧ loadPackageFiles db name = []) := by
  obtain ⟨-, name', db₁, hname', htxn, hs⟩ | ⟨hfalse, -⟩ := dbAdd_cases hadd
  swap
  · exact absurd hfalse (by simp)
  rw [hname, Option.some.injEq] at hname'
  subst hname'
  have ht := addTxn_spec htxn
  have hgetn : dbGet db' name = some { pkg.written with packageFiles := (loadPackageFiles db₁ name).map some } := by
    rw [dbGet_sameTables hs]
    exact dbGet_added ht hname (parsed_fromJson hroot)
  -- the other packages are read as before, whatever the list
  have hother : ∀ n, n ≠ name → dbGet db' n = dbGet db n := by
    intro n hn
    rw [dbGet_sameTables hs]
    exact dbGet_other (reachable_recordsOK hreach) ht hn
  have hwrote : deserializeFiles (serializeFiles pkg.packageFiles) = pkg.paths := by
    rw [deserialize_serialize fun path hp => (hpaths path hp).2]
    exact List.filter_eq_self.2 fun path hp => by simpa using (hpaths path hp).1
  -- what is left is whether the list stored is the package's
  have hlist : (dbGet db' name = some { pkg.written with packageFiles := pkg.paths.map some }) ↔
      loadPackageFiles db₁ name = pkg.paths := by
    rw [hgetn, Option.some.injEq, Package.mk.injEq]
    simp only [true_and, and_true]
    exact (List.map_injective_iff.2 (Option.some_injective _)).eq_iff
  rw [and_iff_left hother, hlist, loadPackageFiles_add ht]
  by_cases hwrite : db.filesOpen = true ∧ pkg.packageFiles ≠ []
  · rw [if_pos ⟨rfl, hwrite⟩]
    exact ⟨fun _ => Or.inl hwrite, fun _ => hwrote⟩
  · rw [if_neg fun h => hwrite h.2]
    -- no list was written, so an equal one is empty
    have hnone : loadPackageFiles db name = pkg.paths → pkg.paths = [] := by
      intro h
      by_cases hf : db.filesOpen = true
      · have : pkg.packageFiles = [] := by_contra fun hne => hwrite ⟨hf, hne⟩
        unfold Package.paths
        rw [this]; rfl
      · rw [← h]; simp [loadPackageFiles, hf]
    constructor
    · intro h
      exact Or.inr ⟨hnone h, h.trans (hnone h)⟩
    · rintro (h | ⟨h1, h2⟩)
      · exact absurd h hwrite
      · rw [h1, h2]

/-- The document of a package that has a name and nothing else. -/
def bareDoc (name : String) : Json := .obj [(jstr (cstr "name"), .str (jstr (cstr name)))]

/-- The package of `bareDoc`, with files. -/
def bare (name : String) (files : List String) : Package where
  metadata := { name := some (cstr name) }
  packageFiles := files.map fun path => some (cstr path)

theorem dbAdd_readBack_bare :
    ∃ db', dbAdd (fun _ => .success) (dbOpen true true) (bare "p" ["/a", "/b"]) = some (true, db') ∧
      dbGet db' (cstr "p") =
        some { (bare "p" []).written with packageFiles := [some (cstr "/a"), some (cstr "/b")] } := by
  have hpaths : ∀ path ∈ (bare "p" ["/a", "/b"]).paths, path ≠ [] ∧ .newline ∉ path := by decide
  have hadded : ∃ db', dbAdd (fun _ => .success) (dbOpen true true) (bare "p" ["/a", "/b"]) = some (true, db') :=
    ⟨_, rfl⟩
  obtain ⟨db', hadd⟩ := hadded
  have hback := (dbAdd_readBack_iff (bareDoc "p") (Reachable.new true true) (by decide) rfl hpaths hadd).2
    (Or.inl ⟨rfl, by decide⟩)
  exact ⟨db', hadd, hback.1⟩

/-- A package added again without files keeps the list it had. -/
theorem dbAdd_readBack_emptied :
    ∃ db db', Reachable (fun _ => True) db ∧ packageMetadataFromJson (bareDoc "p") = some (bare "p" []).metadata ∧
      dbAdd (fun _ => .success) db (bare "p" []) = some (true, db') ∧
      dbGet db' (cstr "p") ≠ some { (bare "p" []).written with packageFiles := (bare "p" []).paths.map some } := by
  have hfirst : ∃ db, dbAdd (fun _ => .success) (dbOpen true true) (bare "p" ["/a"]) = some (true, db) ∧
      ∃ db', dbAdd (fun _ => .success) db (bare "p" []) = some (true, db') ∧
        dbGet db' (cstr "p") ≠ some { (bare "p" []).written with packageFiles := (bare "p" []).paths.map some } :=
    ⟨_, rfl, _, rfl, by decide⟩
  obtain ⟨db, h1, db', h2, h3⟩ := hfirst
  exact ⟨db, db', Reachable.add _ (Reachable.new true true) trivial h1, by decide, h2, h3⟩

/-! ## No dangling owners -/

/-- No path of the package's list holds a newline. -/
def Package.NoNewline (pkg : Package) : Prop := ∀ path ∈ pkg.paths, .newline ∉ path

/-- Every owner entry, with both file tables open, names a package that has a
record and whose stored list holds the path. -/
def OwnersOK (db : Db) : Prop :=
  db.filesOpen → db.fileOwnerOpen → ∀ x n, db.fileOwner.get x = some n → db.main.get n ≠ none ∧ x ∈ storedFiles db n

theorem ownersOK_congr (h : OwnersOK db) (hs : SameTables db db') : OwnersOK db' := by
  unfold OwnersOK storedFiles at *
  rw [hs.main, hs.files, hs.fileOwner, hs.filesOpen, hs.fileOwnerOpen]
  exact h

theorem storedFiles_add {n : CStr} (ht : AddTxn db name pkg db') (hf : db.filesOpen) :
    storedFiles db' n =
      if n = name ∧ pkg.packageFiles ≠ [] then deserializeFiles (serializeFiles pkg.packageFiles)
      else storedFiles db n := by
  have h := loadPackageFiles_add (n := n) ht
  simp only [loadPackageFiles, ht.filesOpen, hf, if_true, true_and] at h
  exact h

/-- A path the package is added with is its own afterwards; one it no longer lists
has lost its entry; every other entry was there before, and so was the list that
backs it. -/
theorem addTxn_ownersOK (h : OwnersOK db) (hpaths : pkg.NoNewline) (ht : AddTxn db name pkg db') : OwnersOK db' := by
  intro hf ho x n hx
  rw [ht.filesOpen] at hf
  rw [ht.fileOwnerOpen] at ho
  rw [storedFiles_add ht hf, ht.main, Table.get_put]
  rw [ht.owner x] at hx
  by_cases hnew : x ∈ pkg.paths
  · rw [if_pos ⟨ho, hnew⟩, Option.some.injEq] at hx
    subst hx
    -- a new path: the list that holds it is stored with it
    have hfiles : pkg.packageFiles ≠ [] := by
      intro hnil
      unfold Package.paths at hnew
      rw [hnil] at hnew
      simp at hnew
    have hkey : x ≠ [] := by
      have := ht.paths ho hfiles x hnew
      unfold validKey at this
      rintro rfl
      simp at this
    rw [if_pos rfl, if_pos ⟨rfl, hfiles⟩, deserialize_serialize hpaths]
    refine ⟨by simp, ?_⟩
    rw [List.mem_filter]
    exact ⟨hnew, by simpa using hkey⟩
  · rw [if_neg fun h => hnew h.2] at hx
    split_ifs at hx with hold
    -- an entry that was there before: its list has not been replaced
    obtain ⟨hrec, hmem⟩ := h hf ho x n hx
    refine ⟨?_, ?_⟩
    · split
      · simp
      · exact hrec
    · rw [if_neg]
      · exact hmem
      · rintro ⟨rfl, hfiles⟩
        exact hold ⟨ho, hf, hfiles, hmem, hx⟩

theorem removeTxn_ownersOK (h : OwnersOK db) (ht : RemoveTxn db name db') : OwnersOK db' := by
  intro hf ho x n hx
  rw [ht.filesOpen] at hf
  rw [ht.fileOwnerOpen] at ho
  rw [ht.fileOwner, deleteFileOwnerEntries_get] at hx
  split_ifs at hx with hdel
  obtain ⟨hrec, hmem⟩ := h hf ho x n hx
  have hn : n ≠ name := by
    rintro rfl
    exact hdel ⟨ho, hf, hmem, hx⟩
  unfold storedFiles
  rw [ht.main, ht.files, if_pos hf, Table.get_del, Table.get_del, if_neg hn, if_neg hn]
  exact ⟨hrec, hmem⟩

theorem dbAdd_ownersOK {io : ℕ → Rc} {ok : Bool} (h : OwnersOK db) (hpaths : pkg.NoNewline)
    (ha : dbAdd io db pkg = some (ok, db')) : OwnersOK db' := by
  obtain ⟨-, name, db₁, hname, htxn, hs⟩ | ⟨-, hs⟩ := dbAdd_cases ha
  · exact ownersOK_congr (addTxn_ownersOK h hpaths (addTxn_spec htxn)) hs
  · exact ownersOK_congr h hs

theorem dbRemove_ownersOK (h : OwnersOK db) (io : Rc) (n : CStr) : OwnersOK (dbRemove io db n).2 := by
  obtain ⟨-, db₁, htxn, hs⟩ | ⟨-, hs⟩ := dbRemove_cases io db n
  · exact ownersOK_congr (removeTxn_ownersOK h htxn) hs
  · exact ownersOK_congr h hs

/-- The list a record is read with was cut at its newlines. -/
theorem dbGet_noNewline {p : Package} (h : dbGet db name = some p) : p.NoNewline := by
  unfold dbGet at h
  obtain ⟨j, -, hj⟩ := Option.bind_eq_some_iff.1 h
  unfold readRecord at hj
  obtain ⟨q, hq, rfl⟩ := Option.map_eq_some_iff.1 hj
  have hnone : q.packageFiles = [] := by
    unfold packageFromJson at hq
    split_ifs at hq
    rw [Option.some.injEq] at hq
    rw [← hq]
  cases hn : q.metadata.name with
  | none =>
    intro path hp
    simp [Package.paths, hnone] at hp
  | some n =>
    intro path hp
    have hload : path ∈ loadPackageFiles db n := by simpa [Package.paths, List.reduceOption_mem_iff] using hp
    unfold loadPackageFiles at hload
    split_ifs at hload
    · cases hfiles : db.files.get n with
      | none => simp [hfiles] at hload
      | some data =>
        simp only [hfiles, Option.map_some, Option.getD_some] at hload
        exact newline_notMem_fileLines data [] (by simp) path hload
    · simp at hload

theorem dbUpdate_ownersOK {io : ℕ → Rc} {change : Package → Package} {ok : Bool} (h : OwnersOK db)
    (hu : dbUpdate io db name change = some (ok, db')) (hchange : ∀ p, (change p).packageFiles = p.packageFiles) :
    OwnersOK db' := by
  obtain ⟨p, db₁, db₂, hp, hs₁, hadd, hs₂⟩ | ⟨-, hs⟩ := dbUpdate_cases hu
  · have hpaths : (change p).NoNewline := by
      unfold Package.NoNewline Package.paths
      rw [hchange]
      exact dbGet_noNewline hp
    exact ownersOK_congr (dbAdd_ownersOK (ownersOK_congr h hs₁) hpaths hadd) hs₂
  · exact ownersOK_congr h hs

theorem reachable_ownersOK (h : Reachable Package.NoNewline db) : OwnersOK db := by
  induction h with
  | new f o => intro _ _ x n hx; simp [dbOpen] at hx
  | add io _ hp ha ih => exact dbAdd_ownersOK ih hp ha
  | remove io n _ ih => exact dbRemove_ownersOK ih io n
  | setHold io n held _ hu ih => exact dbUpdate_ownersOK ih hu fun _ => rfl
  | setInstalledByHand io n byHand _ hu ih => exact dbUpdate_ownersOK ih hu fun _ => rfl

/-- **An owner of a file has a record that lists the file**, after any sequence of
writes. -/
theorem dbOwner_recorded (hreach : Reachable Package.NoNewline db) (hf : db.filesOpen) (ho : db.fileOwnerOpen)
    {x p : CStr} (h : dbOwner db x = some p) : ∃ pkg, dbGet db p = some pkg ∧ some x ∈ pkg.packageFiles := by
  unfold dbOwner at h
  rw [if_pos ho] at h
  obtain ⟨hrec, hmem⟩ := reachable_ownersOK hreach hf ho x p h
  obtain ⟨j, hj⟩ := Option.ne_none_iff_exists'.1 hrec
  obtain ⟨q, hname, -, rfl⟩ := reachable_recordsOK hreach p j hj
  obtain ⟨r, -, -, hread⟩ := readRecord_toJson hname db
  have hget : dbGet db p = some { r with packageFiles := (loadPackageFiles db p).map some } := by
    unfold dbGet
    rw [hj, Option.bind_some, hread]
  refine ⟨_, hget, ?_⟩
  unfold loadPackageFiles
  rw [if_pos hf]
  exact List.mem_map_of_mem hmem

/-- A path two packages list belongs to the later one, also when the earlier one
is removed. -/
theorem dbOwner_recorded_shared :
    ∃ db, Reachable Package.NoNewline db ∧ dbOwner db (cstr "/x") = some (cstr "q") ∧
      ∃ pkg, dbGet db (cstr "q") = some pkg ∧ some (cstr "/x") ∈ pkg.packageFiles := by
  have hruns : ∃ db₁, dbAdd (fun _ => .success) (dbOpen true true) (bare "p" ["/x", "/y"]) = some (true, db₁) ∧
      ∃ db₂, dbAdd (fun _ => .success) db₁ (bare "q" ["/x"]) = some (true, db₂) ∧
        (dbRemove .success db₂ (cstr "p")).2.filesOpen ∧ (dbRemove .success db₂ (cstr "p")).2.fileOwnerOpen ∧
        dbOwner (dbRemove .success db₂ (cstr "p")).2 (cstr "/x") = some (cstr "q") :=
    ⟨_, rfl, _, rfl, rfl, rfl, by decide⟩
  obtain ⟨db₁, h1, db₂, h2, hf, ho, hown⟩ := hruns
  have hp : (bare "p" ["/x", "/y"]).NoNewline := by unfold Package.NoNewline; decide
  have hq : (bare "q" ["/x"]).NoNewline := by unfold Package.NoNewline; decide
  have hreach := ((Reachable.new true true).add _ hp h1).add _ hq h2
  exact ⟨_, hreach.remove .success (cstr "p"), hown,
    dbOwner_recorded (hreach.remove .success (cstr "p")) hf ho hown⟩

end Apg
