import Apg.Proof.Commit

/-!
# Owners of recorded files

A path has one owner in the index, the package that recorded it last. When the owner is
removed or no longer lists the path, the entry goes, whoever else lists it.

* `dbOwner_defined`: **every recorded file has an owner** in the runs in which no package
  gives up a path of its own that another one lists.
-/

namespace Apg

variable {db db' : Db} {name : CStr} {pkg : Package}

/-! ## What is listed -/

/-- A list of files belongs to a record. -/
def FilesRecorded (db : Db) : Prop := ∀ n, db.files.get n ≠ none → db.main.get n ≠ none ∧ db.filesOpen = true

theorem FilesRecorded.congr (h : FilesRecorded db) (hs : SameTables db db') : FilesRecorded db' := by
  intro n hn
  rw [hs.files] at hn
  rw [hs.main, hs.filesOpen]
  exact h n hn

theorem FilesRecorded.add (h : FilesRecorded db) (ht : AddTxn db name pkg db') : FilesRecorded db' := by
  intro n hn
  rw [ht.files] at hn
  rw [ht.main, ht.filesOpen, Table.get_put]
  by_cases hw : db.filesOpen ∧ pkg.packageFiles ≠ []
  · rw [if_pos hw, Table.get_put] at hn
    split at hn
    · rename_i hname
      rw [if_pos hname]
      exact ⟨by simp, hw.1⟩
    · rename_i hname
      rw [if_neg hname]
      exact h n hn
  · rw [if_neg hw] at hn
    refine ⟨?_, (h n hn).2⟩
    split
    · simp
    · exact (h n hn).1

theorem FilesRecorded.remove (h : FilesRecorded db) (ht : RemoveTxn db name db') : FilesRecorded db' := by
  intro n hn
  rw [ht.files] at hn
  rw [ht.main, ht.filesOpen, Table.get_del]
  by_cases hf : db.filesOpen = true
  · rw [if_pos hf, Table.get_del] at hn
    split at hn
    · exact absurd rfl hn
    · rename_i hname
      rw [if_neg hname]
      exact h n hn
  · rw [if_neg hf] at hn
    exact absurd (h n hn).2 hf

/-- What is read of a package is the list stored under its name. -/
theorem mem_packageFiles (h : RecordsOK db) {n : CStr} {q : Package} (hq : dbGet db n = some q) (x : CStr) :
    some x ∈ q.packageFiles ↔ x ∈ loadPackageFiles db n := by
  rw [dbGet_files h hq]
  simp

theorem mem_storedFiles_iff (h : RecordsOK db) (hf : FilesRecorded db) {n x : CStr} :
    x ∈ storedFiles db n ↔ ∃ q, dbGet db n = some q ∧ some x ∈ q.packageFiles := by
  constructor
  · intro hx
    have hstored : db.files.get n ≠ none := by
      intro hnone
      simp [storedFiles, hnone] at hx
    obtain ⟨hmain, hopen⟩ := hf n hstored
    obtain ⟨j, hj⟩ := Option.ne_none_iff_exists'.1 hmain
    obtain ⟨p, hname, -, rfl⟩ := h n j hj
    obtain ⟨q, -, -, hread⟩ := readRecord_toJson hname db
    have hq : dbGet db n = some { q with packageFiles := (loadPackageFiles db n).map some } := by
      unfold dbGet
      rw [hj, Option.bind_some, hread]
    refine ⟨_, hq, (mem_packageFiles h hq x).2 ?_⟩
    unfold loadPackageFiles
    rw [if_pos hopen]
    exact hx
  · rintro ⟨q, hq, hx⟩
    rw [mem_packageFiles h hq] at hx
    unfold loadPackageFiles at hx
    split at hx
    · exact hx
    · cases hx

/-! ## Owners -/

/-- Every path of a list has an owner. -/
def Owned (db : Db) : Prop := ∀ n x, x ∈ storedFiles db n → db.fileOwner.get x ≠ none

/-- Of the paths in the index that are the package's, no other package lists one that is
not kept. -/
def GivesUpOwn (db : Db) (name : CStr) (kept : List CStr) : Prop :=
  ∀ x n q, dbOwner db x = some name → x ∉ kept → n ≠ name → dbGet db n = some q → some x ∉ q.packageFiles

theorem Owned.congr (h : Owned db) (hs : SameTables db db') : Owned db' := by
  unfold Owned storedFiles
  rw [hs.files, hs.fileOwner]
  exact h

section

variable (hr : RecordsOK db) (hrec : FilesRecorded db) (hf : db.filesOpen = true) (ho : db.fileOwnerOpen = true)

include hr hrec ho in
/-- A list that names a path of the package, of another package, names one that is kept. -/
theorem GivesUpOwn.kept {kept : List CStr} (h : GivesUpOwn db name kept) {n x : CStr} (hn : n ≠ name)
    (hx : x ∈ storedFiles db n) (howner : db.fileOwner.get x = some name) : x ∈ kept := by
  by_contra hkept
  obtain ⟨q, hq, hmem⟩ := (mem_storedFiles_iff hr hrec).1 hx
  refine h x n q ?_ hkept hn hq hmem
  rw [dbOwner, if_pos ho]
  exact howner

include hr hrec hf ho in
theorem Owned.add (h : Owned db) (hpaths : pkg.NoNewline) (ht : AddTxn db name pkg db')
    (hgives : pkg.packageFiles ≠ [] → GivesUpOwn db name pkg.paths) : Owned db' := by
  intro n x hx
  rw [storedFiles_add ht hf] at hx
  rw [ht.owner]
  by_cases hmine : x ∈ pkg.paths
  · rw [if_pos ⟨ho, hmine⟩]; simp
  rw [if_neg fun hc => hmine hc.2]
  split at hx
  · -- the new list names its own paths only
    rw [deserialize_serialize hpaths] at hx
    exact absurd (List.mem_filter.1 hx).1 hmine
  · rename_i hother
    rw [if_neg]
    · exact h n x hx
    · rintro ⟨-, -, hfiles, -, howner⟩
      have hn : n ≠ name := fun hn => hother ⟨hn, hfiles⟩
      exact hmine ((hgives hfiles).kept hr hrec ho hn hx howner)

include hr hrec hf ho in
theorem Owned.remove (h : Owned db) (ht : RemoveTxn db name db') (hgives : GivesUpOwn db name []) : Owned db' := by
  intro n x hx
  unfold storedFiles at hx
  rw [ht.files, if_pos hf, Table.get_del] at hx
  split at hx
  · simp at hx
  · rename_i hn
    rw [ht.fileOwner, deleteFileOwnerEntries_get]
    rw [if_neg]
    · exact h n x hx
    · rintro ⟨-, -, -, howner⟩
      have := hgives.kept hr hrec ho hn hx howner
      cases this

end

/-! ## Whole runs -/

/-- The databases that writes make of a new one with both file tables, when no package gives
up a path of its own that another one lists. -/
inductive Undisputed : Db → Prop
  | new : Undisputed (dbOpen true true)
  | add {db db' : Db} {pkg : Package} {ok : Bool} (io : ℕ → Rc) : Undisputed db → pkg.NoNewline →
      (pkg.packageFiles ≠ [] → ∀ name ∈ pkg.metadata.name, GivesUpOwn db name pkg.paths) →
      dbAdd io db pkg = some (ok, db') → Undisputed db'
  | remove {db : Db} (io : Rc) (pkgName : CStr) : Undisputed db → GivesUpOwn db pkgName [] →
      Undisputed (dbRemove io db pkgName).2
  | setHold {db db' : Db} {ok : Bool} (io : ℕ → Rc) (pkgName : CStr) (held : Bool) :
      Undisputed db → dbSetHold io db pkgName held = some (ok, db') → Undisputed db'
  | setInstalledByHand {db db' : Db} {ok : Bool} (io : ℕ → Rc) (pkgName : CStr) (byHand : Bool) :
      Undisputed db → dbSetInstalledByHand io db pkgName byHand = some (ok, db') → Undisputed db'

theorem Undisputed.reachable (h : Undisputed db) : Reachable Package.NoNewline db := by
  induction h with
  | new => exact Reachable.new true true
  | add io _ hp _ ha ih => exact ih.add io hp ha
  | remove io n _ _ ih => exact ih.remove io n
  | setHold io n held _ hu ih => exact ih.setHold io n held hu
  | setInstalledByHand io n byHand _ hu ih => exact ih.setInstalledByHand io n byHand hu

/-- The index is complete. -/
structure IndexOK (db : Db) : Prop where
  recorded : FilesRecorded db
  owned : Owned db
  filesOpen : db.filesOpen = true
  fileOwnerOpen : db.fileOwnerOpen = true

theorem IndexOK.congr (h : IndexOK db) (hs : SameTables db db') : IndexOK db' :=
  ⟨h.recorded.congr hs, h.owned.congr hs, hs.filesOpen.trans h.filesOpen, hs.fileOwnerOpen.trans h.fileOwnerOpen⟩

theorem IndexOK.add {io : ℕ → Rc} {ok : Bool} (h : IndexOK db) (hr : RecordsOK db) (hpaths : pkg.NoNewline)
    (hgives : pkg.packageFiles ≠ [] → ∀ name ∈ pkg.metadata.name, GivesUpOwn db name pkg.paths)
    (ha : dbAdd io db pkg = some (ok, db')) : IndexOK db' := by
  obtain ⟨-, name, db₁, hname, htxn, hs⟩ | ⟨-, hs⟩ := dbAdd_cases ha
  · have ht := addTxn_spec htxn
    have howned := h.owned.add hr h.recorded h.filesOpen h.fileOwnerOpen hpaths ht fun hfiles => hgives hfiles name hname
    have hdb₁ : IndexOK db₁ :=
      ⟨h.recorded.add ht, howned, ht.filesOpen.trans h.filesOpen, ht.fileOwnerOpen.trans h.fileOwnerOpen⟩
    exact hdb₁.congr hs
  · exact h.congr hs

/-- A setter writes the list that is there. -/
theorem IndexOK.update {io : ℕ → Rc} {change : Package → Package} {ok : Bool} (h : IndexOK db) (hr : RecordsOK db)
    (howners : OwnersOK db) (hu : dbUpdate io db name change = some (ok, db'))
    (hfiles : ∀ p, (change p).packageFiles = p.packageFiles) (hname : ∀ p, (change p).metadata = p.metadata) :
    IndexOK db' := by
  obtain ⟨p, db₁, db₂, hp, hs₁, hadd, hs₂⟩ | ⟨-, hs⟩ := dbUpdate_cases hu
  · have hpaths : (change p).NoNewline := by
      unfold Package.NoNewline Package.paths
      rw [hfiles]
      exact dbGet_noNewline hp
    have hlist : (change p).paths = loadPackageFiles db name := by
      unfold Package.paths
      rw [hfiles, dbGet_files hr hp]
      simp [List.reduceOption]
    have hdb₁ : IndexOK db₁ := h.congr hs₁
    refine (hdb₁.add (recordsFrom_congr hr hs₁) hpaths (fun _ n hn => ?_) hadd).congr hs₂
    -- what it owns is in its list, and so it is kept
    intro x m q howner hkept _ _
    exfalso
    apply hkept
    rw [hname, Option.mem_def, dbGet_name hr hp, Option.some.injEq] at hn
    subst hn
    rw [hs₁.dbOwner_eq, dbOwner, if_pos h.fileOwnerOpen] at howner
    rw [hlist, loadPackageFiles, if_pos h.filesOpen]
    exact (howners h.filesOpen h.fileOwnerOpen x name howner).2
  · exact h.congr hs

theorem Undisputed.indexOK (h : Undisputed db) : IndexOK db := by
  induction h with
  | new => exact ⟨fun n hn => by simp [dbOpen] at hn, fun n x hx => by simp [dbOpen, storedFiles] at hx, rfl, rfl⟩
  | add io h hp hgives ha ih => exact ih.add (reachable_recordsOK h.reachable) hp hgives ha
  | @remove db io n h hgives ih =>
    have hr := reachable_recordsOK h.reachable
    obtain ⟨-, db₁, ht, hs⟩ | ⟨-, hs⟩ := dbRemove_cases io db n
    · have howned := ih.owned.remove hr ih.recorded ih.filesOpen ih.fileOwnerOpen ht hgives
      have hdb₁ : IndexOK db₁ :=
        ⟨ih.recorded.remove ht, howned, ht.filesOpen.trans ih.filesOpen, ht.fileOwnerOpen.trans ih.fileOwnerOpen⟩
      exact hdb₁.congr hs
    · exact ih.congr hs
  | setHold io n held h hu ih =>
    exact ih.update (reachable_recordsOK h.reachable) (reachable_ownersOK h.reachable) hu (fun _ => rfl) fun _ => rfl
  | setInstalledByHand io n byHand h hu ih =>
    exact ih.update (reachable_recordsOK h.reachable) (reachable_ownersOK h.reachable) hu (fun _ => rfl) fun _ => rfl

/-- **Every recorded file has an owner**, which lists it. -/
theorem dbOwner_defined (h : Undisputed db) {n x : CStr} {pkg : Package} (hpkg : dbGet db n = some pkg)
    (hx : some x ∈ pkg.packageFiles) :
    ∃ o q, dbOwner db x = some o ∧ dbGet db o = some q ∧ some x ∈ q.packageFiles := by
  have hok := h.indexOK
  have hr := reachable_recordsOK h.reachable
  have hstored := (mem_storedFiles_iff hr hok.recorded).2 ⟨pkg, hpkg, hx⟩
  obtain ⟨o, ho⟩ := Option.ne_none_iff_exists'.1 (hok.owned n x hstored)
  have howner : dbOwner db x = some o := by
    rw [dbOwner, if_pos hok.fileOwnerOpen]
    exact ho
  have hmem := (reachable_ownersOK h.reachable hok.filesOpen hok.fileOwnerOpen x o ho).2
  obtain ⟨q, hq, hqx⟩ := (mem_storedFiles_iff hr hok.recorded).1 hmem
  exact ⟨o, q, howner, hq, hqx⟩

/-- `p` lists two paths, `q` one of them, and `p` is removed. -/
theorem dbOwner_defined_taken :
    ∃ db pkg, Undisputed db ∧ dbGet db (cstr "p") = none ∧ dbGet db (cstr "q") = some pkg ∧
      some (cstr "/x") ∈ pkg.packageFiles ∧
      ∃ o q, dbOwner db (cstr "/x") = some o ∧ dbGet db o = some q ∧ some (cstr "/x") ∈ q.packageFiles := by
  have hrun : ∃ db₁, dbAdd (fun _ => .success) (dbOpen true true) (bare "p" ["/x", "/z"]) = some (true, db₁) ∧
      db₁.fileOwner.entries.map (·.2) = [cstr "p", cstr "p"] ∧
      ∃ db₂ pkg₂, dbAdd (fun _ => .success) db₁ (bare "q" ["/x"]) = some (true, db₂) ∧
        db₂.fileOwner.entries = [(cstr "/x", cstr "q"), (cstr "/z", cstr "p")] ∧
        db₂.main.entries.map (·.1) = [cstr "p", cstr "q"] ∧
        dbGet db₂ (cstr "q") = some pkg₂ ∧ some (cstr "/z") ∉ pkg₂.packageFiles ∧
        dbGet (dbRemove .success db₂ (cstr "p")).2 (cstr "p") = none ∧
        ∃ pkg, dbGet (dbRemove .success db₂ (cstr "p")).2 (cstr "q") = some pkg ∧ some (cstr "/x") ∈ pkg.packageFiles :=
    ⟨_, rfl, by decide, _, _, rfl, rfl, by decide, rfl, by decide, rfl, _, rfl, by decide⟩
  obtain ⟨db₁, hp, howners₁, db₂, pkg₂, hq, howners₂, hnames, hget₂, hz, hgone, pkg, hpkg, hx⟩ := hrun
  have hentry : ∀ {db : Db} {x n : CStr}, dbOwner db x = some n → (x, n) ∈ db.fileOwner.entries := by
    intro db x n h
    unfold dbOwner at h
    split at h
    · exact (Table.get_eq_some _).1 h
    · cases h
  have h₁ : Undisputed db₁ := by
    refine Undisputed.add _ Undisputed.new (by unfold Package.NoNewline; decide) (fun _ n _ x m q _ _ _ hq => ?_) hp
    simp [dbGet, dbOpen] at hq
  have h₂ : Undisputed db₂ := by
    refine Undisputed.add _ h₁ (by unfold Package.NoNewline; decide) (fun _ n hn x m q hx _ _ _ => ?_) hq
    -- `q` owns nothing yet
    obtain rfl : cstr "q" = n := Option.some.inj hn
    have hmem := List.mem_map_of_mem (f := Prod.snd) (hentry hx)
    rw [howners₁] at hmem
    have hnot : cstr "q" ∉ [cstr "p", cstr "p"] := by decide
    exact absurd hmem hnot
  have h₃ : Undisputed (dbRemove .success db₂ (cstr "p")).2 := by
    refine h₂.remove .success (cstr "p") fun x n q hx _ hn hq => ?_
    have howner := hentry hx
    rw [howners₂] at howner
    obtain ⟨j, hj, -⟩ := Option.bind_eq_some_iff.1 hq
    have hrec := List.mem_map_of_mem (f := Prod.fst) ((Table.get_eq_some _).1 hj)
    rw [hnames] at hrec
    simp only [List.mem_cons, List.not_mem_nil, or_false] at howner hrec
    obtain rfl := hrec.resolve_left hn
    rw [hget₂, Option.some.injEq] at hq
    subst hq
    rcases howner with he | he
    · exact absurd (Prod.mk.inj he).2 (by decide)
    · rw [(Prod.mk.inj he).1]
      exact hz
  exact ⟨_, pkg, h₃, hgone, hpkg, hx, dbOwner_defined h₃ hpkg hx⟩

/-- The later of two packages that list a path is removed. -/
theorem dbOwner_defined_lost :
    ∃ db₁ db₂, dbAdd (fun _ => .success) (dbOpen true true) (bare "p" ["/x"]) = some (true, db₁) ∧
      dbAdd (fun _ => .success) db₁ (bare "q" ["/x"]) = some (true, db₂) ∧
      (dbRemove .success db₂ (cstr "q")).1 = true ∧
      (∃ pkg, dbGet (dbRemove .success db₂ (cstr "q")).2 (cstr "p") = some pkg ∧ some (cstr "/x") ∈ pkg.packageFiles) ∧
      dbOwner (dbRemove .success db₂ (cstr "q")).2 (cstr "/x") = none :=
  ⟨_, _, rfl, rfl, rfl, ⟨_, rfl, by decide⟩, by decide⟩

end Apg
