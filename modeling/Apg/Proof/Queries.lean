import Apg.Proof.Flags
import Apg.Proof.Owners
import Apg.Proof.Removals
import Apg.Proof.StrMap
import Apg.Spec.Queries

/-!
# What the database answers

* `dbGetOrphans_dependents_iff`: **orphans are the packages nobody depends on**, but for
  packages that depend on themselves only.
* `dbStats_listing_iff`: **the statistics are those of the listing** when there is no named
  database.
-/

namespace Apg

variable {db : Db}

/-! ## Orphans -/

/-- A map whose keys are the names for which `P` holds. -/
def KeysAre (needed : StrMap) (P : CStr → Prop) : Prop := ∀ name, (strMapGet needed name).isSome = true ↔ P name

/-- The names of one package's dependencies go into the set. -/
theorem needDependencies_spec : ∀ (deps : List DepConstraint) {needed : StrMap} {P : CStr → Prop}, needed.OK →
    KeysAre needed P → (deps.foldl needDependency needed).OK ∧
      KeysAre (deps.foldl needDependency needed) fun name => P name ∨ ∃ dep ∈ deps, dep.name = some name := by
  intro deps
  induction deps with
  | nil => intro needed P hok h; exact ⟨hok, by simpa [KeysAre] using h⟩
  | cons dep deps ih =>
    intro needed P hok h
    rw [List.foldl_cons]
    have hstep : (needDependency needed dep).OK ∧
        KeysAre (needDependency needed dep) fun name => P name ∨ dep.name = some name := by
      unfold needDependency
      cases hdep : dep.name with
      | none => exact ⟨hok, by simpa [KeysAre] using h⟩
      | some key =>
        refine ⟨strMapSet_ok hok key 1, fun name => ?_⟩
        simp only [strMapGet_set hok, Option.some.injEq]
        by_cases hname : name = key
        · simp [hname]
        · rw [if_neg hname, h name]
          simp [Ne.symm hname]
    obtain ⟨hok', h'⟩ := ih hstep.1 hstep.2
    refine ⟨hok', fun name => ?_⟩
    rw [h' name]
    simp [or_assoc]

/-- **The needed names** are those that some package depends on. -/
theorem buildNeededSet_spec (all : List Package) (name : CStr) :
    (strMapGet (buildNeededSet all) name).isSome = true ↔
      ∃ pkg ∈ all, ∃ dep ∈ pkg.metadata.dependencies, dep.name = some name := by
  have hfold : ∀ (all : List Package) {needed : StrMap} {P : CStr → Prop}, needed.OK → KeysAre needed P →
      KeysAre (all.foldl (fun needed pkg => pkg.metadata.dependencies.foldl needDependency needed) needed)
        fun name => P name ∨ ∃ pkg ∈ all, ∃ dep ∈ pkg.metadata.dependencies, dep.name = some name := by
    intro all
    induction all with
    | nil => intro needed P _ h; simpa [KeysAre] using h
    | cons pkg all ih =>
      intro needed P hok h
      obtain ⟨hok', h'⟩ := needDependencies_spec pkg.metadata.dependencies hok h
      intro name
      rw [List.foldl_cons, ih hok' h' name]
      simp [or_assoc]
  have hinit : KeysAre strMapInit fun _ => False := fun name => by simp
  have := hfold all strMapInit_ok hinit name
  simpa [buildNeededSet] using this

theorem isNeeded_iff {pkg : Package} {name : CStr} (hname : pkg.metadata.name = some name) (all : List Package) :
    isNeeded pkg (buildNeededSet all) = true ↔
      ∃ p ∈ all, ∃ dep ∈ p.metadata.dependencies, dep.AsksFor name pkg.metadata.provides := by
  unfold isNeeded DepConstraint.AsksFor
  rw [hname]
  simp only [Bool.or_eq_true, List.any_eq_true, buildNeededSet_spec]
  constructor
  · rintro (⟨p, hp, dep, hdep, hn⟩ | ⟨provided, hmem, hget⟩)
    · exact ⟨p, hp, dep, hdep, Or.inl hn⟩
    · cases provided with
      | none => cases hget
      | some n =>
        obtain ⟨p, hp, dep, hdep, hn⟩ := (buildNeededSet_spec all n).1 hget
        exact ⟨p, hp, dep, hdep, Or.inr ⟨n, hn, hmem⟩⟩
  · rintro ⟨p, hp, dep, hdep, hn | ⟨n, hn, hmem⟩⟩
    · exact Or.inl ⟨p, hp, dep, hdep, hn⟩
    · exact Or.inr ⟨some n, hmem, (buildNeededSet_spec all n).2 ⟨p, hp, dep, hdep, hn⟩⟩

/-- The listing holds what is recorded under each name. -/
theorem mem_dbList_iff (hr : RecordsOK db) (pkg : Package) :
    pkg ∈ dbList db ↔ ∃ n, pkg.metadata.name = some n ∧ dbGet db n = some pkg := by
  unfold dbList
  rw [List.mem_filterMap]
  constructor
  · rintro ⟨⟨n, j⟩, he, hread⟩
    have hj := (Table.get_eq_some _).2 he
    have hget : dbGet db n = some pkg := by
      unfold dbGet
      rw [hj]
      exact hread
    exact ⟨n, (dbGet_settled hr hget).1, hget⟩
  · rintro ⟨n, -, hget⟩
    obtain ⟨j, hj, hread⟩ := Option.bind_eq_some_iff.1 hget
    exact ⟨(n, j), (Table.get_eq_some _).1 hj, hread⟩

theorem oneOf_isSome (needle : CStr) : ∀ {names : List (Option CStr)}, none ∉ names → ∃ b, oneOf needle names = some b := by
  intro names
  induction names with
  | nil => intro _; exact ⟨false, rfl⟩
  | cons o names ih =>
    intro h
    cases o with
    | none => exact absurd List.mem_cons_self h
    | some s =>
      unfold oneOf
      split
      · exact ⟨true, rfl⟩
      · exact ih fun hn => h (List.mem_cons_of_mem _ hn)

theorem anyMatch_isSome {name : CStr} {provides : List (Option CStr)} (hprovides : none ∉ provides) :
    ∀ {deps : List DepConstraint}, (∀ dep ∈ deps, dep.name ≠ none) → ∃ b, anyMatch name provides deps = some b := by
  intro deps
  induction deps with
  | nil => intro _; exact ⟨false, rfl⟩
  | cons dep deps ih =>
    intro h
    obtain ⟨s, hs⟩ := Option.ne_none_iff_exists'.1 (h dep List.mem_cons_self)
    have hmatch : ∃ b, namesMatch dep.name name provides = some b := by
      rw [hs]
      unfold namesMatch
      simp only
      split
      · exact ⟨true, rfl⟩
      · exact oneOf_isSome s hprovides
    obtain ⟨b, hb⟩ := hmatch
    unfold anyMatch
    rw [hb]
    cases b with
    | true => exact ⟨true, rfl⟩
    | false => exact ih fun d hd => h d (List.mem_cons_of_mem _ hd)

theorem dependentsLoop_isSome {name : CStr} {provides : List (Option CStr)} (hprovides : none ∉ provides) :
    ∀ {pkgs : List Package}, (∀ p ∈ pkgs, ∀ dep ∈ p.metadata.dependencies, dep.name ≠ none) →
      ∃ result, dependentsLoop name provides pkgs = some result := by
  intro pkgs
  induction pkgs with
  | nil => intro _; exact ⟨[], rfl⟩
  | cons p pkgs ih =>
    intro h
    obtain ⟨rest, hrest⟩ := ih fun q hq => h q (List.mem_cons_of_mem _ hq)
    obtain ⟨b, hb⟩ : ∃ b, anyMatch name provides p.metadata.dependencies = some b :=
      anyMatch_isSome hprovides (h p List.mem_cons_self)
    unfold dependentsLoop
    rw [hrest, hb]
    cases p.metadata.name with
    | none => exact ⟨rest, rfl⟩
    | some n =>
      simp only
      split
      · exact ⟨rest, rfl⟩
      · exact ⟨_, rfl⟩

/-- What the writer left has neither `NULL` entries nor nameless dependencies. -/
theorem written_plain {m : Metadata} (h : m.written = m) : none ∉ m.provides ∧ ∀ dep ∈ m.dependencies, dep.name ≠ none := by
  constructor
  · rw [← h]
    simp [Metadata.written]
  · rw [← h]
    intro dep hdep
    have := (List.mem_filter.1 hdep).2
    intro hnone
    rw [hnone] at this
    cases this

/-- No `NULL` is met on the way. -/
theorem dbGetDependents_isSome (hr : RecordsOK db) (name : CStr) : ∃ result, dbGetDependents db name = some result := by
  unfold dbGetDependents
  refine dependentsLoop_isSome ?_ ?_
  · cases hget : dbGet db name with
    | none => simp
    | some pkg => exact (written_plain (dbGet_settled hr hget).2.2.2.1).1
  · intro p hp
    obtain ⟨n, -, hget⟩ := (mem_dbList_iff hr p).1 hp
    exact (written_plain (dbGet_settled hr hget).2.2.2.1).2

/-- The package depends on itself, by its name or by something it provides. -/
def Package.AsksForItself (pkg : Package) (name : CStr) : Prop :=
  ∃ dep ∈ pkg.metadata.dependencies, dep.AsksFor name pkg.metadata.provides

/-- A record under another name has a dependency that asks for the package. -/
def AskedForByAnother (db : Db) (name : CStr) (pkg : Package) : Prop :=
  ∃ n q, n ≠ name ∧ dbGet db n = some q ∧ ∃ dep ∈ q.metadata.dependencies, dep.AsksFor name pkg.metadata.provides

theorem mem_dbGetOrphans (hr : RecordsOK db) {name : CStr} {pkg : Package} (hpkg : dbGet db name = some pkg) :
    name ∈ dbGetOrphans db ↔ pkg.installedByHand = false ∧ isNeeded pkg (buildNeededSet (dbList db)) = false := by
  have hname := (dbGet_settled hr hpkg).1
  unfold dbGetOrphans
  rw [List.mem_filterMap]
  constructor
  · rintro ⟨p, hp, h⟩
    obtain ⟨n, hn, hget⟩ := (mem_dbList_iff hr p).1 hp
    rw [hn] at h
    simp only at h
    split at h
    · cases h
    · rename_i hhand
      split at h
      · cases h
      · rename_i hneeded
        cases h
        rw [hpkg] at hget
        cases hget
        exact ⟨by simpa using hhand, by simpa using hneeded⟩
  · rintro ⟨hhand, hneeded⟩
    refine ⟨pkg, (mem_dbList_iff hr pkg).2 ⟨name, hname, hpkg⟩, ?_⟩
    simp [hname, hhand, hneeded]

theorem dependents_ne_nil_iff (hr : RecordsOK db) {name : CStr} {pkg : Package} {dependents : List CStr}
    (hpkg : dbGet db name = some pkg) (hdeps : dbGetDependents db name = some dependents) :
    dependents ≠ [] ↔ AskedForByAnother db name pkg := by
  have hprovides : providesOf db name = pkg.metadata.provides := by simp [providesOf, hpkg]
  constructor
  · intro hne
    obtain ⟨n, hn⟩ := List.exists_mem_of_ne_nil _ hne
    obtain ⟨p, hp, hname, hother, dep, hdep, hasks⟩ := (mem_dbGetDependents hdeps n).1 hn
    obtain ⟨n', hn', hget⟩ := (mem_dbList_iff hr p).1 hp
    rw [hname, Option.some.injEq] at hn'
    subst hn'
    exact ⟨n, p, hother, hget, dep, hdep, by rw [← hprovides]; exact hasks⟩
  · rintro ⟨n, q, hother, hget, dep, hdep, hasks⟩
    have hname := (dbGet_settled hr hget).1
    have hlisted := (mem_dbList_iff hr q).2 ⟨n, hname, hget⟩
    exact List.ne_nil_of_mem ((mem_dbGetDependents hdeps n).2
      ⟨q, hlisted, hname, hother, dep, hdep, by rw [hprovides]; exact hasks⟩)

/-- **When orphans are the packages without dependents**: unless nobody depends on the
package but itself. -/
theorem dbGetOrphans_dependents_iff {P : Package → Prop} (h : Reachable P db) {name : CStr} {pkg : Package}
    (hpkg : dbGet db name = some pkg) :
    ∃ dependents, dbGetDependents db name = some dependents ∧
      ((name ∈ dbGetOrphans db ↔ pkg.installedByHand = false ∧ dependents = []) ↔
        (pkg.installedByHand = true ∨ ¬pkg.AsksForItself name ∨ AskedForByAnother db name pkg)) := by
  have hr := reachable_recordsOK h
  obtain ⟨dependents, hdeps⟩ := dbGetDependents_isSome hr name
  refine ⟨dependents, hdeps, ?_⟩
  have hname := (dbGet_settled hr hpkg).1
  have hasked := dependents_ne_nil_iff hr hpkg hdeps
  -- the package is needed by itself or by another one
  have hneeded : isNeeded pkg (buildNeededSet (dbList db)) = true ↔ pkg.AsksForItself name ∨ AskedForByAnother db name pkg := by
    rw [isNeeded_iff hname]
    constructor
    · rintro ⟨p, hp, dep, hdep, hasks⟩
      obtain ⟨n, hn, hget⟩ := (mem_dbList_iff hr p).1 hp
      by_cases hself : n = name
      · left
        rw [hself, hpkg] at hget
        cases hget
        exact ⟨dep, hdep, hasks⟩
      · exact Or.inr ⟨n, p, hself, hget, dep, hdep, hasks⟩
    · rintro (⟨dep, hdep, hasks⟩ | ⟨n, p, -, hget, dep, hdep, hasks⟩)
      · exact ⟨pkg, (mem_dbList_iff hr pkg).2 ⟨name, hname, hpkg⟩, dep, hdep, hasks⟩
      · exact ⟨p, (mem_dbList_iff hr p).2 ⟨n, (dbGet_settled hr hget).1, hget⟩, dep, hdep, hasks⟩
  rw [mem_dbGetOrphans hr hpkg, ← Bool.not_eq_true (isNeeded pkg _), hneeded, ← hasked]
  cases pkg.installedByHand <;> by_cases hself : pkg.AsksForItself name <;> by_cases hnil : dependents = [] <;>
    simp [hself, hnil]

/-- A package with one dependency. -/
def needing (name dep : String) : Package where
  metadata := { name := some (cstr name), dependencies := [depConstraintParse (some (cstr dep))] }

/-- A package that depends on itself, and a dependent. -/
theorem dbGetOrphans_dependents_pair :
    ∃ db pkg dependents, Reachable (fun _ => True) db ∧ dbGet db (cstr "a") = some pkg ∧
      pkg.AsksForItself (cstr "a") ∧ dbGetDependents db (cstr "a") = some dependents ∧
      (cstr "a" ∈ dbGetOrphans db ↔ pkg.installedByHand = false ∧ dependents = []) := by
  have hrun : ∃ db₁, dbAdd (fun _ => .success) (dbOpen true true) (needing "a" "a") = some (true, db₁) ∧
      ∃ db, dbAdd (fun _ => .success) db₁ (needing "b" "a") = some (true, db) ∧
        ∃ pkg q, dbGet db (cstr "a") = some pkg ∧ dbGet db (cstr "b") = some q ∧
          pkg.metadata = (needing "a" "a").metadata.written ∧ q.metadata = (needing "b" "a").metadata.written :=
    ⟨_, rfl, _, rfl, _, _, rfl, rfl, by decide, by decide⟩
  obtain ⟨db₁, ha, db, hb, pkg, q, hpkg, hq, hmeta, hqmeta⟩ := hrun
  have hreach : Reachable (fun _ => True) db := ((Reachable.new true true).add _ trivial ha).add _ trivial hb
  obtain ⟨dependents, hdeps, hiff⟩ := dbGetOrphans_dependents_iff hreach hpkg
  have hself : pkg.AsksForItself (cstr "a") := by
    unfold Package.AsksForItself DepConstraint.AsksFor
    rw [hmeta]
    decide
  refine ⟨db, pkg, dependents, hreach, hpkg, hself, hdeps, hiff.2 (Or.inr (Or.inr ?_))⟩
  refine ⟨cstr "b", q, by decide, hq, ?_⟩
  unfold DepConstraint.AsksFor
  rw [hmeta, hqmeta]
  decide

/-- A package that depends on itself only. -/
theorem dbGetOrphans_dependents_itself :
    ∃ db pkg, dbAdd (fun _ => .success) (dbOpen true true) (needing "a" "a") = some (true, db) ∧
      dbGet db (cstr "a") = some pkg ∧ pkg.installedByHand = false ∧ dbGetDependents db (cstr "a") = some [] ∧
      cstr "a" ∉ dbGetOrphans db :=
  ⟨_, _, rfl, rfl, rfl, by decide, by decide⟩

/-! ## Statistics -/

/-- The databases of a handle that is open for writing: any sequence of writes of packages
with paths that are neither empty nor hold a newline, and of journal entries. -/
inductive Operated : Db → Prop
  | new (filesOpen fileOwnerOpen : Bool) : Operated (dbOpen filesOpen fileOwnerOpen)
  | add {db db' : Db} {pkg : Package} {ok : Bool} (io : ℕ → Rc) :
      Operated db → (∀ path ∈ pkg.paths, path ≠ [] ∧ .newline ∉ path) → dbAdd io db pkg = some (ok, db') → Operated db'
  | remove {db : Db} (io : Rc) (pkgName : CStr) : Operated db → Operated (dbRemove io db pkgName).2
  | setHold {db db' : Db} {ok : Bool} (io : ℕ → Rc) (pkgName : CStr) (held : Bool) :
      Operated db → dbSetHold io db pkgName held = some (ok, db') → Operated db'
  | setInstalledByHand {db db' : Db} {ok : Bool} (io : ℕ → Rc) (pkgName : CStr) (byHand : Bool) :
      Operated db → dbSetInstalledByHand io db pkgName byHand = some (ok, db') → Operated db'
  | journal {db : Db} (entry : JournalEntry) : Operated db → Operated (journalWrite db entry)
  | suppress {db : Db} (off : Bool) : Operated db → Operated { db with suppressJournal := off }

/-- Every stored list is counted by its newlines. -/
structure CountsOK (db : Db) : Prop where
  records : RecordsOK db
  recorded : FilesRecorded db
  counted : ∀ n data, db.files.get n = some data → data.count .newline = (deserializeFiles data).length

theorem CountsOK.congr {db' : Db} (h : CountsOK db) (hs : SameTables db db') : CountsOK db' := by
  refine ⟨recordsFrom_congr h.records hs, h.recorded.congr hs, ?_⟩
  rw [hs.files]
  exact h.counted

/-- A list is written with one newline for each path. -/
theorem count_serializeFiles {files : List (Option CStr)} (h : ∀ path ∈ files.reduceOption, path ≠ [] ∧ .newline ∉ path) :
    (serializeFiles files).count .newline = (deserializeFiles (serializeFiles files)).length := by
  have hkept : files.reduceOption.filter (· ≠ []) = files.reduceOption :=
    List.filter_eq_self.2 fun path hpath => by simpa using (h path hpath).1
  rw [deserialize_serialize fun path hpath => (h path hpath).2, hkept]
  unfold serializeFiles
  generalize files.reduceOption = paths at h
  induction paths with
  | nil => rfl
  | cons path paths ih =>
    have hcount : path.count .newline = 0 := List.count_eq_zero_of_not_mem (h path List.mem_cons_self).2
    rw [List.flatMap_cons, List.count_append, List.count_append, hcount, ih fun p hp => h p (List.mem_cons_of_mem _ hp),
      List.length_cons]
    have hone : List.count CChar.newline [CChar.newline] = 1 := List.count_singleton_self
    omega

theorem CountsOK.add {db' : Db} {pkg : Package} {io : ℕ → Rc} {ok : Bool} (h : CountsOK db)
    (hpaths : ∀ path ∈ pkg.paths, path ≠ [] ∧ .newline ∉ path) (ha : dbAdd io db pkg = some (ok, db')) : CountsOK db' := by
  obtain ⟨-, name, db₁, hname, htxn, hs⟩ | ⟨-, hs⟩ := dbAdd_cases ha
  · have ht := addTxn_spec htxn
    have hdb₁ : CountsOK db₁ := by
      refine ⟨addTxn_recordsFrom h.records trivial hname ht, h.recorded.add ht, fun n data hdata => ?_⟩
      rw [ht.files] at hdata
      split at hdata
      · rw [Table.get_put] at hdata
        split at hdata
        · cases hdata
          exact count_serializeFiles hpaths
        · exact h.counted n data hdata
      · exact h.counted n data hdata
    exact hdb₁.congr hs
  · exact h.congr hs

theorem CountsOK.remove (h : CountsOK db) (io : Rc) (name : CStr) : CountsOK (dbRemove io db name).2 := by
  obtain ⟨-, db₁, ht, hs⟩ | ⟨-, hs⟩ := dbRemove_cases io db name
  · have hdb₁ : CountsOK db₁ := by
      refine ⟨removeTxn_recordsFrom h.records ht, h.recorded.remove ht, fun n data hdata => ?_⟩
      rw [ht.files] at hdata
      split at hdata
      · rw [Table.get_del] at hdata
        split at hdata
        · cases hdata
        · exact h.counted n data hdata
      · exact h.counted n data hdata
    exact hdb₁.congr hs
  · exact h.congr hs

theorem CountsOK.update {db' : Db} {name : CStr} {io : ℕ → Rc} {change : Package → Package} {ok : Bool}
    (h : CountsOK db) (hu : dbUpdate io db name change = some (ok, db'))
    (hfiles : ∀ p, (change p).packageFiles = p.packageFiles) : CountsOK db' := by
  obtain ⟨p, db₁, db₂, hp, hs₁, hadd, hs₂⟩ | ⟨-, hs⟩ := dbUpdate_cases hu
  · refine ((h.congr hs₁).add (fun path hpath => ?_) hadd).congr hs₂
    -- the list was read from the table
    have hlisted : path ∈ loadPackageFiles db name := by
      simpa [Package.paths, hfiles, dbGet_files h.records hp, List.reduceOption] using hpath
    unfold loadPackageFiles at hlisted
    split at hlisted
    · cases hdata : db.files.get name with
      | none => simp [hdata] at hlisted
      | some data =>
        rw [hdata, Option.map_some, Option.getD_some] at hlisted
        exact ⟨ne_nil_of_mem_fileLines data [] path hlisted, newline_notMem_fileLines data [] (by simp) path hlisted⟩
    · cases hlisted
  · exact h.congr hs

theorem Operated.countsOK (h : Operated db) : CountsOK db := by
  induction h with
  | new f o =>
    exact ⟨fun n j hj => by simp [dbOpen] at hj, fun n hn => by simp [dbOpen] at hn, fun n data hd => by simp [dbOpen] at hd⟩
  | add io _ hp ha ih => exact ih.add hp ha
  | remove io n _ ih => exact ih.remove io n
  | setHold io n held _ hu ih => exact ih.update hu fun _ => rfl
  | setInstalledByHand io n byHand _ hu ih => exact ih.update hu fun _ => rfl
  | journal entry _ ih => exact ih.congr (journalWrite_tables _ entry)
  | suppress off _ ih => exact ih.congr ⟨rfl, rfl, rfl, rfl, rfl, rfl⟩

/-- Sums over two lists of keys, if nothing counts outside the smaller one. -/
theorem sum_keys {l l' : List CStr} (hl : l.Nodup) (hl' : l'.Nodup) (hsub : l' ⊆ l) {f : CStr → ℕ}
    (hzero : ∀ n ∈ l, n ∉ l' → f n = 0) : (l.map f).sum = (l'.map f).sum := by
  rw [← List.sum_toFinset f hl, ← List.sum_toFinset f hl']
  symm
  apply Finset.sum_subset
  · intro n hn
    exact List.mem_toFinset.2 (hsub (List.mem_toFinset.1 hn))
  · intro n hn hn'
    exact hzero n (List.mem_toFinset.1 hn) fun h => hn' (List.mem_toFinset.2 h)

theorem sum_filterMap {α β : Type*} {f : α → Option β} {g : α → ℕ} {len : β → ℕ} : ∀ {l : List α},
    (∀ a ∈ l, ∃ b, f a = some b ∧ len b = g a) →
      (l.filterMap f).length = l.length ∧ ((l.filterMap f).map len).sum = (l.map g).sum := by
  intro l
  induction l with
  | nil => intro _; exact ⟨rfl, rfl⟩
  | cons a l ih =>
    intro h
    obtain ⟨b, hb, hlen⟩ := h a List.mem_cons_self
    obtain ⟨hlength, hsum⟩ := ih fun a ha => h a (List.mem_cons_of_mem _ ha)
    rw [List.filterMap_cons_some hb]
    exact ⟨by simp [hlength], by simp [hsum, hlen]⟩

/-- Every record is listed, with the files stored for it. -/
theorem CountsOK.listed (h : CountsOK db) : (dbList db).length = db.main.entries.length ∧
    ((dbList db).map fun p => p.packageFiles.length).sum =
      (db.main.entries.map fun e => (loadPackageFiles db e.1).length).sum := by
  refine sum_filterMap fun e he => ?_
  obtain ⟨p, hp, -⟩ := readRecord_name h.records ((Table.get_eq_some _).2 he)
  have hget : dbGet db e.1 = some p := by
    unfold dbGet
    rw [(Table.get_eq_some _).2 he]
    exact hp
  exact ⟨p, hp, by rw [dbGet_files h.records hget, List.length_map]⟩

/-- The files are counted right: no list is stored without a record. -/
theorem CountsOK.fileCount (h : CountsOK db) :
    (dbStats db).fileCount = ((dbList db).map fun p => p.packageFiles.length).sum := by
  rw [h.listed.2]
  unfold dbStats
  by_cases hopen : db.filesOpen = true
  · simp only [hopen, if_true]
    -- both are sums of the lengths of the stored lists
    have hleft : (db.files.entries.map fun e => e.2.count .newline).sum =
        ((db.files.entries.map Prod.fst).map fun n => (loadPackageFiles db n).length).sum := by
      rw [List.map_map]
      congr 1
      refine List.map_congr_left fun e he => ?_
      have hdata := (Table.get_eq_some _).2 he
      simp only [Function.comp, loadPackageFiles, hopen, if_true, hdata, Option.map_some, Option.getD_some]
      exact h.counted _ _ hdata
    have hright : (db.main.entries.map fun e => (loadPackageFiles db e.1).length).sum =
        ((db.main.entries.map Prod.fst).map fun n => (loadPackageFiles db n).length).sum := by rw [List.map_map]; rfl
    rw [hleft, hright]
    symm
    refine sum_keys db.main.nodup_keys db.files.nodup_keys ?_ ?_
    · intro n hn
      obtain ⟨e, he, rfl⟩ := List.mem_map.1 hn
      obtain ⟨hmain, -⟩ := h.recorded e.1 (by rw [(Table.get_eq_some _).2 he]; simp)
      obtain ⟨j, hj⟩ := Option.ne_none_iff_exists'.1 hmain
      exact List.mem_map.2 ⟨(e.1, j), (Table.get_eq_some _).1 hj, rfl⟩
    · intro n _ hn
      have hnone : db.files.get n = none := by
        by_contra hsome
        obtain ⟨data, hdata⟩ := Option.ne_none_iff_exists'.1 hsome
        exact hn (List.mem_map.2 ⟨(n, data), (Table.get_eq_some _).1 hdata, rfl⟩)
      simp [loadPackageFiles, hnone]
  · simp [hopen, loadPackageFiles]

/-- **The statistics and the listing**: the files are always counted right, the packages if
there is no named database. -/
theorem dbStats_listing_iff (h : Operated db) :
    ((dbStats db).packageCount = (dbList db).length ∧
        (dbStats db).fileCount = ((dbList db).map fun p => p.packageFiles.length).sum ↔ db.namedDbs = []) ∧
      (dbStats db).fileCount = ((dbList db).map fun p => p.packageFiles.length).sum := by
  have hok := h.countsOK
  refine ⟨?_, hok.fileCount⟩
  -- each named database is a key of the main table
  have hcount : (dbStats db).packageCount = (dbList db).length + db.namedDbs.length := by
    rw [hok.listed.1]
    rfl
  constructor
  · rintro ⟨hpackages, -⟩
    rw [← List.length_eq_zero_iff]
    omega
  · intro hnil
    rw [hnil] at hcount
    exact ⟨hcount, hok.fileCount⟩

theorem dbStats_listing_unnamed :
    ∃ db, dbAdd (fun _ => .success) { dbOpen false false with suppressJournal := true } (bare "p" ["/x"]) = some (true, db) ∧
      (dbStats db).packageCount = (dbList db).length := by
  have hrun : ∃ db, dbAdd (fun _ => .success) { dbOpen false false with suppressJournal := true } (bare "p" ["/x"]) =
      some (true, db) ∧ db.namedDbs = [] := ⟨_, rfl, by decide⟩
  obtain ⟨db, hadd, hnil⟩ := hrun
  have hpaths : ∀ path ∈ (bare "p" ["/x"]).paths, path ≠ [] ∧ .newline ∉ path := by decide
  have hop : Operated db := ((Operated.new false false).suppress true).add _ hpaths hadd
  exact ⟨db, hadd, ((dbStats_listing_iff hop).1.2 hnil).1⟩

/-- A new database has two packages already. -/
theorem dbStats_listing_empty : (dbStats (dbOpen true true)).packageCount = 2 ∧ dbList (dbOpen true true) = [] :=
  ⟨rfl, rfl⟩

end Apg
