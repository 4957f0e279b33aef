import Apg.Lib.Guard
import Apg.Proof.Rollback
import Apg.Spec.Root

/-!
# What a step may do to the files

Copying a tree, taking it back, unlinking listed files, restoring them and saving
configuration files, each along the paths it is given: if these lead to no place where
the call could do harm, what a guard says of the file system stays true.

* `copyDir_ok`, `removeMirrored_ok`: an archive's directory, copied and taken back.
* `unlinkFiles_ok`, `restoreFiles_ok`, `restoreConfs_ok`: the files of a list.
-/

namespace Apg

open Posix

variable {g : Guard FileName Bytes CStr} {fs fs' : Host} {path : List (Comp FileName)} {base : List (Comp FileName)}

theorem ok_getD {call : Option Host} (h : g.Ok fs) (hcall : ∀ fs', call = some fs' → g.Ok fs') : g.Ok (call.getD fs) := by
  cases hc : call with
  | none => exact h
  | some fs' => exact hcall fs' hc

/-! ## Copying -/

/-- The entry may be copied to the path. -/
def Takes (g : Guard FileName Bytes CStr) (path : List (Comp FileName)) : Piece → Prop
  | .dir _ => g.Bears path
  | .leaf (.file _ _) => g.Open path
  | .leaf (.link t) => g.Open path ∧ ∀ q, g.Names path q → g.links q t
  | .leaf .special => True

theorem makeRoom_ok (h : g.Ok fs) (hpath : g.Open path) : g.Ok (makeRoom fs path) := by
  unfold makeRoom
  split
  · exact h
  · exact h.removeTree hpath
  · exact h.unlink hpath.free.yields

/-- What made room is no link. -/
theorem makeRoom_free {q : List FileName} (hq : locate (makeRoom fs path) path = some q) (t : CStr) :
    (makeRoom fs path).get q ≠ some (.link t) := by
  unfold makeRoom at hq ⊢
  cases hstat : lstat fs path with
  | none =>
    simp only [hstat] at hq ⊢
    intro ht
    unfold lstat at hstat
    rw [hq, Option.bind_some, entryAt_of_ne fs, ht] at hstat
    · cases hstat
    · rintro rfl
      rw [Fs.get_top] at ht
      cases ht
  | some e =>
    cases e with
    | dir m =>
      simp only [hstat, removeTree] at hq ⊢
      obtain ⟨r, hr, -⟩ := Option.bind_eq_some_iff.1 hstat
      rw [hr, Option.map_some, Option.getD_some] at hq ⊢
      rw [locate_of_less (Less.erase fs r) hq, Option.some.injEq] at hr
      rw [hr, Fs.get_erase, if_pos (List.prefix_refl _)]
      simp
    | file c m => simp only [hstat] at hq ⊢; exact unlink_free hq t
    | link u => simp only [hstat] at hq ⊢; exact unlink_free hq t
    | special => simp only [hstat] at hq ⊢; exact unlink_free hq t

/-- A file is copied to a path that has no link at its end. -/
theorem copyFile_ok (io : CopyIo) (fault : Fault) (content : Bytes) (mode : ℕ) (h : g.Ok fs) (hpath : g.Free path)
    (hlink : ∀ q, locate fs path = some q → ∀ t, fs.get q ≠ some (.link t)) :
    g.Ok (copyFile io fault content mode path fs).2 := by
  unfold copyFile
  split
  · exact h
  split
  · exact ok_getD h fun _ hw => h.writeFile_here hpath hlink hw
  · cases hw : writeFile fs path content io.fileMode with
    | none => exact h
    | some fs₁ =>
      have h₁ := h.writeFile_here hpath hlink hw
      simp only
      split
      · exact h₁
      -- the mode is set where the file was written
      have hplace : ∀ q, reach fs₁ path = some q → ∀ v, g.holds q v := by
        intro q hq
        obtain ⟨r, m, hr, hne, hway, -⟩ := writeFile_cases hw
        have hdir : fs.isDirAt r = false := Fs.isDirAt_eq_false hne fun m hm => by
          rw [hm] at hway
          cases hway
        rw [← (writeFile_sameWays hw).reach path, hr, Option.some.injEq] at hq
        rw [← hq]
        exact hpath r (h.names (locate_of_reach hr hdir hlink))
      exact ok_getD h₁ fun _ hc => h₁.chmod (fun q _ hq _ => hplace q hq _) (fun q _ _ hq _ => hplace q hq _) hc

theorem copyLeaf_ok (io : CopyIo) (leaf : Leaf) {s : CopyState} (h : g.Ok s.fs) (hpath : Takes g path (.leaf leaf)) :
    g.Ok (copyLeaf io leaf path s).2.fs := by
  unfold copyLeaf
  simp only
  split
  · exact h
  cases leaf with
  | file content mode => exact copyFile_ok io _ content mode (makeRoom_ok h hpath) hpath.free fun _ hq => makeRoom_free hq
  | special => exact h
  | link t =>
    have hroom := makeRoom_ok h hpath.1
    simp only
    split
    · exact hroom
    · rename_i fs₁ hs
      split at hs
      · cases hs
      · exact hroom.symlink hpath.1.free hpath.2 hs

theorem makeDst_ok (io : CopyIo) (mode : ℕ) {s : CopyState} (h : g.Ok s.fs)
    (hpath : (stat s.fs path).isSome = true ∨ g.Hosts path) : g.Ok (makeDst io mode path s).2.fs := by
  unfold makeDst
  simp only
  split
  · exact h
  split
  · exact h
  rename_i hstat
  have hhosts := hpath.resolve_left hstat
  cases hm : mkdir s.fs path io.dirMode with
  | none => exact h
  | some fs₁ =>
    have h₁ := h.mkdir hhosts hm
    have hplace : ∀ q, reach fs₁ path = some q → g.Names path q := fun q hq =>
      h.names (reach_of_create hm (by simp) hq)
    simp only
    split
    · exact h₁
    · cases hc : chmod fs₁ path mode with
      | none => exact h₁
      | some fs₂ =>
        refine h₁.chmod (fun q m hq _ => hhosts q (hplace q hq) mode) (fun q c m hq hfile => ?_) hc
        -- what has been made is a directory
        exact absurd hfile (mkdir_not_file hm hq)

theorem enterDir_ok (io : CopyIo) (mode : ℕ) {s : CopyState} (h : g.Ok s.fs) (hpath : g.Bears path) :
    g.Ok (enterDir io mode path s).2.fs := by
  unfold enterDir
  split
  · exact h
  rcases hpath with hdir | ⟨hhosts, hyields⟩
  · obtain ⟨m, hm⟩ := hdir s.fs h
    simp only [hm]
    exact makeDst_ok io mode h (Or.inl (by simp [hm]))
  · refine makeDst_ok io mode ?_ (Or.inr hhosts)
    dsimp only
    split
    · exact h
    · exact h.unlink hyields

/-- **A tree is copied**, as far as it goes. -/
theorem copyItems_ok (io : CopyIo) : ∀ (F : Forest) (base : List (Comp FileName)) (s : CopyState), g.Ok s.fs →
    (∀ y ∈ F.pieces, Takes g (base ++ names y.1) y.2) → g.Ok (copyItems io F base s).2.fs := by
  intro F
  induction F with
  | nil => intro base s h _; exact h
  | dir name mode items rest ihi ihr =>
    intro base s h htakes
    have hhere : g.Bears (base ++ [.name name]) :=
      htakes ([name], .dir mode) (by simp [Forest.pieces])
    have hitems : ∀ y ∈ items.pieces, Takes g (base ++ [.name name] ++ names y.1) y.2 := by
      rintro ⟨q, piece⟩ hy
      have hbelow := htakes (name :: q, piece) (by
        simp only [Forest.pieces, List.cons_append, List.mem_cons, List.mem_append, List.mem_map]
        exact Or.inr (Or.inl ⟨_, hy, rfl⟩))
      rw [List.append_assoc]
      exact hbelow
    have hrest : ∀ y ∈ rest.pieces, Takes g (base ++ names y.1) y.2 := fun y hy =>
      htakes y (by simp [Forest.pieces, hy])
    have hin := enterDir_ok io mode h hhere
    rw [copyItems]
    generalize enterDir io mode (base ++ [.name name]) s = r at hin
    obtain ⟨ok, s₁⟩ := r
    cases ok with
    | false => exact hin
    | true =>
      simp only
      have hbelow := ihi (base ++ [.name name]) s₁ hin hitems
      generalize copyItems io items (base ++ [.name name]) s₁ = r at hbelow
      obtain ⟨ok, s₂⟩ := r
      cases ok with
      | false => exact hbelow
      | true => exact ihr base s₂ hbelow hrest
  | leaf name leaf rest ihr =>
    intro base s h htakes
    have hleaf := copyLeaf_ok io leaf h (htakes ([name], .leaf leaf) (by simp [Forest.pieces]))
    have hrest : ∀ y ∈ rest.pieces, Takes g (base ++ names y.1) y.2 := fun y hy =>
      htakes y (by simp [Forest.pieces, hy])
    have hpath : base ++ names [name] = base ++ [.name name] := rfl
    rw [hpath] at hleaf
    rw [copyItems]
    generalize copyLeaf io leaf (base ++ [.name name]) s = r at hleaf
    obtain ⟨ok, s₁⟩ := r
    cases ok with
    | false => exact hleaf
    | true => exact ihr base s₁ hleaf hrest

theorem Posix.Guard.Bears.stat_or_hosts (h : g.Bears path) (hfs : g.Ok fs) : (stat fs path).isSome = true ∨ g.Hosts path := by
  rcases h with hdir | ⟨hhosts, -⟩
  · obtain ⟨m, hm⟩ := hdir fs hfs
    exact Or.inl (by simp [hm])
  · exact Or.inr hhosts

theorem copyDir_ok (io : CopyIo) (src : Folder) (h : g.Ok fs) (hbase : g.Bears base)
    (htakes : ∀ y ∈ src.items.pieces, Takes g (base ++ names y.1) y.2) : g.Ok (copyDir io src base fs).2 := by
  have hmade : g.Ok (makeDst io src.mode base ⟨0, fs⟩).2.fs := makeDst_ok io src.mode h (hbase.stat_or_hosts h)
  unfold copyDir
  generalize makeDst io src.mode base ⟨0, fs⟩ = r at hmade
  obtain ⟨ok, s⟩ := r
  cases ok with
  | false => exact hmade
  | true => exact copyItems_ok io src.items base s hmade htakes

/-! ## Taking back -/

/-- The entry may be taken away from the path. -/
def Returns (g : Guard FileName Bytes CStr) (path : List (Comp FileName)) : Piece → Prop
  | .dir _ => g.Empties path
  | .leaf _ => g.Yields path

theorem removeItems_ok : ∀ (F : Forest) (base : List (Comp FileName)) (fs : Host), g.Ok fs →
    (∀ y ∈ F.pieces, Returns g (base ++ names y.1) y.2) → g.Ok (removeItems F base fs) := by
  intro F
  induction F with
  | nil => intro base fs h _; exact h
  | dir name mode items rest ihi ihr =>
    intro base fs h hreturns
    have hhere : g.Empties (base ++ [.name name]) := hreturns ([name], .dir mode) (by simp [Forest.pieces])
    have hitems : ∀ y ∈ items.pieces, Returns g (base ++ [.name name] ++ names y.1) y.2 := by
      rintro ⟨q, piece⟩ hy
      have hbelow := hreturns (name :: q, piece) (by
        simp only [Forest.pieces, List.cons_append, List.mem_cons, List.mem_append, List.mem_map]
        exact Or.inr (Or.inl ⟨_, hy, rfl⟩))
      rw [List.append_assoc]
      exact hbelow
    exact ihr base _ ((ihi _ fs h hitems).rmdir hhere) fun y hy => hreturns y (by simp [Forest.pieces, hy])
  | leaf name leaf rest ihr =>
    intro base fs h hreturns
    have hhere : g.Yields (base ++ [.name name]) := hreturns ([name], .leaf leaf) (by simp [Forest.pieces])
    exact ihr base _ (h.unlink hhere) fun y hy => hreturns y (by simp [Forest.pieces, hy])

theorem removeMirrored_ok (src : Folder) (h : g.Ok fs) (hbase : g.Empties base)
    (hreturns : ∀ y ∈ src.items.pieces, Returns g (base ++ names y.1) y.2) : g.Ok (removeMirrored src base fs) :=
  (removeItems_ok src.items base fs h hreturns).rmdir hbase

/-! ## Installing -/

/-- **What an installation comes to**: nothing is copied, the copy is refused, the script after
it fails, or all goes well. -/
theorem installInRoot_cases (dirs : Dirs) (io : InstallIo) (pkgName : CStr) (fs : Host) :
    ((installInRoot dirs io pkgName fs).ok = false ∧ (installInRoot dirs io pkgName fs).fs = fs) ∨
      ∃ archive data, io.archive = some archive ∧ archive.data = some data ∧ io.preInstall = true ∧
        (((installInRoot dirs io pkgName fs).ok = false ∧
            (installInRoot dirs io pkgName fs).fs = (copyDir io.data data (comps dirs.root) fs).2) ∨
          (io.postInstall = false ∧ (installInRoot dirs io pkgName fs).ok = false ∧
            (installInRoot dirs io pkgName fs).fs =
              rollbackInstall dirs archive (installHomeDir io.home dirs archive (copyDir io.data data (comps dirs.root) fs).2)) ∨
          io.postInstall = true ∧ (installInRoot dirs io pkgName fs).ok = true ∧
            (installInRoot dirs io pkgName fs).fs = scriptsPersist io.scripts archive dirs.root pkgName
              (installHomeDir io.home dirs archive (copyDir io.data data (comps dirs.root) fs).2)) := by
  unfold installInRoot
  cases harchive : io.archive with
  | none => exact Or.inl ⟨rfl, rfl⟩
  | some archive =>
    cases hpre : io.preInstall with
    | false => exact Or.inl ⟨by simp, by simp⟩
    | true =>
      cases hdata : archive.data with
      | none => exact Or.inl ⟨by simp [hdata], by simp [hdata]⟩
      | some data =>
        refine Or.inr ⟨archive, data, rfl, hdata, rfl, ?_⟩
        simp only [hdata, Bool.not_true, Bool.false_eq_true, if_false]
        generalize copyDir io.data data (comps dirs.root) fs = r
        obtain ⟨ok, fs₁⟩ := r
        cases ok with
        | false => exact Or.inl ⟨by simp, by simp⟩
        | true =>
          cases hpost : io.postInstall with
          | false => exact Or.inr (Or.inl ⟨rfl, by simp, by simp⟩)
          | true => exact Or.inr (Or.inr ⟨rfl, by simp, by simp⟩)

theorem installHomeDir_ok {dirs : Dirs} {archive : Archive} (io : CopyIo) (h : g.Ok fs)
    (hhome : ∀ home src, dirs.home = some home → archive.home = some src →
      g.Bears (comps home) ∧ ∀ y ∈ src.items.pieces, Takes g (comps home ++ names y.1) y.2) :
    g.Ok (installHomeDir io dirs archive fs) := by
  unfold installHomeDir
  split
  · rename_i home src hd ha
    obtain ⟨hbase, htakes⟩ := hhome home src hd ha
    exact copyDir_ok io src h hbase htakes
  · exact h

theorem rollbackInstall_ok {dirs : Dirs} {archive : Archive} (h : g.Ok fs)
    (hdata : ∀ data, archive.data = some data → ∀ y ∈ data.items.pieces, Returns g (comps dirs.root ++ names y.1) y.2)
    (hhome : ∀ home src, dirs.home = some home → archive.home = some src →
      g.Empties (comps home) ∧ ∀ y ∈ src.items.pieces, Returns g (comps home ++ names y.1) y.2) :
    g.Ok (rollbackInstall dirs archive fs) := by
  unfold rollbackInstall
  have hback : ∀ data, archive.data = some data → g.Ok (removeItems data.items (comps dirs.root) fs) :=
    fun data hd => removeItems_ok data.items _ fs h (hdata data hd)
  simp only
  split
  · rename_i home src hd ha
    obtain ⟨hbase, hreturns⟩ := hhome home src hd ha
    refine removeMirrored_ok src ?_ hbase hreturns
    split
    · exact h
    · rename_i data hdata'
      exact hback data hdata'
  · split
    · exact h
    · rename_i data hdata'
      exact hback data hdata'

namespace Root

/-! ## Files of a list -/

theorem unlinkFiles_ok (dirs : Dirs) : ∀ (paths : List CStr) {fs : Host}, g.Ok fs →
    (∀ x ∈ paths, g.Yields (filePath dirs x)) → g.Ok (unlinkFiles dirs paths fs) := by
  intro paths
  induction paths with
  | nil => intro fs h _; exact h
  | cons x paths ih =>
    intro fs h hyields
    exact ih (h.unlink (hyields x List.mem_cons_self)) fun y hy => hyields y (List.mem_cons_of_mem _ hy)

/-- Nothing comes when files are unlinked. -/
theorem unlinkFiles_less (dirs : Dirs) : ∀ (paths : List CStr) (fs : Host), Less (unlinkFiles dirs paths fs) fs := by
  intro paths
  induction paths with
  | nil => exact fun fs => Less.refl fs
  | cons x paths ih => exact fun fs => (ih _).trans (unlink_less fs (filePath dirs x))

theorem makeDirs_ok : ∀ (paths : List (List (Comp FileName))) {fs : Host}, g.Ok fs → (∀ p ∈ paths, g.Bears p) →
    g.Ok (makeDirs paths fs).2 := by
  intro paths
  induction paths with
  | nil => intro fs h _; exact h
  | cons p paths ih =>
    intro fs h hbears
    have hrest : ∀ p ∈ paths, g.Bears p := fun p hp => hbears p (List.mem_cons_of_mem _ hp)
    rw [makeDirs]
    split
    · exact ih h hrest
    rename_i hnone
    cases hm : mkdir fs p 0o755 with
    | none => exact h
    | some fs₁ =>
      rcases hbears p List.mem_cons_self with hdir | ⟨hhosts, -⟩
      · obtain ⟨m, hstat⟩ := hdir fs h
        exact absurd (Option.isSome_iff_ne_none.2 (lstat_of_stat_dir hstat)) hnone
      · exact ih (h.mkdir hhosts hm) hrest

/-- An entry is copied to the path: its directories are made, and what is there gives way. -/
theorem copyEntry_ok (io : CopyIo) (fault : Fault) (src : Host) (from' : List (Comp FileName)) (h : g.Ok fs)
    (hpath : lstat src from' ≠ none → g.Free path)
    (hdirs : lstat src from' ≠ none → ∀ p, p <+: path → p ≠ path → g.Bears p)
    (hlink : ∀ t, lstat src from' = some (.link t) → ∀ q, g.Names path q → g.links q t) :
    g.Ok (copyEntry io fault src from' fs path).2 := by
  unfold copyEntry
  split
  · exact h
  rename_i e he
  have hthere : lstat src from' ≠ none := by simp [he]
  have hmade : g.Ok (makeParentDirs path fs).2 := by
    refine makeDirs_ok _ h fun p hp => ?_
    have hpre : p <+: path.dropLast := (List.mem_inits p _).1 (List.mem_of_mem_tail hp)
    refine hdirs hthere p (hpre.trans (List.dropLast_prefix path)) ?_
    rintro rfl
    by_cases hnil : p = []
    · rw [hnil] at hp
      cases hp
    · exact not_prefix_dropLast hnil hpre
  generalize makeParentDirs path fs = r at hmade
  obtain ⟨ok, fs₁⟩ := r
  cases ok with
  | false => exact hmade
  | true =>
    have hroom := hmade.unlink (hpath hthere).yields
    simp only
    cases e with
    | dir m => exact hroom
    | special => exact hroom
    | link t =>
      simp only
      split
      · exact hroom
      · rename_i fs₂ hs
        split at hs
        · exact hroom.symlink (hpath hthere) (hlink t he) hs
        · cases hs
    | file c m =>
      simp only
      split
      · exact hroom
      · exact copyFile_ok io fault c m hroom (hpath hthere) fun _ hq => unlink_free hq

theorem restoreFiles_ok (io : CopyIo) (dirs : Dirs) (bk : Host) : ∀ (paths : List CStr) (k : ℕ) {fs : Host}, g.Ok fs →
    (∀ x ∈ paths, lstat bk (comps x) ≠ none → g.Free (filePath dirs x)) →
    (∀ x ∈ paths, lstat bk (comps x) ≠ none → ∀ p, p <+: filePath dirs x → p ≠ filePath dirs x → g.Bears p) →
    (∀ x ∈ paths, ∀ t, lstat bk (comps x) = some (.link t) → ∀ q, g.Names (filePath dirs x) q → g.links q t) →
    g.Ok (restoreFiles io dirs bk k paths fs) := by
  intro paths
  induction paths with
  | nil => intro k fs h _ _ _; exact h
  | cons x paths ih =>
    intro k fs h hopen hdirs hlink
    rw [restoreFiles]
    refine ih (k + 1) (copyEntry_ok io _ bk (comps x) h (hopen x List.mem_cons_self) (hdirs x List.mem_cons_self)
      (hlink x List.mem_cons_self)) ?_ ?_ ?_
    · exact fun y hy => hopen y (List.mem_cons_of_mem _ hy)
    · exact fun y hy => hdirs y (List.mem_cons_of_mem _ hy)
    · exact fun y hy => hlink y (List.mem_cons_of_mem _ hy)

/-! ## Scripts -/

/-- A configuration file may be moved aside and written. -/
structure ConfOk (g : Guard FileName Bytes CStr) (path : CStr) : Prop where
  here : g.Open (comps path)
  aside : g.Open (comps (apgNew path))
  written : g.Writes (comps path)
  moved : ∀ q r, g.Names (comps path) q → g.Names (comps (apgNew path)) r → ∀ s t, g.links (q ++ s) t → g.links (r ++ s) t

theorem restoreConf_ok (io : ConfIo) (k : ℕ) (c : ConfBackup) (h : g.Ok fs) (hc : ConfOk g c.path) :
    g.Ok (restoreConf io k c fs) := by
  have hmoved : g.Ok ((if io.rename k then rename fs (comps c.path) (comps (apgNew c.path)) else none).getD fs) := by
    refine ok_getD h fun fs' hr => ?_
    split at hr
    · exact h.rename hc.here hc.aside hc.moved hr
    · cases hr
  unfold restoreConf
  refine ok_getD hmoved fun fs' hw => ?_
  split at hw
  · exact hmoved.writeFile hc.written hw
  · cases hw

/-- The paths of the configuration files that are saved and put back. -/
def confPaths (io : RootIo) (pkg : Package) (full : CStr) : Prop :=
  ∃ entry, some entry ∈ pkg.metadata.conf ∧ resolveConfPath io.dirs entry = some full

theorem confPaths_of_saved {io : RootIo} {conf : ConfIo} {pkg : Package} {c : ConfBackup}
    (h : c ∈ saveConfs conf io.dirs fs pkg) : confPaths io pkg c.path := by
  obtain ⟨⟨entry, k⟩, hmem, hsaved⟩ := List.mem_filterMap.1 h
  unfold saveConf at hsaved
  obtain ⟨entry', hentry, hsaved⟩ := Option.bind_eq_some_iff.1 hsaved
  obtain ⟨full, hfull, hsaved⟩ := Option.bind_eq_some_iff.1 hsaved
  obtain ⟨data, -, rfl⟩ := Option.map_eq_some_iff.1 hsaved
  exact ⟨entry', by rw [← hentry]; exact List.fst_mem_of_mem_zipIdx hmem, hfull⟩

theorem restoreConfs_ok (io : ConfIo) (bk : List ConfBackup) (h : g.Ok fs) (hc : ∀ c ∈ bk, ConfOk g c.path) :
    g.Ok (restoreConfs io bk fs) := by
  unfold restoreConfs
  have hall : ∀ x ∈ bk.zipIdx, ConfOk g x.1.path := fun x hx => hc x.1 (List.fst_mem_of_mem_zipIdx hx)
  generalize bk.zipIdx = xs at hall
  induction xs generalizing fs with
  | nil => exact h
  | cons x xs ih =>
    exact ih (restoreConf_ok io x.2 x.1 h (hall x List.mem_cons_self)) fun y hy => hall y (List.mem_cons_of_mem _ hy)

/-- An upgrade puts the configuration files back, and takes the dropped files away. -/
theorem upgradeFiles_ok {io : RootIo} {i : ℕ} {pkg old : Package} {s : State} {fs₀ : Host} (h : g.Ok s.fs)
    (hconf : ∀ full, confPaths io old full → ConfOk g full)
    (hdropped : ∀ name previous file, pkg.metadata.name = some name → dbGet s.db name = some previous →
      file ∈ previous.paths → previous.metadata.conf.contains (some file) = false → dbOwner s.db file = some name →
      g.Yields (filePath io.dirs file)) :
    g.Ok (removeDroppedFiles io.dirs pkg
      { s with fs := restoreConfs (io.conf i) (saveConfs (io.conf i) io.dirs fs₀ old) s.fs }).fs := by
  have hconfs : g.Ok (restoreConfs (io.conf i) (saveConfs (io.conf i) io.dirs fs₀ old) s.fs) :=
    restoreConfs_ok _ _ h fun c hc => hconf _ (confPaths_of_saved hc)
  unfold removeDroppedFiles
  cases hname : pkg.metadata.name with
  | none => exact hconfs
  | some name =>
    simp only
    cases hget : dbGet s.db name with
    | none => exact hconfs
    | some previous =>
      refine unlinkFiles_ok io.dirs _ hconfs fun file hfile => ?_
      obtain ⟨hmem, hcond⟩ := List.mem_filter.1 hfile
      simp only [Bool.and_eq_true, Bool.not_eq_true', decide_eq_true_eq] at hcond
      exact hdropped name previous file hname hget hmem hcond.1.2 hcond.2

/-! ## Where a step comes to -/

/-- The paths a step comes to. There are to be directories at those of `enters`; a file or a
link is taken away from those of `drops`, and from those of `clears` a directory, if nothing
is in it; anything comes to those of `fills`, to those of `opens` also in the place of a
directory and all below it, and a file is written where those of `writes` lead. The links it
makes are at the paths of `links`, or at the places of `placed`, and what is at one path of
`moved` is moved to the other. -/
structure Visits where
  enters : List (Comp FileName) → Prop := fun _ => False
  drops : List (Comp FileName) → Prop := fun _ => False
  clears : List (Comp FileName) → Prop := fun _ => False
  fills : List (Comp FileName) → Prop := fun _ => False
  opens : List (Comp FileName) → Prop := fun _ => False
  writes : List (Comp FileName) → Prop := fun _ => False
  links : List (Comp FileName) → CStr → Prop := fun _ _ => False
  placed : List FileName → CStr → Prop := fun _ _ => False
  moved : List (Comp FileName) → List (Comp FileName) → Prop := fun _ _ => False

/-- The links there may be in the course of a step: those there are, and those it makes,
wherever the links there may be already let their paths lead. -/
inductive MayLink (fs : Host) (v : Visits) : List FileName → CStr → Prop
  | here {q : List FileName} {t : CStr} : fs.get q = some (.link t) → MayLink fs v q t
  | placed {q : List FileName} {t : CStr} : v.placed q t → MayLink fs v q t
  | comes {path : List (Comp FileName)} {q : List FileName} {t : CStr} {f : Host} : v.links path t →
      (∀ r u, f.get r = some (.link u) → MayLink fs v r u) → locate f path = some q → MayLink fs v q t
  | moves {path path' : List (Comp FileName)} {q r s : List FileName} {t : CStr} {f f' : Host} : v.moved path path' →
      (∀ p u, f.get p = some (.link u) → MayLink fs v p u) → locate f path = some q →
      (∀ p u, f'.get p = some (.link u) → MayLink fs v p u) → locate f' path' = some r →
      MayLink fs v (q ++ s) t → MayLink fs v (r ++ s) t

/-- A guard under which a step with such visits may be taken. -/
structure Visits.Allowed (v : Visits) (g : Guard FileName Bytes CStr) : Prop where
  enters : ∀ path, v.enters path → g.Bears path
  drops : ∀ path, v.drops path → g.Yields path
  clears : ∀ path, v.clears path → g.Empties path
  fills : ∀ path, v.fills path → g.Free path
  opens : ∀ path, v.opens path → g.Open path
  writes : ∀ path, v.writes path → g.Writes path
  links : ∀ path t, v.links path t → ∀ q, g.Names path q → g.links q t
  moved : ∀ path path', v.moved path path' → ∀ q r, g.Names path q → g.Names path' r →
    ∀ s t, g.links (q ++ s) t → g.links (r ++ s) t

section

variable {v : Visits} {links : List FileName → CStr → Prop}

end

/-- The trees of an archive that are copied, each with the path it is copied to. -/
inductive Lands (dirs : Dirs) (io : InstallIo) : List (Comp FileName) → Forest → Prop
  | data {archive : Archive} {data : Folder} : io.archive = some archive → io.preInstall = true →
      archive.data = some data → Lands dirs io (comps dirs.root) data.items
  | home {archive : Archive} {data src : Folder} {home : CStr} : io.archive = some archive → io.preInstall = true →
      archive.data = some data → dirs.home = some home → archive.home = some src → Lands dirs io (comps home) src.items

/-- Where copies of the trees come to: their directories are entered, their files and links
come to their paths. -/
def treeVisits (L : List (Comp FileName) → Forest → Prop) : Visits where
  enters path := ∃ base F, L base F ∧ (path = base ∨ ∃ y ∈ F.pieces, y.2.isDir = true ∧ path = base ++ names y.1)
  opens path := ∃ base F q leaf, L base F ∧ (q, .leaf leaf) ∈ F.pieces ∧ leaf ≠ .special ∧ path = base ++ names q
  links path t := ∃ base F q, L base F ∧ (q, .leaf (.link t)) ∈ F.pieces ∧ path = base ++ names q

theorem treeVisits_takes {L : List (Comp FileName) → Forest → Prop} {F : Forest} (h : (treeVisits L).Allowed g) (hl : L base F) :
    g.Bears base ∧ ∀ y ∈ F.pieces, Takes g (base ++ names y.1) y.2 := by
  refine ⟨h.enters _ ⟨_, _, hl, Or.inl rfl⟩, ?_⟩
  rintro ⟨q, piece⟩ hy
  cases piece with
  | dir m => exact h.enters _ ⟨base, F, hl, Or.inr ⟨_, hy, rfl, rfl⟩⟩
  | leaf l =>
    cases l with
    | file c m => exact h.opens _ ⟨base, F, q, _, hl, hy, by simp, rfl⟩
    | special => trivial
    | link t => exact ⟨h.opens _ ⟨base, F, q, _, hl, hy, by simp, rfl⟩, h.links _ t ⟨base, F, q, hl, hy, rfl⟩⟩

section

variable {dirs : Dirs} {io : InstallIo} {archive : Archive}

/-- The trees of an archive are copied. -/
theorem landed_ok {data : Folder} (harchive : io.archive = some archive) (hpre : io.preInstall = true)
    (hdata : archive.data = some data) (h : g.Ok fs)
    (htakes : ∀ base F, Lands dirs io base F → g.Bears base ∧ ∀ y ∈ F.pieces, Takes g (base ++ names y.1) y.2) :
    g.Ok (copyDir io.data data (comps dirs.root) fs).2 ∧
      g.Ok (installHomeDir io.home dirs archive (copyDir io.data data (comps dirs.root) fs).2) := by
  obtain ⟨hbase, hpieces⟩ := htakes _ _ (.data harchive hpre hdata)
  have hcopied := copyDir_ok io.data data h hbase hpieces
  exact ⟨hcopied, installHomeDir_ok io.home hcopied fun home src hd ha => htakes _ _ (.home harchive hpre hdata hd ha)⟩

/-- They are taken back. -/
theorem lifted_ok {data : Folder} (harchive : io.archive = some archive) (hpre : io.preInstall = true)
    (hdata : archive.data = some data) (h : g.Ok fs)
    (hreturns : ∀ base F, Lands dirs io base F → g.Empties base ∧ ∀ y ∈ F.pieces, Returns g (base ++ names y.1) y.2) :
    g.Ok (rollbackInstall dirs archive fs) :=
  rollbackInstall_ok h (fun _ hd => (hreturns _ _ (.data harchive hpre hd)).2)
    fun _ _ hd ha => hreturns _ _ (.home harchive hpre hdata hd ha)

end

end Root

end Apg
