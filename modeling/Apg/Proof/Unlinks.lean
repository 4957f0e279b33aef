import Apg.Proof.Guarded
import Apg.Proof.Root

/-!
# Whose files a commit takes away

Of all that takes files away under the root only `remove_dropped_files` asks for the owner.
The rest goes by paths: those of an archive, of a record, of a backup, or of the store of
scripts. A step does no harm if none of its paths leads to a file of another package, by
whatever links there are before it or come in its course.

* `transCommit_takesOwn`: **in a commit whose steps keep off the files of other packages,
  nothing is taken away that another package owns**, whatever is undone.
-/

namespace Apg

open Posix

namespace Root

variable {io : RootIo} {t : ApgTrans} {i : ℕ} {step : TransStep} {p : Ptr} {s s' : State} {n : CStr}

/-! ## Owners -/

/-- A file or a link that `db_owner` gives to another package. -/
def Foreign (dirs : Dirs) (n : CStr) (s : State) (q : List FileName) : Prop :=
  ∃ x m e, dbOwner s.db x = some m ∧ m ≠ n ∧ locate s.fs (filePath dirs x) = some q ∧ s.fs.get q = some e ∧ e.isDir = false

theorem Foreign.entry {dirs : Dirs} {q : List FileName} (h : Foreign dirs n s q) :
    ∃ e, s.fs.get q = some e ∧ e.isDir = false := by
  obtain ⟨x, m, e, -, -, -, he, hkind⟩ := h
  exact ⟨e, he, hkind⟩

/-! ## Keeping off -/

section

variable {v : Visits} {K M : List FileName → Prop} {fs fs' : Host}

/-- The directories that stay: nothing comes to their place or above. -/
def Visits.Steady (v : Visits) (fs : Host) (q : List FileName) : Prop :=
  (∃ m, fs.get q = some (.dir m)) ∧ (∀ path, v.opens path → ∀ r, NamesBy Bytes (MayLink fs v) path r → ¬r <+: q) ∧
    ∀ path, v.fills path → ¬NamesBy Bytes (MayLink fs v) path q

/-- What is at the places of `K` stays as it is in `fs`, and those of `M` have directories. -/
def keepGuard (v : Visits) (K M : List FileName → Prop) (fs : Host) : Guard FileName Bytes CStr where
  links := MayLink fs v
  holds q e := (K q → e = fs.get q) ∧ (M q → ∃ m, e = some (.dir m))

/-- **A step with such visits keeps off the files of `K`.** Where there is to be a directory
such a file may be only if it is a link that goes on leading to one. -/
structure Visits.KeepsOff (v : Visits) (K : List FileName → Prop) (fs : Host) : Prop where
  enters : ∀ path, v.enters path → (∀ f, (keepGuard v K (v.Steady fs) fs).Ok f → ∃ m, stat f path = some (.dir m)) ∨
    ∀ q, NamesBy Bytes (MayLink fs v) path q → ¬K q
  drops : ∀ path, v.drops path → ∀ q, NamesBy Bytes (MayLink fs v) path q → ¬K q
  fills : ∀ path, v.fills path → ∀ q, NamesBy Bytes (MayLink fs v) path q → ¬K q
  opens : ∀ path, v.opens path → ∀ q, NamesBy Bytes (MayLink fs v) path q → ∀ r, q <+: r → ¬K r
  writes : ∀ path, v.writes path → ∀ q, LeadsBy Bytes (MayLink fs v) path q → ¬K q

theorem keepGuard_yields {path : List (Comp FileName)} (h : ∀ q, NamesBy Bytes (MayLink fs v) path q → ¬K q) :
    (keepGuard v K M fs).Yields path := by
  refine fun q hq e hkind hold => ⟨fun hK => absurd hK (h q hq), fun hM => ?_⟩
  obtain ⟨m, hm⟩ := hold.2 hM
  rw [Option.some.inj hm] at hkind
  cases hkind

theorem keepGuard_free {path : List (Comp FileName)} (h : ∀ q, NamesBy Bytes (MayLink fs v) path q → ¬K q)
    (hM : ∀ q, NamesBy Bytes (MayLink fs v) path q → ¬M q) : (keepGuard v K M fs).Free path :=
  fun q hq _ => ⟨fun hK => absurd hK (h q hq), fun hq' => absurd hq' (hM q hq)⟩

theorem keepGuard_open {path : List (Comp FileName)} (h : ∀ q, NamesBy Bytes (MayLink fs v) path q → ∀ r, q <+: r → ¬K r)
    (hM : ∀ q, NamesBy Bytes (MayLink fs v) path q → ∀ r, q <+: r → ¬M r) : (keepGuard v K M fs).Open path :=
  fun q hq r hqr _ => ⟨fun hK => absurd hK (h q hq r hqr), fun hr => absurd hr (hM q hq r hqr)⟩

/-- **Keeping off is allowed**, if no directory is to be cleared. -/
theorem Visits.KeepsOff.allowed (h : v.KeepsOff K fs) (hclears : ∀ path, ¬v.clears path) :
    v.Allowed (keepGuard v K (v.Steady fs) fs) where
  enters path hp := (h.enters path hp).imp_right fun hoff =>
    ⟨fun q hq m => ⟨fun hK => absurd hK (hoff q hq), fun _ => ⟨m, rfl⟩⟩, keepGuard_yields hoff⟩
  drops path hp := keepGuard_yields (h.drops path hp)
  clears path hp := absurd hp (hclears path)
  fills path hp := keepGuard_free (h.fills path hp) fun q hq hM => hM.2.2 path hp hq
  opens path hp := keepGuard_open (h.opens path hp) fun q hq r hqr hM => hM.2.1 path hp q hq hqr
  writes path hp q hq e hway hold c m := by
    refine ⟨fun hK => absurd hK (h.writes path hp q hq), fun hM => ?_⟩
    obtain ⟨m', rfl⟩ := hold.2 hM
    cases hway
  links path t hp q hq := by
    obtain ⟨f, hf, hplace⟩ := hq
    exact .comes hp hf hplace
  moved path path' hp q r hq hr s t hlink := by
    obtain ⟨f, hf, hplace⟩ := hq
    obtain ⟨f', hf', hplace'⟩ := hr
    exact .moves hp hf hplace hf' hplace' hlink

end

/-! ## Installing -/

/-- The scripts of the archive are kept, if it comes to that. -/
def Persists (io : InstallIo) : Prop :=
  ∃ archive, io.archive = some archive ∧ io.preInstall = true ∧ io.postInstall = true ∧
    archive.data ≠ none ∧ archive.scripts ≠ none

/-- The trees an installation copies, each with the path it is copied to: those of the
archive, and the scripts. -/
inductive Copies (dirs : Dirs) (io : InstallIo) (pkgName : CStr) : List (Comp FileName) → Forest → Prop
  | tree {base : List (Comp FileName)} {F : Forest} : Lands dirs io base F → Copies dirs io pkgName base F
  | scripts {archive : Archive} {src : Folder} : Persists io → io.archive = some archive → archive.scripts = some src →
      Copies dirs io pkgName (scriptsStorePath dirs.root pkgName ++ [.name (fileName "scripts")]) src.items

/-- Where an installation comes to: it copies the trees, makes the directories on the way to
the scripts, and if its last script fails takes away what is in the place of pipes, sockets
and devices of the archive. -/
def deliverVisits (dirs : Dirs) (io : InstallIo) (pkgName : CStr) : Visits :=
  { treeVisits (Copies dirs io pkgName) with
    enters := fun path => (treeVisits (Copies dirs io pkgName)).enters path ∨
      Persists io ∧ path <+: scriptsStorePath dirs.root pkgName ∧ path ≠ []
    drops := fun path => io.postInstall = false ∧
      ∃ base F q, Lands dirs io base F ∧ (q, .leaf .special) ∈ F.pieces ∧ path = base ++ names q }

section

variable {g g' : Guard FileName Bytes CStr} {dirs : Dirs} {run : InstallIo} {fs : Host} {pkgName : CStr}

end

/-! ## Steps -/

/-- The files of the version before that `remove_dropped_files` looks at. -/
def Dropped (io : RootIo) (pkg : Package) (db : Db) (path : List (Comp FileName)) : Prop :=
  ∃ name previous, pkg.metadata.name = some name ∧ dbGet db name = some previous ∧ ∃ file ∈ previous.paths,
    previous.metadata.conf.contains (some file) = false ∧ dbOwner db file = some name ∧ path = filePath io.dirs file

/-- Where a step comes to that installs a package: what the installation comes to, and for an
upgrade the dropped files and the configuration files. -/
def bringVisits (io : RootIo) (i : ℕ) (step : TransStep) (p : Ptr) (s : State) : Visits :=
  { deliverVisits io.dirs (io.install i) ((s.mem p).metadata.name.getD []) with
    drops := fun path => (deliverVisits io.dirs (io.install i) ((s.mem p).metadata.name.getD [])).drops path ∨
      step.op = .upgrade ∧ Dropped io (s.mem p) s.db path
    opens := fun path => (deliverVisits io.dirs (io.install i) ((s.mem p).metadata.name.getD [])).opens path ∨
      step.op = .upgrade ∧ ∃ full, confPaths io (s.mem p) full ∧ (path = comps full ∨ path = comps (apgNew full))
    writes := fun path => step.op = .upgrade ∧ ∃ full, confPaths io (s.mem p) full ∧ path = comps full
    moved := fun path path' => step.op = .upgrade ∧
      ∃ full, confPaths io (s.mem p) full ∧ path = comps full ∧ path' = comps (apgNew full) }

/-- Where a removal comes to: the listed files and everything below the scripts. -/
def clearVisits (io : RootIo) (step : TransStep) (s : State) : Visits where
  drops path := (∃ installed, dbGet s.db step.pkgName = some installed ∧ ∃ file ∈ installed.paths, path = filePath io.dirs file) ∨
    ∃ r, path = scriptsStorePath io.dirs.root step.pkgName ++ names r

/-- The scripts of a backup, with the path they are copied to. -/
def Returned (io : RootIo) (u : Undo) (base : List (Comp FileName)) (F : Forest) : Prop :=
  ∃ b p scripts, u.backup = some b ∧ u.step.pkg = some p ∧ b.scripts = some scripts ∧ F = scripts.items ∧
    base = scriptsStorePath io.dirs.root (b.previous.metadata.name.getD [])

/-- A file of a backup, with its path. -/
def Saved (io : RootIo) (u : Undo) (path : List (Comp FileName)) (e : Entry Bytes CStr) : Prop :=
  ∃ b p, u.backup = some b ∧ u.step.pkg = some p ∧ ∃ file ∈ b.previous.paths, lstat b.files (comps file) = some e ∧
    path = filePath io.dirs file

/-- Where the undoing of a step comes to: the files of the new version, and if there is a
backup the files that were saved, the directories on the way to them, and the scripts. -/
def returnVisits (io : RootIo) (u : Undo) (s : State) : Visits where
  enters path := (treeVisits (Returned io u)).enters path ∨ ∃ path' e, Saved io u path' e ∧ path <+: path' ∧ path ≠ path'
  drops path := ∃ p, u.step.pkg = some p ∧ ∃ file ∈ (s.mem p).paths, path = filePath io.dirs file
  fills path := ∃ e, Saved io u path e
  opens path := (treeVisits (Returned io u)).opens path ∨ ∃ b p, u.backup = some b ∧ u.step.pkg = some p ∧
    path = scriptsStorePath io.dirs.root (b.previous.metadata.name.getD [])
  links path t := (treeVisits (Returned io u)).links path t ∨ Saved io u path (.link t)

/-- **A step keeps off the files of other packages**: that of an installation whose signature
is good and, for an upgrade, whose backup is made, and that of a removal whose script passes
and whose record is deleted. -/
structure StepKeepsOff (io : RootIo) (t : ApgTrans) (i : ℕ) (step : TransStep) (s : State) : Prop where
  brings : ∀ p, step.op ≠ .remove → step.pkg = some p → unverified io t i p s = false →
    (step.op = .upgrade → (upgradeBackupCreate io i step.pkgName s).1 = true) →
    (bringVisits io i step p s).KeepsOff (Foreign io.dirs step.pkgName s) s.fs
  removes : step.op = .remove → io.out.preRemove i = true → (dbRemove (io.out.removeIo i) s.db step.pkgName).1 = true →
    (clearVisits io step s).KeepsOff (Foreign io.dirs step.pkgName s) s.fs

section

variable {l : Loop} {r : Outcome}

end

/-! ## Rolling back -/

section

variable {u : Undo}

end

/-! ## Whole runs -/

/-- Every step that the commit comes to, and every undoing, keeps off the files of the other
packages. -/
structure KeepsOff (io : RootIo) (t : ApgTrans) (s : State) : Prop where
  steps : t.dryRun = false → ∀ done step rest l, t.plan = done ++ step :: rest →
    commitLoop io t 0 done (start s) = some (.done l) → StepKeepsOff io t done.length step l.state
  undos : ∀ err l before u after s₁, commitLoop io t 0 t.plan (start s) = some (.failed err l) →
    l.committed = before ++ u :: after → rollbackCommitted io l.state after = some s₁ →
    (returnVisits io u s₁).KeepsOff (Foreign io.dirs u.step.pkgName s₁) s₁.fs

end Root

end Apg
