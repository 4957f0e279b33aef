import Apg.Proof.Store
import Apg.Proof.Flags
import Apg.Proof.Root

/-!
# The scripts of what is installed

The store of scripts is written by an installation before the record is, is cleared by a
removal after it, and is put back by the rollback of an upgrade; nothing else comes to it.
`Persisted` says that it agrees with the records, and is carried through the steps of a
commit and through the rollback; between a record that could not be written and its
undoing it says so of all packages but one.

* `transCommit_storedScripts`: **the store holds what the recorded versions ship.**
-/

namespace Apg

open Posix

/-! ## Records -/

section

variable {db db' : Db} {n : CStr}

theorem SameTables.recorded_eq (hs : SameTables db db') (n : CStr) : recorded db' n = recorded db n := by
  unfold recorded
  rw [dbGet_sameTables hs]

/-- What `db_add` leaves in the records. -/
theorem dbAdd_recorded {io : ℕ → Rc} {pkg : Package} {ok : Bool} (hr : RecordsOK db)
    (h : dbAdd io db pkg = some (ok, db')) (hname : pkg.metadata.name = some n) (hparsed : pkg.metadata.Parsed) :
    (∀ m, m ≠ n → recorded db' m = recorded db m) ∧
      recorded db' n = if ok = true then some pkg.metadata.written else recorded db n := by
  obtain ⟨rfl, name, db₁, hname', htxn, hs⟩ | ⟨rfl, hs⟩ := dbAdd_cases h
  · rw [hname, Option.some.injEq] at hname'
    subst hname'
    have ht := addTxn_spec htxn
    refine ⟨fun m hm => ?_, ?_⟩
    · rw [hs.recorded_eq]
      unfold recorded
      rw [dbGet_other hr ht hm]
    · rw [hs.recorded_eq, if_pos rfl]
      unfold recorded
      rw [dbGet_added ht hname hparsed]
      rfl
  · exact ⟨fun m _ => hs.recorded_eq m, hs.recorded_eq n⟩

/-- What `db_remove` leaves in the records. -/
theorem dbRemove_recorded (hr : RecordsOK db) (io : Rc) (n : CStr) :
    (∀ m, m ≠ n → recorded (dbRemove io db n).2 m = recorded db m) ∧
      recorded (dbRemove io db n).2 n = if (dbRemove io db n).1 = true then none else recorded db n := by
  obtain ⟨hok, db₁, ht, hs⟩ | ⟨hok, hs⟩ := dbRemove_cases io db n
  · refine ⟨fun m hm => ?_, ?_⟩
    · have hget : dbGet db₁ m = dbGet db m := by
        refine dbGet_congr hr ?_ ?_
        · rw [ht.main, Table.get_del, if_neg hm]
        · rw [loadPackageFiles_remove ht, if_neg hm]
      rw [hs.recorded_eq]
      unfold recorded
      rw [hget]
    · rw [hs.recorded_eq, if_pos hok]
      unfold recorded dbGet
      rw [ht.main, Table.get_del, if_pos rfl]
      rfl
  · refine ⟨fun m _ => hs.recorded_eq m, ?_⟩
    rw [hs.recorded_eq, if_neg (by simp [hok])]

end

namespace Root

variable {ships : Metadata → Option Folder} {io : RootIo} {t : ApgTrans} {i : ℕ} {step : TransStep} {p : Ptr}
  {s s' : State} {x : FileName} {S : List FileName}

/-- The scripts of the version that is recorded, `ships` being those of each version. -/
def recordedScripts (ships : Metadata → Option Folder) (db : Db) (x : FileName) : Option Folder :=
  (recorded db x.1).bind ships

/-- **The store agrees with the records**, under every name but the one given. -/
structure Persisted (ships : Metadata → Option Folder) (S : List FileName) (s : State) (but : Option FileName) : Prop where
  records : RecordsOK s.db
  way : WayTo s.fs S
  tops : ∀ x e, s.fs.get (S ++ [x]) = some e → e.isDir = true
  stored : ∀ x, but ≠ some x → Stored s.fs (S ++ [x]) (recordedScripts ships s.db x)

theorem append_name_ne_nil (S : List FileName) (x : FileName) : S ++ [x] ≠ [] := by simp

/-- A place below one is not on the way to it. -/
theorem not_append_name_prefix (S : List FileName) (x : FileName) : ¬S ++ [x] <+: S := by
  intro h
  have := h.length_le
  rw [List.length_append, List.length_singleton] at this
  omega

/-- Nothing but directories is on the way to the directory of a package. -/
theorem Persisted.wayTo {but : Option FileName} (h : Persisted ships S s but) (x : FileName) : WayTo s.fs (S ++ [x]) := by
  intro r hr e he
  rcases List.prefix_concat_iff.1 hr with rfl | hr
  · exact h.tops x e he
  · exact h.way r hr e he

theorem Persisted.of_same {but : Option FileName} (h : Persisted ships S s but) (hs : SameTables s.db s'.db)
    (hfs : Spared S s.fs s'.fs) : Persisted ships S s' but := by
  have hsame : ∀ (y : FileName) r, S ++ [y] <+: r → s'.fs.get r = s.fs.get r := fun y r hr => hfs.package y hr
  refine ⟨recordsFrom_congr h.records hs, hfs.way, fun y e he => h.tops y e ?_, fun y hy => ?_⟩
  · rwa [hsame y _ (List.prefix_refl _)] at he
  · unfold recordedScripts
    rw [hs.recorded_eq]
    exact (h.stored y hy).congr (hsame y)

/-- The files are as they were. -/
theorem Persisted.of_tables {but : Option FileName} (h : Persisted ships S s but) (hs : SameTables s.db s'.db)
    (hfs : s'.fs = s.fs) : Persisted ships S s' but := by
  refine h.of_same hs ?_
  rw [hfs]
  exact Spared.refl h.way

theorem apart_of_ne {y : FileName} {r : List FileName} (hy : y ≠ x) (hr : S ++ [y] <+: r) :
    ¬r <+: S ++ [x] ∧ ¬S ++ [x] <+: r := by
  have hplace : ∀ {z : FileName}, S ++ [z] <+: S ++ [x] → z = x := by
    intro z h
    simpa using append_prefix_append.1 h
  refine ⟨fun h => hy (hplace (hr.trans h)), fun h => hy ?_⟩
  rcases List.prefix_or_prefix_of_prefix hr h with h' | h'
  · exact hplace h'
  · have hxy : [x] <+: [y] := append_prefix_append.1 h'
    simpa using (List.cons_prefix_cons.1 hxy).1.symm

/-- What is done under one name leaves the others. -/
theorem Persisted.change {but : Option FileName} {scripts : Option Folder} (h : Persisted ships S s but)
    (hbut : ∀ y, but = some y → y = x) (hrec : RecordsOK s'.db)
    (hother : ∀ n, n ≠ x.1 → recorded s'.db n = recorded s.db n) (hway : WayTo s'.fs S)
    (haway : ∀ r, S <+: r → ¬r <+: S ++ [x] → ¬S ++ [x] <+: r → s'.fs.get r = s.fs.get r) (hx : Stored s'.fs (S ++ [x]) scripts) :
    Persisted ships S s' (some x) := by
  refine ⟨hrec, hway, fun y e he => ?_, fun y hy => ?_⟩
  · by_cases hyx : y = x
    · subst hyx
      exact hx.top he
    · obtain ⟨habove, hbelow⟩ := apart_of_ne hyx (List.prefix_refl (S ++ [y]))
      rw [haway _ (List.prefix_append S [y]) habove hbelow] at he
      exact h.tops y e he
  · have hyx : y ≠ x := fun heq => hy (by rw [heq])
    have hold : but ≠ some y := fun heq => hyx (hbut y heq)
    unfold recordedScripts
    rw [hother y.1 fun heq => hyx (Subtype.ext heq)]
    refine (h.stored y hold).congr fun r hr => ?_
    obtain ⟨habove, hbelow⟩ := apart_of_ne hyx hr
    exact haway r ((List.prefix_append S [y]).trans hr) habove hbelow

/-- The name that was left out is seen to. -/
theorem Persisted.settle (h : Persisted ships S s (some x)) (hx : Stored s.fs (S ++ [x]) (recordedScripts ships s.db x)) :
    Persisted ships S s none := by
  refine ⟨h.records, h.way, h.tops, fun y _ => ?_⟩
  by_cases hyx : y = x
  · rw [hyx]; exact hx
  · exact h.stored y fun heq => hyx (Option.some.inj heq).symm

/-! ## Steps -/

/-- The package of a step and what is asked of its scripts: it is the archive's package,
its scripts are copied without a refusal, and if it comes to that they take the place of
those of the version that is recorded. -/
structure Delivers (ships : Metadata → Option Folder) (io : RootIo) (i : ℕ) (p : Ptr) (x : FileName) (s : State) :
    Prop where
  name : (s.mem p).metadata.name = some x.1
  parsed : (s.mem p).metadata.Parsed
  scripts : ∀ archive, (io.install i).archive = some archive → archive.scripts = ships (s.mem p).metadata.written
  copies : ∀ k, (io.install i).scripts.fault k = .none
  replaces : ∀ archive, (io.install i).archive = some archive → archive.data ≠ none → (io.install i).preInstall = true →
    (io.install i).postInstall = true → Replaces (recordedScripts ships s.db x) (ships (s.mem p).metadata.written)

/-- Where the step that installs a package comes to: what its archive brings, and for an
upgrade the files of the version before and the configuration files. -/
def stepVisits (ships : Metadata → Option Folder) (S : List FileName) (io : RootIo) (i : ℕ) (step : TransStep) (p : Ptr)
    (x : FileName) (s : State) : Visits where
  enters := (installVisits io.dirs (io.install i)).enters
  drops path := (installVisits io.dirs (io.install i)).drops path ∨ step.op = .upgrade ∧
    ∃ previous, dbGet s.db x.1 = some previous ∧ ∃ file ∈ previous.paths, path = filePath io.dirs file
  clears := (installVisits io.dirs (io.install i)).clears
  opens path := (installVisits io.dirs (io.install i)).opens path ∨ step.op = .upgrade ∧
    ∃ full, confPaths io (s.mem p) full ∧ (path = comps full ∨ path = comps (apgNew full))
  writes path := step.op = .upgrade ∧ ∃ full, confPaths io (s.mem p) full ∧ path = comps full
  links := (installVisits io.dirs (io.install i)).links
  placed q t := ∃ scripts path, ships (s.mem p).metadata.written = some scripts ∧
    (path, Piece.leaf (.link t)) ∈ scripts.items.pieces ∧ q = scriptsAt (S ++ [x]) ++ path
  moved path path' := step.op = .upgrade ∧ ∃ full, confPaths io (s.mem p) full ∧ path = comps full ∧ path' = comps (apgNew full)

/-- Where the removal of a package comes to. -/
def removeVisits (io : RootIo) (step : TransStep) (s : State) : Visits where
  drops path := ∃ installed, dbGet s.db step.pkgName = some installed ∧ ∃ file ∈ installed.paths, path = filePath io.dirs file

/-- What keeps the store and the records together in a step: its files keep away from the
store, an installation's scripts take the place of those that are there, and a removal
meets no link to a directory. -/
structure StepOK (ships : Metadata → Option Folder) (S : List FileName) (io : RootIo) (t : ApgTrans) (i : ℕ)
    (step : TransStep) (s : State) : Prop where
  named : ∃ x : FileName, step.pkgName = x.1
  delivers : ∀ x : FileName, step.pkgName = x.1 → ∀ p, step.op ≠ .remove → step.pkg = some p →
    unverified io t i p s = false → (step.op = .upgrade → (upgradeBackupCreate io i step.pkgName s).1 = true) →
    Delivers ships io i p x s ∧ (stepVisits ships S io i step p x s).Spares s.fs S
  removes : ∀ x : FileName, step.pkgName = x.1 → step.op = .remove → io.out.preRemove i = true →
    NoDirLinks s.fs (S ++ [x]) ∧ (removeVisits io step s).Spares s.fs S

/-- The links there may be in the course of the step. -/
abbrev stepLinks (ships : Metadata → Option Folder) (S : List FileName) (io : RootIo) (i : ℕ) (step : TransStep) (p : Ptr)
    (x : FileName) (s : State) : List FileName → CStr → Prop := MayLink s.fs (stepVisits ships S io i step p x s)

/-- What is allowed of the step is allowed of the installation. -/
theorem Visits.Allowed.install {g : Guard FileName Bytes CStr} (h : (stepVisits ships S io i step p x s).Allowed g) :
    (installVisits io.dirs (io.install i)).Allowed g where
  enters := h.enters
  drops path hp := h.drops path (Or.inl hp)
  clears := h.clears
  fills _ hp := hp.elim
  opens path hp := h.opens path (Or.inl hp)
  writes _ hp := hp.elim
  links := h.links
  moved _ _ hp := hp.elim

/-- **An installation leaves the scripts of its version**, or the store as it was; what else
it leaves is still guarded. -/
theorem install_stored (hS : StoreAt io.dirs.root S) (hd : Delivers ships io i p x s)
    (hv : (stepVisits ships S io i step p x s).Spares s.fs S) (h : Persisted ships S s none) :
    ((install io i p s).1 = false ∧ Spared S s.fs (install io i p s).2.fs) ∨
      ((install io i p s).1 = true ∧ Stored (install io i p s).2.fs (S ++ [x]) (ships (s.mem p).metadata.written) ∧
        (∀ r, S <+: r → ¬r <+: S ++ [x] → ¬S ++ [x] <+: r → (install io i p s).2.fs.get r = s.fs.get r) ∧
        (storeGuard (stepLinks ships S io i step p x s) S (install io i p s).2.fs False).Ok (install io i p s).2.fs) := by
  have hname : (s.mem p).metadata.name.getD [] = x.1 := by rw [hd.name]; rfl
  have hstart : (storeGuard (stepLinks ships S io i step p x s) S s.fs False).Ok s.fs :=
    (stepVisits ships S io i step p x s).start h.way (by simp)
  have hallowed : (stepVisits ships S io i step p x s).Allowed (storeGuard (stepLinks ships S io i step p x s) S s.fs False) :=
    hv.allowed (by simp)
  have hpath : scriptsStorePath io.dirs.root x.1 = names (S ++ [x]) := scriptsStorePath_names hS x
  obtain ⟨hok, hleft⟩ | ⟨hok, hpre, hpost, archive, fs₁, harchive, hdata, hfs₁, hfs⟩ :=
    installInRoot_guarded hallowed.install hstart x.1
  · left
    unfold install
    rw [hname]
    exact ⟨hok, spared_of_ok hleft⟩
  · right
    have hspared := spared_of_ok hfs₁
    have hsame : ∀ r, S ++ [x] <+: r → fs₁.get r = s.fs.get r := fun r hr => hspared.package x hr
    have hstored : Stored fs₁ (S ++ [x]) (recordedScripts ships s.db x) := (h.stored x (by simp)).congr hsame
    have hway : WayTo fs₁ (S ++ [x]) := by
      intro r hr e he
      rcases List.prefix_concat_iff.1 hr with rfl | hr
      · exact hstored.top he
      · exact hspared.way r hr e he
    have hcov := hstored.covers (append_name_ne_nil S x) (hd.replaces archive harchive hdata hpre hpost)
    rw [← hd.scripts archive harchive] at hcov
    obtain ⟨hnew, hway', haway⟩ := scriptsPersist_stored hpath (append_name_ne_nil S x) hd.copies hway hstored hcov
    unfold install
    rw [hname]
    simp only [hfs]
    generalize scriptsPersist (io.install i).scripts archive io.dirs.root x.1 fs₁ = fs₂ at hnew hway' haway
    rw [hd.scripts archive harchive] at hnew
    refine ⟨hok, hnew, fun r hr habove hbelow => ?_, ?_⟩
    · rw [haway r habove hbelow]
      refine hspared.below r hr ?_
      rintro rfl
      exact habove (List.prefix_append _ [x])
    · refine storeGuard_start (fun q t ht => ?_) (hway'.above (List.prefix_append S [x])) (by simp)
      -- a link is one of the scripts, or has been there
      by_cases hbelow : S ++ [x] <+: q
      · cases hs : ships (s.mem p).metadata.written with
        | none =>
          rw [hs] at hnew
          rw [none_below (append_name_ne_nil S x) hnew hbelow] at ht
          cases ht
        | some scripts =>
          rw [hs] at hnew
          obtain ⟨path, hmem, hplace⟩ := Holds.link hnew hbelow ht
          exact .placed ⟨scripts, path, hs, hmem, hplace⟩
      · by_cases habove : q <+: S ++ [x]
        · cases hway' q habove _ ht
        · rw [haway q habove hbelow] at ht
          exact hfs₁.links q t ht

/-- A backup was made when the store had the scripts of the version it is of. -/
def BackupOK (ships : Metadata → Option Folder) (S : List FileName) (u : Undo) : Prop :=
  ∀ b, u.backup = some b → ∃ x : FileName, u.step.pkgName = x.1 ∧ b.previous.metadata.name = some x.1 ∧
    b.previous.metadata.Parsed ∧ b.previous.metadata.written = b.previous.metadata ∧
    Saves b.scripts (S ++ [x]) (ships b.previous.metadata)

/-- The last step is that of the package, whose scripts are in the store already. -/
def LastInstalled (ships : Metadata → Option Folder) (S : List FileName) (s : State) (x : FileName)
    (committed : List Undo) : Prop :=
  ∃ before u, committed = before ++ [u] ∧ u.step.pkgName = x.1 ∧
    ∃ p, u.step.pkg = some p ∧ Stored s.fs (S ++ [x]) (ships (s.mem p).metadata.written)

/-- What a step leaves: the store agrees with the records, or the record of the last
package could not be written. -/
def EndOK (ships : Metadata → Option Folder) (S : List FileName) : Outcome → Prop
  | .done l => Persisted ships S l.state none ∧ ∀ u ∈ l.committed, BackupOK ships S u
  | .failed _ l => (∀ u ∈ l.committed, BackupOK ships S u) ∧ ∃ but, Persisted ships S l.state but ∧
      ∀ x, but = some x → LastInstalled ships S l.state x l.committed

theorem failInstall_persisted {l : Loop} (h : Persisted ships S l.state none)
    (hback : ∀ u ∈ l.committed, BackupOK ships S u) (err : TransError) : EndOK ships S (failInstall t step err l) := by
  unfold failInstall
  split
  · exact ⟨hback, none, h, by simp⟩
  · exact ⟨hback, none, h.of_tables (journalWrite_tables _ _) rfl, by simp⟩

/-- The record that is written after an installation. -/
theorem recordPkg_persisted {l : Loop} {backup : Option UpgradeBackup} {r : Outcome}
    (h : Persisted ships S l.state (some x)) (hname : (l.state.mem p).metadata.name = some x.1)
    (hparsed : (l.state.mem p).metadata.Parsed)
    (hstored : Stored l.state.fs (S ++ [x]) (ships (l.state.mem p).metadata.written)) (hstep : step.pkgName = x.1)
    (hp : step.pkg = some p) (hback : ∀ u ∈ l.committed ++ [⟨i, step, backup⟩], BackupOK ships S u)
    (hr : recordPkg io i step p backup l = some r) : EndOK ships S r := by
  unfold recordPkg at hr
  obtain ⟨⟨ok, db'⟩, hadd, rfl⟩ := Option.map_eq_some_iff.1 hr
  simp only [Function.update_self] at hadd ⊢
  have hrec : RecordsOK db' := dbAdd_recordsFrom h.records trivial hadd
  obtain ⟨hother, hhere⟩ := dbAdd_recorded h.records hadd hname hparsed
  have hchange : Persisted ships S { l.state with db := db' } (some x) :=
    h.change (by simp) hrec hother h.way (fun _ _ _ _ => rfl) hstored
  cases ok with
  | true =>
    have hsettled := hchange.settle (by
      unfold recordedScripts
      rw [hhere, if_pos rfl]
      exact hstored)
    exact ⟨hsettled.of_tables (journalWrite_tables _ _) rfl, hback⟩
  | false =>
    refine ⟨hback, some x, hchange.of_tables (journalWrite_tables _ _) rfl, ?_⟩
    rintro y hy
    cases hy
    refine ⟨l.committed, _, rfl, hstep, p, hp, ?_⟩
    show Stored l.state.fs (S ++ [x]) (ships (Function.update l.state.mem p _ p).metadata.written)
    rw [Function.update_self]
    exact hstored

section

variable {l : Loop} {r : Outcome}

/-- What follows an installation: the record, or the failure of the step. -/
theorem install_persisted {s : State} {committed committed' : List Undo} {backup : Option UpgradeBackup}
    (change : State → State) (hS : StoreAt io.dirs.root S) (h : Persisted ships S s none) (hd : Delivers ships io i p x s)
    (hv : (stepVisits ships S io i step p x s).Spares s.fs S) (hstep : step.pkgName = x.1) (hp : step.pkg = some p)
    (hback : ∀ u ∈ committed, BackupOK ships S u) (hback' : ∀ u ∈ committed', BackupOK ships S u)
    (hlast : BackupOK ships S ⟨i, step, backup⟩)
    (hchange : ∀ s, (change s).db = s.db ∧ (change s).mem = s.mem)
    (hfiles : ∀ g : Guard FileName Bytes CStr, (stepVisits ships S io i step p x s).Allowed g →
      g.Ok (install io i p s).2.fs → g.Ok (change (install io i p s).2).fs)
    (hr : (if !(install io i p s).1 then some (failInstall t step .installFailed ⟨(install io i p s).2, committed'⟩)
      else recordPkg io i step p backup ⟨change (install io i p s).2, committed⟩) = some r) : EndOK ships S r := by
  have hdb : (install io i p s).2.db = s.db := rfl
  obtain ⟨hok, hspared⟩ | ⟨hok, hstored, haway, hguard⟩ := install_stored hS hd hv h
  · rw [if_pos (by simp [hok])] at hr
    rw [← Option.some.inj hr]
    exact failInstall_persisted (h.of_same (hdb ▸ SameTables.refl _) hspared) hback' _
  · rw [if_neg (by simp [hok])] at hr
    obtain ⟨hdb', hmem'⟩ := hchange (install io i p s).2
    have hmeta : ((change (install io i p s).2).mem p).metadata = (s.mem p).metadata := by
      rw [hmem', install_metadata]
    have hspared := spared_of_ok (hfiles _ (hv.allowed (by simp)) hguard)
    have hnew : Persisted ships S (install io i p s).2 (some x) :=
      h.change (by simp) h.records (fun _ _ => rfl) (spared_of_ok hguard).way haway hstored
    refine recordPkg_persisted (hnew.of_same (hdb'.symm ▸ SameTables.refl _) hspared) ?_ ?_ ?_ hstep hp ?_ hr
    · show ((change (install io i p s).2).mem p).metadata.name = some x.1
      rw [hmeta]; exact hd.name
    · show ((change (install io i p s).2).mem p).metadata.Parsed
      rw [hmeta]; exact hd.parsed
    · show Stored (change (install io i p s).2).fs (S ++ [x]) (ships ((change (install io i p s).2).mem p).metadata.written)
      rw [hmeta]
      exact hstored.congr fun r hr => hspared.package x hr
    · intro u hu
      rcases List.mem_append.1 hu with hu | hu
      · exact hback u hu
      · rw [List.mem_singleton.1 hu]; exact hlast

theorem Delivers.note {events : List Event} (h : Delivers ships io i p x s) : Delivers ships io i p x (s.note events) :=
  ⟨h.name, h.parsed, h.scripts, h.copies, h.replaces⟩

theorem commitInstall_persisted (hS : StoreAt io.dirs.root S) (h : Persisted ships S l.state none)
    (hback : ∀ u ∈ l.committed, BackupOK ships S u) (hok : StepOK ships S io t i step l.state) (hop : step.op = .install)
    (hp : step.pkg = some p) (hr : commitInstall io t i step p l = some r) : EndOK ships S r := by
  obtain ⟨x, hx⟩ := hok.named
  unfold commitInstall at hr
  split at hr
  · rw [← Option.some.inj hr]
    exact failInstall_persisted h hback _
  rename_i hverified
  obtain ⟨hd, hv⟩ := hok.delivers x hx p (by simp [hop]) hp (by simpa using hverified) (by simp [hop])
  split at hr
  · rw [← Option.some.inj hr]
    exact ⟨h, hback⟩
  · have hnone : BackupOK ships S ⟨i, step, none⟩ := by
      intro b hb
      simp at hb
    have hnoted : Persisted ships S (l.state.note (verification t i (l.state.mem p))) none :=
      h.of_tables (SameTables.refl _) rfl
    exact install_persisted id hS hnoted hd.note hv hx hp hback hback hnone (fun _ => ⟨rfl, rfl⟩) (fun _ _ h => h) hr

/-- **A backup is made of the scripts that the store has.** -/
theorem upgradeBackupCreate_saves {backup : Option UpgradeBackup} (hS : StoreAt io.dirs.root S)
    (h : Persisted ships S s none) (hx : step.pkgName = x.1)
    (hc : upgradeBackupCreate io i step.pkgName s = (true, backup)) : BackupOK ships S ⟨i, step, backup⟩ := by
  rintro b rfl
  refine ⟨x, hx, ?_⟩
  have hpath : scriptsStorePath io.dirs.root step.pkgName = names (S ++ [x]) := by
    rw [hx]
    exact scriptsStorePath_names hS x
  unfold upgradeBackupCreate at hc
  cases hget : dbGet s.db step.pkgName with
  | none => simp [hget] at hc
  | some previous =>
    obtain ⟨hname, -, hparsed, hwritten, -⟩ := dbGet_settled h.records hget
    have hships : recordedScripts ships s.db x = ships previous.metadata := by
      unfold recordedScripts recorded
      rw [← hx, hget]
      rfl
    have hsaves : Saves (readFolder s.fs (names (S ++ [x]))) (S ++ [x]) (ships previous.metadata) :=
      ⟨s.fs, hships ▸ h.stored x (by simp), h.wayTo x, rfl⟩
    simp only [hget, hpath] at hc
    cases hfiles : backupFiles (io.backup i) io.dirs s.fs 0 previous.paths .empty with
    | mk ok files =>
      rw [hfiles] at hc
      cases ok with
      | false => simp at hc
      | true =>
        cases hread : readFolder s.fs (names (S ++ [x])) with
        | none =>
          rw [hread] at hc hsaves
          simp only [Prod.mk.injEq, true_and, Option.some.injEq] at hc
          rw [← hc]
          exact ⟨by rw [← hx]; exact hname, hparsed, hwritten, hsaves⟩
        | some folder =>
          rw [hread] at hc hsaves
          simp only at hc
          split at hc
          · simp only [Prod.mk.injEq, true_and, Option.some.injEq] at hc
            rw [← hc]
            exact ⟨by rw [← hx]; exact hname, hparsed, hwritten, hsaves⟩
          · simp at hc

theorem commitUpgrade_persisted (hS : StoreAt io.dirs.root S) (h : Persisted ships S l.state none)
    (hback : ∀ u ∈ l.committed, BackupOK ships S u) (hok : StepOK ships S io t i step l.state) (hop : step.op = .upgrade)
    (hp : step.pkg = some p) (hr : commitUpgrade io t i step p l = some r) : EndOK ships S r := by
  obtain ⟨x, hx⟩ := hok.named
  unfold commitUpgrade at hr
  split at hr
  · rw [← Option.some.inj hr]
    exact failInstall_persisted h hback _
  rename_i hverified
  split at hr
  · rw [← Option.some.inj hr]
    exact ⟨h, hback⟩
  have hnoted : Persisted ships S (l.state.note (verification t i (l.state.mem p))) none :=
    h.of_tables (SameTables.refl _) rfl
  simp only at hr
  cases hcreate : upgradeBackupCreate io i step.pkgName (l.state.note (verification t i (l.state.mem p))) with
  | mk ok backup =>
    rw [hcreate] at hr
    cases ok with
    | false =>
      rw [← Option.some.inj hr]
      exact failInstall_persisted (l := { l with state := l.state.note (verification t i (l.state.mem p)) }) hnoted hback _
    | true =>
      have hcreated : (upgradeBackupCreate io i step.pkgName l.state).1 = true := congrArg Prod.fst hcreate
      obtain ⟨hd, hv⟩ := hok.delivers x hx p (by simp [hop]) hp (by simpa using hverified) fun _ => hcreated
      have hlast := upgradeBackupCreate_saves hS hnoted hx hcreate
      have hback' : ∀ u ∈ l.committed ++ [⟨i, step, backup⟩], BackupOK ships S u := by
        intro u hu
        rcases List.mem_append.1 hu with hu | hu
        · exact hback u hu
        · rw [List.mem_singleton.1 hu]; exact hlast
      refine install_persisted (fun s => removeDroppedFiles io.dirs (s.mem p) { s with
        fs := restoreConfs (io.conf i) (saveConfs (io.conf i) io.dirs
          (l.state.note (verification t i (l.state.mem p))).fs
          ((l.state.note (verification t i (l.state.mem p))).mem p)) s.fs }) hS hnoted hd.note hv hx hp hback hback' hlast
        ?_ ?_ hr
      · intro s
        obtain ⟨hdb, hmem, -⟩ := removeDroppedFiles_same io.dirs (s.mem p) { s with
          fs := restoreConfs (io.conf i) (saveConfs (io.conf i) io.dirs
            (l.state.note (verification t i (l.state.mem p))).fs
            ((l.state.note (verification t i (l.state.mem p))).mem p)) s.fs }
        exact ⟨hdb, hmem⟩
      · intro g hallowed hg
        have hname : ((install io i p (l.state.note (verification t i (l.state.mem p)))).2.mem p).metadata.name = some x.1 := by
          rw [install_metadata]
          exact hd.name
        refine upgradeFiles_ok hg (fun full hpath => ?_) fun name previous file hn hget hmem _ _ => ?_
        · exact ⟨hallowed.opens _ (Or.inr ⟨hop, _, hpath, Or.inl rfl⟩), hallowed.opens _ (Or.inr ⟨hop, _, hpath, Or.inr rfl⟩),
            hallowed.writes _ ⟨hop, _, hpath, rfl⟩, hallowed.moved _ _ ⟨hop, _, hpath, rfl, rfl⟩⟩
        · rw [hname, Option.some.injEq] at hn
          rw [← hn] at hget
          exact hallowed.drops _ (Or.inr ⟨hop, previous, hget, file, hmem, rfl⟩)

theorem commitRemove_persisted (hS : StoreAt io.dirs.root S) (h : Persisted ships S l.state none)
    (hback : ∀ u ∈ l.committed, BackupOK ships S u) (hok : StepOK ships S io t i step l.state) (hop : step.op = .remove) :
    EndOK ships S (commitRemove io t i step l) := by
  obtain ⟨x, hx⟩ := hok.named
  unfold commitRemove
  split
  · exact ⟨h, hback⟩
  by_cases hpre : io.out.preRemove i = true
  swap
  · simp only [hpre, Bool.false_eq_true, if_false]
    exact ⟨hback, none, h.of_tables (journalWrite_tables _ _) rfl, by simp⟩
  obtain ⟨hlinks, hv⟩ := hok.removes x hx hop hpre
  simp only [hpre, if_true]
  have hrec := dbRemove_recordsFrom h.records (io.out.removeIo i) step.pkgName
  obtain ⟨hother, hhere⟩ := dbRemove_recorded h.records (io.out.removeIo i) step.pkgName
  obtain ⟨hdone, -⟩ | ⟨hdone, hs⟩ := dbRemove_cases (io.out.removeIo i) l.state.db step.pkgName
  · simp only [hdone, if_true]
    rw [hdone, if_pos rfl] at hhere
    -- the files of the package go first
    have hfiles : (storeGuard (MayLink l.state.fs (removeVisits io step l.state)) S l.state.fs False).Ok
        (unlinkFiles io.dirs (((dbGet l.state.db step.pkgName).map Package.paths).getD []) l.state.fs) := by
      refine unlinkFiles_ok io.dirs _ ((removeVisits io step l.state).start h.way (by simp)) fun file hfile => ?_
      cases hget : dbGet l.state.db step.pkgName with
      | none => simp [hget] at hfile
      | some installed =>
        rw [hget, Option.map_some, Option.getD_some] at hfile
        exact (hv.allowed (by simp)).drops _ ⟨installed, hget, file, hfile, rfl⟩
    have hspared := spared_of_ok hfiles
    have hless := unlinkFiles_less io.dirs (((dbGet l.state.db step.pkgName).map Package.paths).getD []) l.state.fs
    generalize unlinkFiles io.dirs (((dbGet l.state.db step.pkgName).map Package.paths).getD []) l.state.fs = fs
      at hspared hless
    have hway : WayTo fs (S ++ [x]) := fun r hr e he => h.wayTo x r hr e (hless r e he)
    have hgone : scriptsPersistRemove io.dirs.root step.pkgName fs = fs.erase (S ++ [x]) := by
      rw [hx]
      exact scriptsPersistRemove_eq (scriptsStorePath_names hS x) (append_name_ne_nil S x) hway (hlinks.of_less hless)
    have hempty : Stored (fs.erase (S ++ [x])) (S ++ [x]) none := by
      show (fs.erase (S ++ [x])).get (S ++ [x]) = none
      rw [Fs.get_erase, if_pos (List.prefix_refl _)]
    rw [hgone]
    have hnow : Persisted ships S { l.state with fs := fs } none := h.of_same (SameTables.refl _) hspared
    have hleft : Persisted ships S { l.state with
        db := (dbRemove (io.out.removeIo i) l.state.db step.pkgName).2
        fs := fs.erase (S ++ [x]) } (some x) := by
      refine hnow.change (by simp) hrec (fun n hn => hother n (hx ▸ hn)) (fun r hr e he => ?_) (fun r _ _ hr => ?_) hempty
      · exact hspared.way r hr e (Less.erase fs _ r e he)
      · show (fs.erase (S ++ [x])).get r = _
        rw [Fs.get_erase, if_neg hr]
    have hsettled := hleft.settle (by
      unfold recordedScripts
      rw [← hx, hhere]
      exact hempty)
    exact ⟨hsettled.of_tables (journalWrite_tables _ _) rfl, hback⟩
  · simp only [hdone, Bool.false_eq_true, if_false]
    have hsame : Persisted ships S { l.state with db := (dbRemove (io.out.removeIo i) l.state.db step.pkgName).2 } none :=
      h.of_tables hs rfl
    exact ⟨hback, none, hsame.of_tables (journalWrite_tables _ _) rfl, by simp⟩

/-- **What a step of a commit leaves.** -/
theorem commitStep_persisted (hS : StoreAt io.dirs.root S) (h : Persisted ships S l.state none)
    (hback : ∀ u ∈ l.committed, BackupOK ships S u) (hok : StepOK ships S io t i step l.state)
    (hr : commitStep io t i step l = some r) : EndOK ships S r := by
  unfold commitStep at hr
  cases hop : step.op with
  | remove =>
    rw [hop] at hr
    rw [← Option.some.inj hr]
    exact commitRemove_persisted hS h hback hok hop
  | install =>
    cases hp : step.pkg with
    | none => simp [hop, hp] at hr
    | some p =>
      simp only [hop, hp] at hr
      exact commitInstall_persisted hS h hback hok hop hp hr
  | upgrade =>
    cases hp : step.pkg with
    | none => simp [hop, hp] at hr
    | some p =>
      simp only [hop, hp] at hr
      exact commitUpgrade_persisted hS h hback hok hop hp hr

end

/-! ## The rollback -/

/-- Where undoing a step comes to: the files it brought, and for an upgrade those of the
version before, with the directories on the way to them. -/
def undoVisits (io : RootIo) (u : Undo) (s : State) : Visits where
  enters path := ∃ b, u.backup = some b ∧ ∃ file ∈ b.previous.paths, path <+: filePath io.dirs file ∧ path ≠ filePath io.dirs file
  drops path := ∃ p, u.step.pkg = some p ∧ ∃ file ∈ (s.mem p).paths, path = filePath io.dirs file
  fills path := ∃ b, u.backup = some b ∧ ∃ file ∈ b.previous.paths, path = filePath io.dirs file
  links path t := ∃ b, u.backup = some b ∧ ∃ file ∈ b.previous.paths, path = filePath io.dirs file ∧
    lstat b.files (comps file) = some (.link t)

/-- What keeps the store and the records together when a step is undone: its files keep away
from the store. A backup comes back whole: its scripts are copied without a refusal to a
store that is there, and its record is written or ships the same as the one that is there.
An installation that is undone was of a version without scripts, and so is what is recorded. -/
structure UndoOK (ships : Metadata → Option Folder) (S : List FileName) (io : RootIo) (u : Undo) (s : State) : Prop where
  spares : (undoVisits io u s).Spares s.fs S
  back : ∀ b p, u.backup = some b → u.step.pkg = some p → (∀ k, (io.restoreScripts u.idx).fault k = .none) ∧
    (b.scripts ≠ none → s.fs.isDirAt S = true) ∧
    ((dbAdd (io.out.restoreIo u.idx) s.db b.previous).map Prod.fst = some true ∨
      ∀ x : FileName, u.step.pkgName = x.1 → recordedScripts ships s.db x = ships b.previous.metadata)
  fresh : u.backup = none ∨ u.step.pkg = none → ∀ x : FileName, u.step.pkgName = x.1 →
    recordedScripts ships s.db x = none ∧ ∀ p, u.step.pkg = some p → ships (s.mem p).metadata.written = none

section

variable {u : Undo} {but : Option FileName}

/-- The links there may be while the step is undone. -/
abbrev undoLinks (io : RootIo) (u : Undo) (s : State) : List FileName → CStr → Prop := MayLink s.fs (undoVisits io u s)

theorem upgradeBackupRestore_persisted {b : UpgradeBackup} (hS : StoreAt io.dirs.root S) (h : Persisted ships S s but)
    (hbut : ∀ y, but = some y → u.step.pkgName = y.1) (hu : BackupOK ships S u) (hok : UndoOK ships S io u s)
    (hb : u.backup = some b) (hp : u.step.pkg = some p)
    (hr : upgradeBackupRestore io u.idx u.step.pkgName b p s = some s') : Persisted ships S s' none := by
  obtain ⟨x, hx, hname, hparsed, hwritten, hsaves⟩ := hu b hb
  obtain ⟨hcopies, hthere, hrecord⟩ := hok.back b p hb hp
  unfold upgradeBackupRestore at hr
  obtain ⟨⟨ok, db'⟩, hadd, rfl⟩ := Option.map_eq_some_iff.1 hr
  -- the files of the new version go, and those of the old one come back
  have hstays : b.scripts ≠ none → s.fs.isDirAt S = true := hthere
  have hallowed : (undoVisits io u s).Allowed (storeGuard (undoLinks io u s) S s.fs (b.scripts ≠ none)) :=
    hok.spares.allowed fun _ _ hp => hp
  have hgone : (storeGuard (undoLinks io u s) S s.fs (b.scripts ≠ none)).Ok (unlinkFiles io.dirs (s.mem p).paths s.fs) :=
    unlinkFiles_ok io.dirs _ ((undoVisits io u s).start h.way hstays) fun file hfile => hallowed.drops _ ⟨p, hp, file, hfile, rfl⟩
  have hfiles := restoreFiles_ok (io.restore u.idx) io.dirs b.files b.previous.paths 0 hgone
    (fun file hfile _ => hallowed.fills _ ⟨b, hb, file, hfile, rfl⟩)
    (fun file hfile _ path hpre hne => hallowed.enters _ ⟨b, hb, file, hfile, hpre, hne⟩)
    (fun file hfile t ht => hallowed.links _ t ⟨b, hb, file, hfile, rfl, ht⟩)
  have hspared := spared_of_ok hfiles
  have hdir : b.scripts ≠ none → _ := isDirAt_of_ok hfiles
  generalize restoreFiles (io.restore u.idx) io.dirs b.files 0 b.previous.paths
    (unlinkFiles io.dirs (s.mem p).paths s.fs) = fs at hspared hdir
  have hnow : Persisted ships S { s with fs := fs } but := h.of_same (SameTables.refl _) hspared
  have hpath : scriptsStorePath io.dirs.root (b.previous.metadata.name.getD []) = names (S ++ [x]) := by
    rw [hname]
    exact scriptsStorePath_names hS x
  have hparent : b.scripts ≠ none → fs.isDirAt (S ++ [x]).dropLast = true := by
    rw [List.dropLast_concat]
    exact hdir
  obtain ⟨hstored, haway⟩ := restoreScripts_stored hpath (append_name_ne_nil S x) hcopies (hnow.wayTo x) hparent hsaves
  generalize restoreScripts (io.restoreScripts u.idx) io.dirs b fs = fs₁ at hstored haway
  obtain ⟨hother, hhere⟩ := dbAdd_recorded h.records hadd hname hparsed
  have hrec : RecordsOK db' := dbAdd_recordsFrom h.records trivial hadd
  refine (hnow.change (fun y hy => ?_) hrec hother (fun r hr e he => ?_) (fun r _ _ hr => haway r hr) hstored).settle ?_
  · exact Subtype.ext ((hbut y hy).symm.trans hx)
  · have hshort : ¬S ++ [x] <+: r := fun hpre => not_append_name_prefix S x (hpre.trans hr)
    have he' : fs.get r = some e := (haway r hshort).symm.trans he
    exact hspared.way r hr e he'
  · -- the record is that of the backup, or ships the same
    have hships : recordedScripts ships db' x = ships b.previous.metadata := by
      unfold recordedScripts
      rw [hhere]
      cases ok with
      | true => rw [if_pos rfl, hwritten]; rfl
      | false =>
        rw [if_neg (by simp)]
        refine hrecord.resolve_left ?_ x hx
        rw [hadd]
        simp
    show Stored _ _ (recordedScripts ships db' x)
    rw [hships]
    exact hstored

theorem undoInstall_persisted (h : Persisted ships S s but) (hbut : ∀ y, but = some y → u.step.pkgName = y.1)
    (hlast : ∀ y, but = some y → ∃ p, u.step.pkg = some p ∧ Stored s.fs (S ++ [y]) (ships (s.mem p).metadata.written))
    (hok : UndoOK ships S io u s) (hkind : u.backup = none ∨ u.step.pkg = none) :
    Persisted ships S (undoInstall io u s) none := by
  have hrec : RecordsOK (undoInstall io u s).db := dbRemove_recordsFrom h.records (io.out.undoIo u.idx) u.step.pkgName
  obtain ⟨hother, hhere⟩ := dbRemove_recorded h.records (io.out.undoIo u.idx) u.step.pkgName
  have hspared : Spared S s.fs (undoInstall io u s).fs := by
    have hstart : (storeGuard (undoLinks io u s) S s.fs False).Ok s.fs := (undoVisits io u s).start h.way (by simp)
    refine spared_of_ok (unlinkFiles_ok io.dirs _ hstart fun file hfile => ?_)
    cases hp : u.step.pkg with
    | none => simp [hp] at hfile
    | some p =>
      rw [hp, Option.map_some, Option.getD_some] at hfile
      exact (hok.spares.allowed (by simp)).drops _ ⟨p, hp, file, hfile, rfl⟩
  have hnow : Persisted ships S { s with fs := (undoInstall io u s).fs } but := h.of_same (SameTables.refl _) hspared
  by_cases hx : ∃ x : FileName, u.step.pkgName = x.1
  · obtain ⟨x, hx⟩ := hx
    obtain ⟨hnone, hships⟩ := hok.fresh hkind x hx
    -- no scripts came with the package, whether it was recorded or not
    have hempty : Stored s.fs (S ++ [x]) none := by
      by_cases hbx : but = some x
      · obtain ⟨p, hp, hstored⟩ := hlast x hbx
        rw [hships p hp] at hstored
        exact hstored
      · have hstored := h.stored x hbx
        rw [hnone] at hstored
        exact hstored
    have hstored : Stored (undoInstall io u s).fs (S ++ [x]) none := hempty.congr fun r hr => hspared.package x hr
    have hchange : Persisted ships S (undoInstall io u s) (some x) := by
      refine hnow.change (fun y hy => ?_) hrec (fun n hn => hother n (hx ▸ hn)) hspared.way (fun _ _ _ _ => rfl) hstored
      exact Subtype.ext ((hbut y hy).symm.trans hx)
    have hleft : recordedScripts ships (undoInstall io u s).db x = none := by
      have hdb : (undoInstall io u s).db = (dbRemove (io.out.undoIo u.idx) s.db x.1).2 := by
        rw [← hx]
        rfl
      unfold recordedScripts at hnone ⊢
      rw [hx] at hhere
      rw [hdb, hhere]
      split
      · rfl
      · exact hnone
    refine hchange.settle ?_
    rw [hleft]
    exact hstored
  · -- no name of a package is touched
    have hbut' : but = none := by
      cases but with
      | none => rfl
      | some y => exact absurd ⟨y, hbut y rfl⟩ hx
    refine ⟨hrec, hnow.way, hnow.tops, fun y _ => ?_⟩
    have hsame : recorded (undoInstall io u s).db y.1 = recorded s.db y.1 := hother y.1 fun heq => hx ⟨y, heq.symm⟩
    unfold recordedScripts
    rw [hsame]
    exact hnow.stored y (by simp [hbut'])

/-- **What undoing a step leaves**, also of the one whose record could not be written. -/
theorem rollbackOne_persisted (hS : StoreAt io.dirs.root S) (h : Persisted ships S s but)
    (hlast : ∀ y, but = some y → LastInstalled ships S s y [u]) (hu : BackupOK ships S u) (hok : UndoOK ships S io u s)
    (hr : rollbackOne io u s = some s') : Persisted ships S s' none := by
  have hmine : ∀ y, but = some y → u.step.pkgName = y.1 ∧
      ∃ p, u.step.pkg = some p ∧ Stored s.fs (S ++ [y]) (ships (s.mem p).metadata.written) := by
    intro y hy
    obtain ⟨before, v, hsplit, hv⟩ := hlast y hy
    have hone : before = [] ∧ v = u := by simpa [List.singleton_eq_append_iff] using hsplit
    rw [hone.2] at hv
    exact hv
  unfold rollbackOne at hr
  obtain ⟨s₁, hundone, rfl⟩ := Option.map_eq_some_iff.1 hr
  have h₁ : Persisted ships S s₁ none := by
    cases hb : u.backup with
    | none =>
      rw [hb, Option.some.injEq] at hundone
      rw [← hundone]
      exact undoInstall_persisted h (fun y hy => (hmine y hy).1) (fun y hy => (hmine y hy).2) hok (Or.inl hb)
    | some b =>
      cases hp : u.step.pkg with
      | none =>
        simp only [hb, hp, Option.some.injEq] at hundone
        rw [← hundone]
        exact undoInstall_persisted h (fun y hy => (hmine y hy).1) (fun y hy => (hmine y hy).2) hok (Or.inr hp)
      | some p =>
        simp only [hb, hp] at hundone
        exact upgradeBackupRestore_persisted hS h (fun y hy => (hmine y hy).1) hu hok hb hp hundone
  exact h₁.of_tables (journalWrite_tables _ _) rfl

end

/-- **What a rollback leaves**: the step undone first may be the one whose record could not
be written. -/
theorem rollbackCommitted_persisted (hS : StoreAt io.dirs.root S) : ∀ {committed : List Undo} {but : Option FileName}
    {s s' : State}, Persisted ships S s but → (∀ x, but = some x → LastInstalled ships S s x committed) →
    (∀ u ∈ committed, BackupOK ships S u) →
    (∀ before u after s₁, committed = before ++ u :: after → rollbackCommitted io s after = some s₁ →
      UndoOK ships S io u s₁) →
    rollbackCommitted io s committed = some s' → Persisted ships S s' none := by
  intro committed
  induction committed with
  | nil =>
    intro but s s' h hlast _ _ hr
    rw [rollbackCommitted, Option.some.injEq] at hr
    rw [← hr]
    cases but with
    | none => exact h
    | some x =>
      obtain ⟨before, u, hnil, -⟩ := hlast x rfl
      simp at hnil
  | cons u committed ih =>
    intro but s s' h hlast hback hundos hr
    rw [rollbackCommitted] at hr
    obtain ⟨s₁, hs₁, hone⟩ := Option.bind_eq_some_iff.1 hr
    have hok := hundos [] u committed s₁ rfl hs₁
    by_cases hnil : committed = []
    · subst hnil
      rw [rollbackCommitted, Option.some.injEq] at hs₁
      subst hs₁
      exact rollbackOne_persisted hS h hlast (hback u List.mem_cons_self) hok hone
    · have h₁ : Persisted ships S s₁ none := by
        refine ih h (fun x hx => ?_) (fun v hv => hback v (List.mem_cons_of_mem _ hv))
          (fun before v after s₂ hsplit => hundos (u :: before) v after s₂ (by rw [hsplit]; rfl)) hs₁
        obtain ⟨before, v, hsplit, hv⟩ := hlast x hx
        cases before with
        | nil =>
          rw [List.nil_append, List.cons.injEq] at hsplit
          exact absurd hsplit.2 hnil
        | cons w before => exact ⟨before, v, (List.cons.inj hsplit).2, hv⟩
      exact rollbackOne_persisted hS h₁ (by simp) (hback u List.mem_cons_self) hok hone

/-! ## Whole runs -/

/-- Every step that the commit comes to, and every undoing, keeps the store and the records
together. -/
structure Careful (ships : Metadata → Option Folder) (S : List FileName) (io : RootIo) (t : ApgTrans) (s : State) :
    Prop where
  root : StoreAt io.dirs.root S
  steps : t.dryRun = false → ∀ done step rest l, t.plan = done ++ step :: rest →
    commitLoop io t 0 done (start s) = some (.done l) → StepOK ships S io t done.length step l.state
  undos : ∀ err l before u after s₁, commitLoop io t 0 t.plan (start s) = some (.failed err l) →
    l.committed = before ++ u :: after → rollbackCommitted io l.state after = some s₁ → UndoOK ships S io u s₁

theorem commitLoop_persisted (hcareful : Careful ships S io t s) : ∀ (steps done : List TransStep) {l : Loop} {r : Outcome},
    t.plan = done ++ steps → commitLoop io t 0 done (start s) = some (.done l) → EndOK ships S (.done l) →
    commitLoop io t done.length steps l = some r → EndOK ships S r := by
  intro steps
  induction steps with
  | nil =>
    intro done l r _ _ hend hr
    rw [commitLoop, Option.some.injEq] at hr
    rw [← hr]
    exact hend
  | cons step steps ih =>
    intro done l r hplan hdone hend hr
    have hone : ∀ {e}, commitStep io t done.length step l = some e → EndOK ships S e := by
      intro e he
      cases hdry : t.dryRun with
      | false =>
        exact commitStep_persisted hcareful.root hend.1 hend.2 (hcareful.steps hdry done step steps l hplan hdone) he
      | true =>
        obtain rfl | rfl := commitStep_dry hdry he
        · exact hend
        · exact ⟨hend.2, none, hend.1, by simp⟩
    rw [commitLoop] at hr
    cases hstep : commitStep io t done.length step l with
    | none =>
      rw [hstep] at hr
      cases hr
    | some e =>
      have hend' := hone hstep
      rw [hstep] at hr
      cases e with
      | failed err l' =>
        rw [← Option.some.inj hr]
        exact hend'
      | done l' =>
        refine ih (done ++ [step]) (by rw [hplan]; simp) ?_ hend' (by simpa using hr)
        have happ := commitLoop_append io t done 0 [step] _ _ hdone
        rw [happ, commitLoop, Nat.zero_add, hstep]
        rfl

/-- **What a commit leaves.** -/
theorem transCommit_persisted {err : TransError} {t' : ApgTrans} (h : Persisted ships S s none)
    (hcareful : Careful ships S io t s) (hr : transCommit io t s = some (err, t', s')) : Persisted ships S s' none := by
  have hloop : ∀ {r}, commitLoop io t 0 t.plan (start s) = some r → EndOK ships S r := by
    intro r hl
    refine commitLoop_persisted hcareful t.plan [] rfl rfl ⟨?_, by simp [start]⟩ hl
    exact h.of_tables ⟨rfl, rfl, rfl, rfl, rfl, rfl⟩ rfl
  obtain ⟨-, -, rfl⟩ | ⟨l, -, hl, -, -, rfl⟩ | ⟨l, s₁, hl, hback, -, rfl⟩ := transCommit_cases hr
  · exact h
  · exact (hloop hl).1.of_tables ⟨rfl, rfl, rfl, rfl, rfl, rfl⟩ rfl
  · obtain ⟨hbackups, but, hleft, hlast⟩ := hloop hl
    have h₁ := rollbackCommitted_persisted hcareful.root hleft hlast hbackups
      (fun before u after s₁ hsplit => hcareful.undos err l before u after s₁ hl hsplit) hback
    exact h₁.of_tables ⟨rfl, rfl, rfl, rfl, rfl, rfl⟩ rfl

/-- The states that commits lead to, from a root where nothing is installed. Between them the
files outside the store and the objects may change. -/
inductive Maintained (ships : Metadata → Option Folder) (S : List FileName) : State → Prop
  | fresh {s : State} (filesOpen fileOwnerOpen : Bool) : s.db = dbOpen filesOpen fileOwnerOpen → WayTo s.fs S →
      (∀ x, s.fs.get (S ++ [x]) = none) → Maintained ships S s
  | outside {s s' : State} : Maintained ships S s → s'.db = s.db → Spared S s.fs s'.fs → Maintained ships S s'
  | commit {io : RootIo} {t t' : ApgTrans} {s s' : State} {err : TransError} : Maintained ships S s →
      Careful ships S io t s → transCommit io t s = some (err, t', s') → Maintained ships S s'

/-- **The store holds what the recorded versions ship**, and nothing for a package that is
not installed. -/
theorem transCommit_storedScripts (h : Maintained ships S s) (x : FileName) :
    Stored s.fs (S ++ [x]) ((recorded s.db x.1).bind ships) := by
  have hpersisted : Persisted ships S s none := by
    induction h with
    | @fresh s f o hdb hway hempty =>
      refine ⟨fun n j hj => ?_, hway, fun y e he => ?_, fun y _ => ?_⟩
      · rw [hdb] at hj
        simp [dbOpen] at hj
      · rw [hempty] at he
        cases he
      · have hnone : recordedScripts ships s.db y = none := by
          unfold recordedScripts recorded dbGet
          rw [hdb]
          simp [dbOpen]
        rw [hnone]
        exact hempty y
    | outside _ hdb hfs ih => exact ih.of_same (hdb ▸ SameTables.refl _) hfs
    | commit _ hcareful hr ih => exact transCommit_persisted ih hcareful hr
  exact hpersisted.stored x (by simp)

/-- The scripts of `a`. -/
def scriptsOfA : Folder := { items := .leaf (fileName "pre-remove") (.file [1] 0o755) .nil }

def shipsA (m : Metadata) : Option Folder := if m.name = some (cstr "a") then some scriptsOfA else none

theorem nil_distinct : (Forest.nil).distinct = true := rfl

/-- The data of a package without files. -/
def bareData : Folder := ⟨0o755, .nil, nil_distinct⟩

/-- The archive of the first step has scripts, the others cannot be extracted. -/
def firstScripted : RootIo :=
  { dirs := ⟨cstr "/", none⟩
    install := fun i => if i = 0 then { archive := some { data := some bareData, scripts := some scriptsOfA } } else {} }

/-- The package that is installed first keeps away from the store. -/
theorem firstScripted_spares {step : TransStep} {p : Ptr} {x : FileName} {s : State} (hop : step.op = .install) (fs : Host) :
    (stepVisits shipsA pkgscripts firstScripted 0 step p x s).Spares fs pkgscripts := by
  have hlands : ∀ {base F}, Lands firstScripted.dirs (firstScripted.install 0) base F → base = [] ∧ F = .nil := by
    rintro base F (⟨harchive, -, hdata⟩ | ⟨-, -, -, hhome, -⟩)
    · cases harchive
      cases hdata
      exact ⟨rfl, rfl⟩
    · cases hhome
  -- the top is named by itself
  have htop : Outside (MayLink fs (stepVisits shipsA pkgscripts firstScripted 0 step p x s)) pkgscripts [] := by
    rintro q ⟨f, -, hq⟩ hpre
    obtain rfl : q = [] := (Option.some.inj hq).symm
    exact absurd hpre (by decide)
  have hinstall : step.op ≠ .upgrade := by simp [hop]
  refine ⟨fun path hp => ?_, fun path hp => ?_, fun path hp => ?_, fun _ hp => hp.elim, fun path hp => ?_, fun path hp => ?_⟩
  · obtain ⟨base, F, hl, hp⟩ := hp
    obtain ⟨rfl, rfl⟩ := hlands hl
    obtain rfl | ⟨y, hy, -⟩ := hp
    · exact htop
    · cases hy
  · obtain ⟨base, F, q, hl, hmem, -⟩ := hp.resolve_right fun h => hinstall h.1
    obtain ⟨-, rfl⟩ := hlands hl
    cases hmem
  · obtain ⟨base, F, hl, hp⟩ := hp
    obtain ⟨rfl, rfl⟩ := hlands hl
    obtain rfl | ⟨y, hy, -⟩ := hp
    · exact htop
    · cases hy
  · obtain ⟨base, F, q, leaf, hl, hmem, -⟩ := hp.resolve_right fun h => hinstall h.1
    obtain ⟨-, rfl⟩ := hlands hl
    cases hmem
  · exact absurd hp.1 hinstall

theorem transCommit_storedScripts_installed :
    ∃ s, Maintained shipsA pkgscripts s ∧ recorded s.db (cstr "a") ≠ none ∧
      Holds s.fs (pkgscripts ++ [fileName "a"]) scriptsOfA := by
  have hruns : ∃ mem t, transPrepare (fun _ => none) (fun _ => bare "a" []) (dbOpen true true) { installPkgs := [1] } =
        some (.ok, mem, t) ∧ t.plan = [⟨.install, cstr "a", none, true, some 1⟩] ∧
        (mem 1).metadata = (bare "a" []).metadata :=
    ⟨_, _, rfl, rfl, rfl⟩
  obtain ⟨mem, t, hprep, hplan, hmeta⟩ := hruns
  have hdone : ((transPrepare (fun _ => none) (fun _ => bare "a" []) (dbOpen true true) { installPkgs := [1] }).bind
      fun r => (commitLoop firstScripted r.2.2 0 r.2.2.plan (start (blank r.2.1))).map isDone) = some true := by
    decide +kernel
  have hcommitted : ((transPrepare (fun _ => none) (fun _ => bare "a" []) (dbOpen true true) { installPkgs := [1] }).bind
      fun r => (transCommit firstScripted r.2.2 (blank r.2.1)).map fun r' => recorded r'.2.2.db (cstr "a")) =
      some (some (bare "a" []).metadata.written) := by
    decide +kernel
  rw [hprep, Option.bind_some] at hdone hcommitted
  obtain ⟨⟨err, t', s'⟩, hcommit, hrec⟩ := Option.map_eq_some_iff.1 hcommitted
  have hships : shipsA (bare "a" []).metadata.written = some scriptsOfA := if_pos (by decide)
  have hcareful : Careful shipsA pkgscripts firstScripted t (blank mem) := by
    refine ⟨@storeAt_root _ [] rfl, fun _ done step rest l₁ hsplit hdone => ?_, fun err l₁ _ _ _ _ hfail => ?_⟩
    · rw [hplan] at hsplit
      obtain rfl : done = [] := by
        have hlen := congrArg List.length hsplit
        simp only [List.length_append, List.length_cons, List.length_nil] at hlen
        exact List.length_eq_zero_iff.1 (by omega)
      rw [List.nil_append, List.cons.injEq] at hsplit
      obtain ⟨rfl, -⟩ := hsplit
      rw [commitLoop, Option.some.injEq, Outcome.done.injEq] at hdone
      subst hdone
      refine ⟨⟨fileName "a", rfl⟩, fun x hx p _ hp _ _ => ?_, fun _ _ hop => by cases hop⟩
      obtain rfl : x = fileName "a" := Subtype.ext hx.symm
      cases hp
      have hmeta' : ((start (blank mem)).state.mem 1).metadata = (bare "a" []).metadata := hmeta
      have hparsed : (bare "a" []).metadata.Parsed := by
        intro c hc
        cases hc
      refine ⟨⟨by rw [hmeta']; rfl, by rw [hmeta']; exact hparsed, fun archive harchive => ?_, fun _ => rfl, ?_⟩,
        firstScripted_spares rfl _⟩
      · rw [hmeta', hships]
        cases harchive
        rfl
      · -- nothing is recorded yet
        intro _ _ _ _ _
        trivial
    · rw [hfail] at hdone
      cases hdone
  have hway : WayTo (blank mem).fs pkgscripts := by
    intro r _ e he
    cases he
  have hmaintained : Maintained shipsA pkgscripts s' :=
    (Maintained.fresh true true rfl hway fun _ => rfl).commit hcareful hcommit
  refine ⟨s', hmaintained, by rw [hrec]; simp, ?_⟩
  have hstored := transCommit_storedScripts hmaintained (fileName "a")
  have hbind : (recorded s'.db (fileName "a").1).bind shipsA = some scriptsOfA := by
    rw [show (fileName "a").1 = cstr "a" from rfl, hrec, Option.bind_some, hships]
  rw [hbind] at hstored
  exact hstored

/-- `a` is installed and `b` fails: the record of `a` is taken back, its scripts stay. -/
theorem transCommit_storedScripts_left :
    ∃ mem t t' s', transPrepare (fun _ => none) (fun p => if p = 1 then bare "a" [] else bare "b" []) (dbOpen true true)
        { installPkgs := [1, 2] } = some (.ok, mem, t) ∧
      transCommit firstScripted t (blank mem) = some (.installFailed, t', s') ∧ s'.unrestored = [] ∧
      recorded s'.db (cstr "a") = none ∧
      s'.fs.get (pkgscripts ++ [fileName "a", fileName "scripts", fileName "pre-remove"]) = some (.file [1] 0o755) := by
  have hruns : ((transPrepare (fun _ => none) (fun p => if p = 1 then bare "a" [] else bare "b" []) (dbOpen true true)
      { installPkgs := [1, 2] }).bind fun r => (transCommit firstScripted r.2.2 (blank r.2.1)).map fun r' =>
        decide (r.1 = .ok ∧ r'.1 = .installFailed ∧ r'.2.2.unrestored = [] ∧ recorded r'.2.2.db (cstr "a") = none ∧
          r'.2.2.fs.get (pkgscripts ++ [fileName "a", fileName "scripts", fileName "pre-remove"]) =
            some (.file [1] 0o755))) = some true := by
    decide +kernel
  obtain ⟨⟨err, mem, t⟩, hprep, hmap⟩ := Option.bind_eq_some_iff.1 hruns
  obtain ⟨⟨err', t', s'⟩, hcommit, hfields⟩ := Option.map_eq_some_iff.1 hmap
  simp only [decide_eq_true_eq] at hfields
  obtain ⟨rfl, rfl, hlost, hrec, hleft⟩ := hfields
  exact ⟨mem, t, t', s', hprep, hcommit, hlost, hrec, hleft⟩

end Root

end Apg
