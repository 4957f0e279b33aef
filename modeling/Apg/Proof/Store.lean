import Apg.Proof.Guarded
import Apg.Proof.Scripts

/-!
# Away from the store

The store of scripts is a directory of the root like any other. A step leaves it alone if
none of the paths it comes to leads there, by whatever links there are before the step or
come in its course.

* `Spared`: what such a step leaves.
* `installInRoot_guarded`: an installation does so up to its last call, which keeps the
  scripts.
-/

namespace Apg

open Posix

namespace Root

/-! ## The store -/

/-- The path names no place in the store. -/
def Outside (links : List FileName → CStr → Prop) (S : List FileName) (path : List (Comp FileName)) : Prop :=
  ∀ q, NamesBy Bytes links path q → S <+: q → q = S

/-- The place is not in the store, nor on the way to it. -/
def Apart (S q : List FileName) : Prop := ¬q <+: S ∧ ¬S <+: q

/-- **A step with such visits keeps away from the store.** -/
structure Visits.Spares (v : Visits) (fs : Host) (S : List FileName) : Prop where
  enters : ∀ path, v.enters path → Outside (MayLink fs v) S path
  drops : ∀ path, v.drops path → Outside (MayLink fs v) S path
  clears : ∀ path, v.clears path → Outside (MayLink fs v) S path
  fills : ∀ path, v.fills path → ∀ q, NamesBy Bytes (MayLink fs v) path q → Apart S q
  opens : ∀ path, v.opens path → ∀ q, NamesBy Bytes (MayLink fs v) path q → Apart S q
  writes : ∀ path, v.writes path → ∀ q, LeadsBy Bytes (MayLink fs v) path q → Apart S q

/-- What is in the store stays as it is in `fs`, and only directories are on the way to it,
which are not taken away if they are to stay. -/
def storeGuard (links : List FileName → CStr → Prop) (S : List FileName) (fs : Host) (stays : Prop) :
    Guard FileName Bytes CStr where
  links := links
  holds q v := (S <+: q → q ≠ S → v = fs.get q) ∧
    (q <+: S → (∀ e, v = some e → e.isDir = true) ∧ (stays → q ≠ [] → v ≠ none))

/-- **What a step leaves that keeps away from the store.** -/
structure Spared (S : List FileName) (fs fs' : Host) : Prop where
  below : ∀ r, S <+: r → r ≠ S → fs'.get r = fs.get r
  way : WayTo fs' S

section

variable {S : List FileName} {fs fs' fs₁ : Host} {v : Visits} {links : List FileName → CStr → Prop} {stays : Prop}
  {path : List (Comp FileName)}

theorem storeGuard_start (hlinks : ∀ q t, fs.get q = some (.link t) → links q t) (hway : WayTo fs S)
    (hstays : stays → fs.isDirAt S = true) : (storeGuard links S fs stays).Ok fs := by
  refine ⟨hlinks, fun q => ⟨fun _ _ => rfl, fun hq => ⟨fun e he => hway q hq e he, fun hs hne hnone => ?_⟩⟩⟩
  obtain rfl | ⟨m, hm⟩ := (fs.isDirAt_iff q).1 (Fs.isDirAt_of_prefix hq (hstays hs))
  · exact hne rfl
  · rw [hnone] at hm
    cases hm

/-- The guard holds before a step with such visits. -/
theorem Visits.start (v : Visits) (hway : WayTo fs S) (hstays : stays → fs.isDirAt S = true) :
    (storeGuard (MayLink fs v) S fs stays).Ok fs :=
  storeGuard_start (fun _ _ ht => .here ht) hway hstays

theorem spared_of_ok (h : (storeGuard links S fs stays).Ok fs') : Spared S fs fs' :=
  ⟨fun r hr hne => (h.holds r).1 hr hne, fun r hr e he => ((h.holds r).2 hr).1 e he⟩

theorem isDirAt_of_ok (h : (storeGuard links S fs stays).Ok fs') (hs : stays) : fs'.isDirAt S = true := by
  rw [Fs.isDirAt_iff]
  by_cases hne : S = []
  · exact Or.inl hne
  · obtain ⟨hdir, hthere⟩ := (h.holds S).2 (List.prefix_refl S)
    obtain ⟨e, he⟩ := Option.ne_none_iff_exists'.1 (hthere hs hne)
    have hkind := hdir e he
    cases e with
    | dir m => exact Or.inr ⟨m, he⟩
    | file c m => cases hkind
    | link t => cases hkind
    | special => cases hkind

theorem Outside.hosts (h : Outside links S path) : (storeGuard links S fs stays).Hosts path := by
  intro q hq m
  refine ⟨fun hpre hne => absurd (h q hq hpre) hne, fun _ => ⟨?_, by simp⟩⟩
  rintro e he
  cases he
  rfl

theorem Outside.yields (h : Outside links S path) : (storeGuard links S fs stays).Yields path := by
  intro q hq e hkind hold
  refine ⟨fun hpre hne => absurd (h q hq hpre) hne, fun hpre => ?_⟩
  rw [(hold.2 hpre).1 e rfl] at hkind
  cases hkind

theorem Outside.empties (h : Outside links S path) (hstays : ¬stays) : (storeGuard links S fs stays).Empties path := by
  intro q hq m _
  exact ⟨fun hpre hne => absurd (h q hq hpre) hne, fun _ => ⟨by simp, fun hs => absurd hs hstays⟩⟩

theorem Apart.holds {q r : List FileName} (h : Apart S q) (hqr : q <+: r) (v : Option (Entry Bytes CStr)) :
    (storeGuard links S fs stays).holds r v := by
  obtain ⟨habove, hbelow⟩ := h
  refine ⟨fun hpre _ => ?_, fun hpre => absurd (hqr.trans hpre) habove⟩
  rcases List.prefix_or_prefix_of_prefix hqr hpre with h | h
  · exact absurd h habove
  · exact absurd h hbelow

/-- **Keeping away from the store is allowed**, also when something has been put there. -/
theorem Visits.Spares.allowed (h : v.Spares fs S) (hstays : stays → ∀ path, ¬v.clears path) :
    v.Allowed (storeGuard (MayLink fs v) S fs₁ stays) where
  enters path hp := Or.inr ⟨(h.enters path hp).hosts, (h.enters path hp).yields⟩
  drops path hp := (h.drops path hp).yields
  clears path hp := (h.clears path hp).empties fun hs => hstays hs path hp
  fills path hp q hq v := (h.fills path hp q hq).holds (List.prefix_refl q) v
  opens path hp q hq r hqr v := (h.opens path hp q hq).holds hqr v
  writes path hp q hq _ _ _ _ _ := (h.writes path hp q hq).holds (List.prefix_refl q) _
  links path t hp q hq := by
    obtain ⟨f, hf, hplace⟩ := hq
    exact .comes hp hf hplace
  moved path path' hp q r hq hr s t hlink := by
    obtain ⟨f, hf, hplace⟩ := hq
    obtain ⟨f', hf', hplace'⟩ := hr
    exact .moves hp hf hplace hf' hplace' hlink

theorem Spared.refl (hway : WayTo fs S) : Spared S fs fs := ⟨fun _ _ _ => rfl, hway⟩

/-- The directory of a package, and all below it. -/
theorem Spared.package (h : Spared S fs fs') (x : FileName) {r : List FileName} (hr : S ++ [x] <+: r) :
    fs'.get r = fs.get r := by
  refine h.below r ((List.prefix_append S [x]).trans hr) fun heq => ?_
  have := hr.length_le
  rw [heq, List.length_append, List.length_singleton] at this
  omega

end

/-! ## Installing -/

/-- An installation copies the trees; if it is taken back their entries go, and so do pipes,
sockets and devices in the places of theirs. -/
def installVisits (dirs : Dirs) (io : InstallIo) : Visits :=
  { treeVisits (Lands dirs io) with
    drops := fun path => ∃ base F q, Lands dirs io base F ∧ (q, .leaf .special) ∈ F.pieces ∧ path = base ++ names q
    clears := fun path => (treeVisits (Lands dirs io)).enters path }

section

variable {g : Guard FileName Bytes CStr} {dirs : Dirs} {io : InstallIo} {fs : Host} {base : List (Comp FileName)} {F : Forest}

theorem Visits.Allowed.takes (h : (installVisits dirs io).Allowed g) (hl : Lands dirs io base F) :
    g.Bears base ∧ ∀ y ∈ F.pieces, Takes g (base ++ names y.1) y.2 :=
  treeVisits_takes { h with drops := fun _ hp => hp.elim, clears := fun _ hp => hp.elim } hl

theorem Visits.Allowed.returns (h : (installVisits dirs io).Allowed g) (hl : Lands dirs io base F) :
    ∀ y ∈ F.pieces, Returns g (base ++ names y.1) y.2 := by
  rintro ⟨q, piece⟩ hy
  cases piece with
  | dir m => exact h.clears _ ⟨base, F, hl, Or.inr ⟨_, hy, rfl, rfl⟩⟩
  | leaf l =>
    by_cases hspecial : l = .special
    · rw [hspecial] at hy
      exact h.drops _ ⟨base, F, q, hl, hy, rfl⟩
    · exact (h.opens _ ⟨base, F, q, l, hl, hy, hspecial, rfl⟩).free.yields

/-- **What an installation leaves outside the store**: the scripts are put there when all else
has succeeded. -/
theorem installInRoot_guarded (h : (installVisits dirs io).Allowed g) (hfs : g.Ok fs) (pkgName : CStr) :
    ((installInRoot dirs io pkgName fs).ok = false ∧ g.Ok (installInRoot dirs io pkgName fs).fs) ∨
      ((installInRoot dirs io pkgName fs).ok = true ∧ io.preInstall = true ∧ io.postInstall = true ∧
        ∃ archive fs', io.archive = some archive ∧ archive.data ≠ none ∧ g.Ok fs' ∧
          (installInRoot dirs io pkgName fs).fs = scriptsPersist io.scripts archive dirs.root pkgName fs') := by
  obtain ⟨hok, hsame⟩ | ⟨archive, data, harchive, hdata, hpre, hend⟩ := installInRoot_cases dirs io pkgName fs
  · exact Or.inl ⟨hok, by rwa [hsame]⟩
  obtain ⟨hcopied, hhome⟩ := landed_ok harchive hpre hdata hfs fun _ _ hl => h.takes hl
  rcases hend with ⟨hok, hsame⟩ | ⟨hpost, hok, hsame⟩ | ⟨hpost, hok, hsame⟩
  · exact Or.inl ⟨hok, by rwa [hsame]⟩
  · refine Or.inl ⟨hok, ?_⟩
    rw [hsame]
    exact lifted_ok harchive hpre hdata hhome fun base F hl => ⟨h.clears _ ⟨base, F, hl, Or.inl rfl⟩, h.returns hl⟩
  · exact Or.inr ⟨hok, hpre, hpost, archive, _, harchive, by simp [hdata], hhome, hsame⟩

end

end Root

end Apg
