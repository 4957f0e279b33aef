import Apg.Lib.Prune

/-!
# What calls may leave

A guard says what may be at each place of a file system, and which links there may be.
Where a path leads depends on nothing but the links on its way, so it can be told ahead
to which places a path may lead while the guard holds (`Guard.Leads`). A call whose path
leads to no place where it could do harm keeps the guard, whatever else has been done
before.
-/

namespace Apg.Posix

variable {ν β τ : Type*} [LinearOrder ν]

/-- What may be at the places, and the links there may be. -/
structure Guard (ν β τ : Type*) where
  links : List ν → τ → Prop
  holds : List ν → Option (Entry β τ) → Prop

/-- With such links only, a path may name the place. -/
def NamesBy {ν τ : Type*} [LinearOrder ν] [LinkText τ ν] (β : Type*) (links : List ν → τ → Prop) (path : List (Comp ν))
    (q : List ν) : Prop :=
  ∃ fs : Fs ν β τ, (∀ q t, fs.get q = some (.link t) → links q t) ∧ locate fs path = some q

/-- With such links only, a path may lead to the place, a link at its end followed. -/
def LeadsBy {ν τ : Type*} [LinearOrder ν] [LinkText τ ν] (β : Type*) (links : List ν → τ → Prop) (path : List (Comp ν))
    (q : List ν) : Prop :=
  ∃ fs : Fs ν β τ, (∀ q t, fs.get q = some (.link t) → links q t) ∧ reach fs path = some q

namespace Guard

variable {g : Guard ν β τ} {fs fs' : Fs ν β τ} {q : List ν}

/-- **The file system is as the guard says.** -/
structure Ok (g : Guard ν β τ) (fs : Fs ν β τ) : Prop where
  links : ∀ q t, fs.get q = some (.link t) → g.links q t
  holds : ∀ q, g.holds q (fs.get q)

theorem Ok.set {e : Entry β τ} (h : g.Ok fs) (he : g.holds q (some e)) (hlink : ∀ t, e = .link t → g.links q t) :
    g.Ok (fs.set q e) := by
  by_cases hfits : fs.Fits q e
  · refine ⟨fun r t hr => ?_, fun r => ?_⟩
    · rw [Fs.get_set hfits] at hr
      split at hr
      · rename_i heq
        rw [heq]
        exact hlink t (Option.some.inj hr)
      · exact h.links r t hr
    · rw [Fs.get_set hfits]
      split
      · rename_i heq
        rw [heq]
        exact he
      · exact h.holds r
  · rw [Fs.set, dif_neg hfits]
    exact h

theorem Ok.erase (h : g.Ok fs) (hgone : ∀ r, q <+: r → fs.get r ≠ none → g.holds r none) : g.Ok (fs.erase q) := by
  refine ⟨fun r t hr => ?_, fun r => ?_⟩
  · rw [Fs.get_erase] at hr
    split at hr
    · cases hr
    · exact h.links r t hr
  · rw [Fs.get_erase]
    split
    · rename_i hqr
      by_cases hr : fs.get r = none
      · rw [← hr]
        exact h.holds r
      · exact hgone r hqr hr
    · exact h.holds r

/-- One place is emptied, with nothing below it. -/
theorem Ok.erase_one (h : g.Ok fs) (hempty : fs.emptyAt q = true) (hgone : g.holds q none) : g.Ok (fs.erase q) := by
  refine h.erase fun r hqr hr => ?_
  by_cases heq : r = q
  · rw [heq]
    exact hgone
  · exact absurd ((fs.emptyAt_iff q).1 hempty r hqr heq) hr

/-- What is moved comes to places below the new one. -/
theorem Ok.moveTree {r : List ν} (h : g.Ok fs) (hq : ∀ p, q <+: p → ∀ v, g.holds p v) (hr : ∀ p, r <+: p → ∀ v, g.holds p v)
    (hmoved : ∀ s t, g.links (q ++ s) t → g.links (r ++ s) t) : g.Ok (moveTree fs q r) := by
  unfold Posix.moveTree
  have hentries : ∀ e ∈ fs.table.entries.filter fun e => q.isPrefixOf e.1, q <+: e.1 ∧ fs.get e.1 = some e.2 := by
    rintro ⟨p, e⟩ he
    obtain ⟨hmem, hpre⟩ := List.mem_filter.1 he
    exact ⟨List.isPrefixOf_iff_prefix.1 hpre, fs.table.get_eq_some.2 hmem⟩
  have hstart : g.Ok (fs.erase q) := h.erase fun p hp _ => hq p hp none
  generalize (fs.table.entries.filter fun e => q.isPrefixOf e.1) = es at hentries
  generalize fs.erase q = acc at hstart
  induction es generalizing acc with
  | nil => exact hstart
  | cons e es ih =>
    obtain ⟨⟨s, hs⟩, hget⟩ := hentries e List.mem_cons_self
    rw [List.foldl_cons]
    refine ih (fun e' he' => hentries e' (List.mem_cons_of_mem _ he')) _ (hstart.set (hr _ (List.prefix_append r _) _) ?_)
    intro t ht
    rw [← hs, List.drop_left]
    exact hmoved s t (h.links _ t (by rw [hs, hget, ht]))

variable [LinkText τ ν] {path path' : List (Comp ν)} {mode : ℕ} {content : β}

/-! ## Where paths lead -/

/-- With such links as there may be, the path names the place. -/
def Names (g : Guard ν β τ) (path : List (Comp ν)) (q : List ν) : Prop := NamesBy β g.links path q

/-- With such links as there may be, the path leads to the place. -/
def Leads (g : Guard ν β τ) (path : List (Comp ν)) (q : List ν) : Prop := LeadsBy β g.links path q

theorem Ok.names (h : g.Ok fs) (hq : locate fs path = some q) : g.Names path q := ⟨fs, h.links, hq⟩

theorem Ok.leads (h : g.Ok fs) (hq : reach fs path = some q) : g.Leads path q := ⟨fs, h.links, hq⟩

/-- Anything may come to the place of the path, and what is there may go with all below it. -/
def Open (g : Guard ν β τ) (path : List (Comp ν)) : Prop := ∀ q, g.Names path q → ∀ r, q <+: r → ∀ v, g.holds r v

/-- Anything may come to the place of the path. -/
def Free (g : Guard ν β τ) (path : List (Comp ν)) : Prop := ∀ q, g.Names path q → ∀ v, g.holds q v

/-- A file may be written where the path leads, if nothing or a file is there. -/
def Writes (g : Guard ν β τ) (path : List (Comp ν)) : Prop :=
  ∀ q, g.Leads path q → ∀ e, way e = none → g.holds q e → ∀ c m, g.holds q (some (.file c m))

/-- There may be a directory at the place of the path. -/
def Hosts (g : Guard ν β τ) (path : List (Comp ν)) : Prop := ∀ q, g.Names path q → ∀ m, g.holds q (some (.dir m))

/-- A file or a link at the place of the path may go. -/
def Yields (g : Guard ν β τ) (path : List (Comp ν)) : Prop :=
  ∀ q, g.Names path q → ∀ e : Entry β τ, e.isDir = false → g.holds q (some e) → g.holds q none

/-- A directory at the place of the path may go when nothing is in it. -/
def Empties (g : Guard ν β τ) (path : List (Comp ν)) : Prop :=
  ∀ q, g.Names path q → ∀ m, g.holds q (some (.dir m)) → g.holds q none

/-- The path is sure to lead to a directory, or one may take the place of what is there. -/
def Bears (g : Guard ν β τ) (path : List (Comp ν)) : Prop :=
  (∀ fs : Fs ν β τ, g.Ok fs → ∃ m, stat fs path = some (.dir m)) ∨ (g.Hosts path ∧ g.Yields path)

theorem Open.free (h : g.Open path) : g.Free path := fun q hq _ => h q hq q (List.prefix_refl q) _

theorem Free.hosts (h : g.Free path) : g.Hosts path := fun q hq _ => h q hq _

theorem Free.yields (h : g.Free path) : g.Yields path := fun q hq _ _ _ => h q hq _

/-! ## Calls -/

theorem Ok.unlink (h : g.Ok fs) (hpath : g.Yields path) : g.Ok ((Posix.unlink fs path).getD fs) := by
  cases hun : Posix.unlink fs path with
  | none => exact h
  | some fs' =>
    unfold Posix.unlink at hun
    obtain ⟨q, hq, hun⟩ := Option.bind_eq_some_iff.1 hun
    have hnames := h.names hq
    have hhere := h.holds q
    have hgone : ∀ e : Entry β τ, fs.get q = some e → e.isDir = false → g.Ok (fs.erase q) := by
      intro e he hkind
      rw [he] at hhere
      refine h.erase_one (Fs.emptyAt_of_not_dir ?_) (hpath q hnames e hkind hhere)
      refine Fs.isDirAt_eq_false (fun hnil => ?_) fun m hm => ?_
      · rw [hnil, Fs.get_top] at he
        cases he
      · rw [he] at hm
        cases hm
        cases hkind
    cases hget : fs.get q with
    | none =>
      rw [hget] at hun
      cases hun
    | some e =>
      rw [hget] at hun
      cases e with
      | dir m => cases hun
      | file c m => rw [← Option.some.inj hun]; exact hgone _ hget rfl
      | link t => rw [← Option.some.inj hun]; exact hgone _ hget rfl
      | special => rw [← Option.some.inj hun]; exact hgone _ hget rfl

theorem Ok.rmdir (h : g.Ok fs) (hpath : g.Empties path) : g.Ok ((Posix.rmdir fs path).getD fs) := by
  cases hrm : Posix.rmdir fs path with
  | none => exact h
  | some fs' =>
    unfold Posix.rmdir at hrm
    obtain ⟨q, hq, hrm⟩ := Option.bind_eq_some_iff.1 hrm
    have hhere := h.holds q
    split at hrm
    · rename_i m hm
      split at hrm
      · rename_i hempty
        rw [← Option.some.inj hrm]
        rw [hm] at hhere
        exact h.erase_one hempty (hpath q (h.names hq) m hhere)
      · cases hrm
    · cases hrm

theorem Ok.create {e : Entry β τ} (h : g.Ok fs) (he : ∀ q, g.Names path q → g.holds q (some e))
    (hlink : ∀ q t, g.Names path q → e = .link t → g.links q t) (hc : create fs path e = some fs') : g.Ok fs' := by
  unfold Posix.create at hc
  obtain ⟨q, hq, hc⟩ := Option.bind_eq_some_iff.1 hc
  have hnames := h.names hq
  split at hc
  · rw [← Option.some.inj hc]
    exact h.set (he q hnames) fun t => hlink q t hnames
  · cases hc

theorem Ok.mkdir (h : g.Ok fs) (hpath : g.Hosts path) (hm : mkdir fs path mode = some fs') : g.Ok fs' :=
  h.create (fun q hq => hpath q hq mode) (by simp) hm

theorem Ok.symlink {t : τ} (h : g.Ok fs) (hpath : g.Free path) (hlink : ∀ q, g.Names path q → g.links q t)
    (hs : symlink fs t path = some fs') : g.Ok fs' := by
  refine h.create (fun q hq => hpath q hq _) (fun q u hq hu => ?_) hs
  cases hu
  exact hlink q hq

/-- A file is written where the path leads. -/
theorem Ok.writeFile (h : g.Ok fs) (hpath : g.Writes path) (hw : writeFile fs path content mode = some fs') : g.Ok fs' := by
  obtain ⟨q, m, hq, -, hway, rfl⟩ := writeFile_cases hw
  exact h.set (hpath q (h.leads hq) _ hway (h.holds q) _ _) (by simp)

/-- A file is written at the place of the path, where no link is. -/
theorem Ok.writeFile_here (h : g.Ok fs) (hpath : g.Free path)
    (hlink : ∀ q, locate fs path = some q → ∀ t, fs.get q ≠ some (.link t))
    (hw : Posix.writeFile fs path content mode = some fs') : g.Ok fs' := by
  obtain ⟨q, m, hq, hne, hway, rfl⟩ := writeFile_cases hw
  have hdir : fs.isDirAt q = false := Fs.isDirAt_eq_false hne fun m hm => by
    rw [hm] at hway
    cases hway
  exact h.set (hpath q (h.names (locate_of_reach hq hdir hlink)) _) (by simp)

theorem Ok.chmod (h : g.Ok fs) (hdir : ∀ q m, reach fs path = some q → fs.get q = some (.dir m) → g.holds q (some (.dir mode)))
    (hfile : ∀ q c m, reach fs path = some q → fs.get q = some (.file c m) → g.holds q (some (.file c mode)))
    (hc : chmod fs path mode = some fs') : g.Ok fs' := by
  unfold Posix.chmod at hc
  obtain ⟨q, hq, hc⟩ := Option.bind_eq_some_iff.1 hc
  split at hc
  · rename_i m hm
    rw [← Option.some.inj hc]
    exact h.set (hdir q m hq hm) (by simp)
  · rename_i c m hm
    rw [← Option.some.inj hc]
    exact h.set (hfile q c m hq hm) (by simp)
  · cases hc

theorem Ok.removeTree (h : g.Ok fs) (hpath : g.Open path) : g.Ok (removeTree fs path) := by
  unfold Posix.removeTree
  split
  · exact h
  · cases hq : locate fs path with
    | none => exact h
    | some q => exact h.erase fun r hr _ => hpath q (h.names hq) r hr none
  · exact h.unlink hpath.free.yields

/-- `rename` takes what is at one path to the other, with the links below it. -/
theorem Ok.rename (h : g.Ok fs) (hpath : g.Open path) (hpath' : g.Open path')
    (hmoved : ∀ q r, g.Names path q → g.Names path' r → ∀ s t, g.links (q ++ s) t → g.links (r ++ s) t)
    (hr : rename fs path path' = some fs') : g.Ok fs' := by
  unfold Posix.rename at hr
  obtain ⟨q, hq, hr⟩ := Option.bind_eq_some_iff.1 hr
  obtain ⟨r, hr', hr⟩ := Option.bind_eq_some_iff.1 hr
  have hopen := hpath q (h.names hq)
  have hopen' := hpath' r (h.names hr')
  have hlinks := hmoved q r (h.names hq) (h.names hr')
  have hone : ∀ e : Entry β τ, fs.get q = some e → g.Ok ((fs.erase q).set r e) := by
    intro e he
    refine (h.erase fun p hp _ => hopen p hp none).set (hopen' r (List.prefix_refl r) _) fun t ht => ?_
    have hsame := hlinks [] t
    rw [List.append_nil, List.append_nil] at hsame
    exact hsame (h.links q t (by rw [he, ht]))
  split at hr
  · obtain ⟨e, -, rfl⟩ := Option.map_eq_some_iff.1 hr
    exact h
  · split at hr
    · cases hr
    · split at hr
      · cases hr
      · rw [← Option.some.inj hr]
        exact h.moveTree hopen hopen' hlinks
    · split at hr
      · cases hr
      · rw [← Option.some.inj hr]
        exact (h.erase fun p hp _ => hopen' p hp none).moveTree hopen hopen' hlinks
    · cases hr
    · cases hr
    · rw [← Option.some.inj hr]
      exact hone _ (by assumption)

end Guard

end Apg.Posix
