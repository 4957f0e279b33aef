import Apg.Lib.Prune
import Apg.Proof.Paths
import Apg.Proof.Rollback
import Apg.Spec.Root

/-!
# The store of scripts

What one call does to the store, for one package: copying its scripts in, taking them
away, saving and restoring them. Each of the calls keeps to the directory of its package,
and to those on the way.

* `rmtree_names`: **`rmtree` takes away what is at and below its place.**
* `copyDir_copied`: **what a copy leaves that is not refused.**
* `scriptsPersist_stored`, `restoreScripts_stored`: **the scripts that are kept then.**
-/

namespace Apg

open Posix

namespace Root

/-! ## Taking a directory away -/

section

variable {fs fs' : Host} {q : List FileName}

/-- No link at or below the place leads to a directory. -/
def NoDirLinks (fs : Host) (q : List FileName) : Prop :=
  ∀ r t, q <+: r → fs.get r = some (.link t) → ∀ m, stat fs (names r) ≠ some (.dir m)

theorem NoDirLinks.of_less (h : NoDirLinks fs q) (hless : Less fs' fs) : NoDirLinks fs' q :=
  fun r t hr ht m hm => h r t hr (hless r _ ht) m (stat_dir_of_less hless hm)

theorem NoDirLinks.below {r : List FileName} (h : NoDirLinks fs q) (hqr : q <+: r) : NoDirLinks fs r :=
  fun p t hp => h p t (hqr.trans hp)

/-- What is left when the entries of some names are taken away. -/
theorem foldl_erase_get (q r : List FileName) : ∀ (xs : List FileName) (fs : Host),
    (xs.foldl (fun fs x => fs.erase (q ++ [x])) fs).get r = if ∃ x ∈ xs, q ++ [x] <+: r then none else fs.get r := by
  intro xs
  induction xs with
  | nil => intro fs; simp
  | cons x xs ih =>
    intro fs
    rw [List.foldl_cons, ih, Fs.get_erase]
    simp only [List.exists_mem_cons_iff]
    by_cases hx : q ++ [x] <+: r
    · simp only [hx, if_true, true_or, ite_self]
    · simp only [hx, if_false, false_or]

/-- **`rmtree` takes a directory away**, with everything below it and nothing else, if no
link below it leads to a directory. -/
theorem rmtree_names : ∀ (n : ℕ) (q : List FileName) (fs : Host), q ≠ [] → fs.isDirAt q.dropLast = true →
    NoDirLinks fs q → (∀ r, q <+: r → fs.get r ≠ none → r.length < q.length + n) →
    rmtree n (names q) fs = fs.erase q := by
  intro n
  induction n with
  | zero =>
    intro q fs hq _ _ hfuel
    have hnone : fs.get q = none := by
      by_contra h
      have := hfuel q (List.prefix_refl q) h
      omega
    rw [erase_eq_self hnone hq]
    rfl
  | succ n ih =>
    intro q fs hq hparent hlinks hfuel
    -- anything but a directory is unlinked
    have hleaf : (∀ m, fs.get q ≠ some (.dir m)) → (∀ m, stat fs (names q) ≠ some (.dir m)) →
        rmtree (n + 1) (names q) fs = fs.erase q := by
      intro hno hstat
      rw [← unlink_getD hq hparent hno, rmtree]
      split
      · rename_i m hm
        exact absurd hm (hstat m)
      · rfl
    by_cases hd : ∃ m, fs.get q = some (.dir m)
    swap
    · have hno : ∀ m, fs.get q ≠ some (.dir m) := fun m hm => hd ⟨m, hm⟩
      refine hleaf hno fun m hm => ?_
      by_cases hlink : ∃ t, fs.get q = some (.link t)
      · obtain ⟨t, ht⟩ := hlink
        exact hlinks q t (List.prefix_refl q) ht m hm
      · have hnolink := noLinks_of_parent hparent fun t ht => hlink ⟨t, ht⟩
        rw [stat_names hnolink, entryAt_of_ne fs hq] at hm
        exact hno m hm
    obtain ⟨m, hm⟩ := hd
    have hdir : fs.isDirAt q = true := Fs.isDirAt_of_get hm
    have hnolinks : NoLinks fs q := NoLinks.of_isDirAt hdir
    have hstat : stat fs (names q) = some (.dir m) := by rw [stat_names hnolinks, entryAt_of_ne fs hq, hm]
    have hreach : reach fs (names q) = some q := by rw [reach_names hnolinks, if_pos hparent]
    -- the entries go one by one
    have hfold : ∀ (xs : List FileName) (f : Host), Less f fs → f.isDirAt q = true →
        xs.foldl (fun f x => rmtree n (names q ++ [.name x]) f) f = xs.foldl (fun f x => f.erase (q ++ [x])) f := by
      intro xs
      induction xs with
      | nil => intro f _ _; rfl
      | cons x xs ihx =>
        intro f hless hfd
        have hpath : names q ++ [Comp.name x] = names (q ++ [x]) := (names_append q [x]).symm
        have hone : rmtree n (names (q ++ [x])) f = f.erase (q ++ [x]) := by
          refine ih (q ++ [x]) f (by simp) (by rw [List.dropLast_concat]; exact hfd) ?_ ?_
          · exact (hlinks.of_less hless).below (List.prefix_append q [x])
          · intro r hr hget
            obtain ⟨e, he⟩ := Option.ne_none_iff_exists'.1 hget
            have hlt := hfuel r ((List.prefix_append q [x]).trans hr) (by rw [hless r e he]; simp)
            rw [List.length_append, List.length_singleton]
            omega
        rw [List.foldl_cons, List.foldl_cons, hpath, hone]
        refine ihx _ ((Less.erase f _).trans hless) ?_
        have hout : ¬q ++ [x] <+: q := fun h => by
          have := h.length_le
          rw [List.length_append, List.length_singleton] at this
          omega
        rw [Fs.isDirAt_erase hout]
        exact hfd
    rw [rmtree, hstat, hreach]
    simp only [Option.map_some, Option.getD_some]
    rw [hfold (list fs q) fs (Less.refl fs) hdir]
    have hleft := fun r => foldl_erase_get q r (list fs q) fs
    generalize (list fs q).foldl (fun f x => f.erase (q ++ [x])) fs = f at hleft
    -- and then there is nothing in it
    have hhere : f.get q = some (.dir m) := by
      rw [hleft, if_neg, hm]
      rintro ⟨x, -, hx⟩
      have := hx.length_le
      rw [List.length_append, List.length_singleton] at this
      omega
    have hempty : f.emptyAt q = true := by
      refine (f.emptyAt_iff q).2 fun r hr hne => ?_
      rw [hleft]
      obtain ⟨s, rfl⟩ := hr
      cases s with
      | nil => exact absurd (List.append_nil q) hne
      | cons x s =>
        have hpre : q ++ [x] <+: q ++ x :: s := ⟨s, by simp⟩
        by_cases hx : fs.get (q ++ [x]) = none
        · have hbelow := none_below (by simp) hx hpre
          rw [hbelow, ite_self]
        · rw [if_pos ⟨x, mem_list.2 hx, hpre⟩]
    have hfd : f.isDirAt q.dropLast = true := Fs.isDirAt_dropLast (by rw [hhere]; simp)
    have hrmdir : rmdir f (names q) = some (f.erase q) := by
      rcases rmdir_names (NoLinks.of_isDirAt hfd) with ⟨m', -, -, h⟩ | ⟨h, -⟩
      · exact h
      · rw [h m hhere] at hempty; cases hempty
    rw [hrmdir, Option.getD_some]
    refine Fs.ext_get fun r => ?_
    rw [Fs.get_erase, Fs.get_erase]
    split
    · rfl
    · rename_i hr
      rw [hleft, if_neg]
      rintro ⟨x, -, hx⟩
      exact hr ((List.prefix_append q [x]).trans hx)

end

/-! ## Reading a directory -/

/-- An entry as a copy takes it. -/
def pieceOf : Entry Bytes CStr → Piece
  | .dir mode => .dir mode
  | .file content mode => .leaf (.file content mode)
  | .link target => .leaf (.link target)
  | .special => .leaf .special

section

variable {fs fs' : Host} {q : List FileName}

theorem mem_readNames {below : FileName → Forest} {path : List FileName} {piece : Piece} : ∀ {xs : List FileName},
    (path, piece) ∈ (readNames fs q below xs).pieces ↔ ∃ x ∈ xs, ∃ e, fs.get (q ++ [x]) = some e ∧
      (path = [x] ∧ piece = pieceOf e ∨ e.isDir = true ∧ ∃ p, (p, piece) ∈ (below x).pieces ∧ path = x :: p) := by
  intro xs
  induction xs with
  | nil => simp [readNames, Forest.pieces]
  | cons x xs ih =>
    rw [List.exists_mem_cons_iff, ← ih, readNames]
    cases hget : fs.get (q ++ [x]) with
    | none => simp
    | some e =>
      cases e with
      | dir m =>
        simp only [Forest.pieces, List.cons_append, List.mem_cons, List.mem_append, List.mem_map, Option.some.injEq,
          exists_eq_left', Entry.isDir, pieceOf, Prod.mk.injEq, true_and, or_assoc, Prod.exists]
        refine or_congr_right (or_congr_left ?_)
        constructor
        · rintro ⟨p, a, hmem, rfl, rfl⟩
          exact ⟨p, hmem, rfl⟩
        · rintro ⟨p, hmem, rfl⟩
          exact ⟨p, piece, hmem, rfl, rfl⟩
      | file c m => simp [Forest.pieces, Entry.isDir, pieceOf]
      | link t => simp [Forest.pieces, Entry.isDir, pieceOf]
      | special => simp [Forest.pieces, Entry.isDir, pieceOf]

/-- A directory is read entry by entry, as deep as the fuel goes. -/
theorem mem_readItems (fs : Host) {piece : Piece} : ∀ (n : ℕ) (q path : List FileName),
    (path, piece) ∈ (readItems fs n q).pieces ↔
      path ≠ [] ∧ path.length ≤ n ∧ (fs.get (q ++ path)).map pieceOf = some piece := by
  intro n
  induction n with
  | zero =>
    intro q path
    cases path <;> simp [readItems, Forest.pieces]
  | succ n ih =>
    intro q path
    rw [readItems, mem_readNames]
    constructor
    · rintro ⟨x, -, e, he, ⟨rfl, rfl⟩ | ⟨-, p, hp, rfl⟩⟩
      · exact ⟨by simp, by simp, by rw [he]; rfl⟩
      · obtain ⟨-, hlen, hget⟩ := (ih _ _).1 hp
        rw [List.append_assoc] at hget
        exact ⟨by simp, by simpa using hlen, hget⟩
    · rintro ⟨hne, hlen, hget⟩
      obtain ⟨x, p, rfl⟩ := List.exists_cons_of_ne_nil hne
      obtain ⟨e, he, rfl⟩ := Option.map_eq_some_iff.1 hget
      by_cases hp : p = []
      · subst hp
        exact ⟨x, mem_list.2 (by rw [he]; simp), e, he, Or.inl ⟨rfl, rfl⟩⟩
      · -- there is a directory above
        have hpre : q ++ [x] <+: q ++ x :: p := ⟨p, by simp⟩
        have hd := Fs.isDirAt_above hpre (by simpa using Ne.symm hp) (by rw [he]; simp)
        obtain hnil | ⟨m, hm⟩ := (fs.isDirAt_iff _).1 hd
        · simp at hnil
        · refine ⟨x, mem_list.2 (by rw [hm]; simp), .dir m, hm, Or.inr ⟨rfl, p, (ih _ _).2 ⟨hp, ?_, ?_⟩, rfl⟩⟩
          · simpa using hlen
          · rw [List.append_assoc, List.singleton_append, he]
            rfl

/-- **A directory as it is read**: its entries are those below the place. -/
theorem readFolder_names (hlinks : NoLinks fs q) (hd : fs.isDirAt q = true) : ∃ folder, readFolder fs (names q) = some folder ∧
    ∀ path piece, (path, piece) ∈ folder.items.pieces ↔ path ≠ [] ∧ (fs.get (q ++ path)).map pieceOf = some piece := by
  have hreach : reach fs (names q) = some q := by
    rw [reach_names hlinks, if_pos (Fs.isDirAt_of_prefix (List.dropLast_prefix q) hd)]
  obtain ⟨m, hm⟩ : ∃ m, entryAt fs q = some (.dir m) := by
    obtain rfl | ⟨m, hm⟩ := (fs.isDirAt_iff q).1 hd
    · exact ⟨_, rfl⟩
    · unfold entryAt
      split
      · exact ⟨_, rfl⟩
      · exact ⟨m, hm⟩
  unfold readFolder
  rw [hreach, Option.bind_some, hm]
  refine ⟨_, rfl, fun path piece => ?_⟩
  rw [mem_readItems]
  refine and_congr_right fun _ => ⟨fun h => h.2, fun h => ⟨?_, h⟩⟩
  obtain ⟨e, he, -⟩ := Option.map_eq_some_iff.1 h
  have hne : fs.get (q ++ path) ≠ none := by
    rw [he]
    simp
  have hlen := length_le_entries hne
  rw [List.length_append] at hlen
  omega

end

/-! ## Copies that are not refused -/

section

variable {io : CopyIo} {fs : Host} {q : List FileName}

theorem laid_ok (io : CopyIo) (cur : Option (Entry Bytes CStr)) (piece : Piece) : (laid io .none cur piece).1 = true := by
  cases piece with
  | leaf l => cases l <;> rfl
  | dir mode =>
    simp only [laid]
    split
    · rename_i h
      cases h
    · split <;> rfl

theorem goesOn_ok (hio : ∀ k, io.fault k = .none) (fs : Host) (D : List FileName) :
    ∀ (ps : List (List FileName × Piece)) (k : ℕ), goesOn io fs D k ps = true := by
  intro ps
  induction ps with
  | nil => intro k; rfl
  | cons y ps ih =>
    intro k
    rw [goesOn, hio, laid_ok, ih]
    rfl

/-- What a copy into a directory leaves, if nothing is refused. -/
structure Copied (fs : Host) (q : List FileName) (F : Forest) (fs' : Host) : Prop where
  dir : fs'.isDirAt q = true
  stands : ∀ y ∈ F.pieces, Stands fs' (q ++ y.1) y.2
  away : ∀ r, ¬q <+: r → fs'.get r = fs.get r
  own : ∀ r, q <+: r → fs'.get r ≠ none →
    r = q ∨ fs.get r ≠ none ∨ ∃ y ∈ F.pieces, y.2 ≠ .leaf .special ∧ r = q ++ y.1

theorem copyItems_copied (hio : ∀ k, io.fault k = .none) {F : Forest} (hF : F.distinct = true) (hplain : Plain fs q F)
    (k : ℕ) : Copied fs q F (copyItems io F (names q) ⟨k, fs⟩).2.fs := by
  have hok : (copyItems io F (names q) ⟨k, fs⟩).1 = true := by
    rw [copyItems_eq, layAll_goesOn hF F.pieces [] k fs rfl hplain (by simp) fun _ _ => rfl, goesOn_ok hio]
  have hstep : ∀ (f f' : Host) (path : List FileName) (e : Option (Entry Bytes CStr)),
      (∀ r, ¬q <+: r → f.get r = fs.get r) → Lays f (q ++ path) e f' → ∀ r, ¬q <+: r → f'.get r = fs.get r := by
    intro f f' path e hI hlays r hr
    rw [← hI r hr]
    exact hlays.away r fun h => hr ((List.prefix_append q path).trans h)
  obtain ⟨haway, hplain', hstands⟩ : (∀ r, ¬q <+: r → (copyItems io F (names q) ⟨k, fs⟩).2.fs.get r = fs.get r) ∧
      Plain (copyItems io F (names q) ⟨k, fs⟩).2.fs q F ∧
      ((copyItems io F (names q) ⟨k, fs⟩).1 = true → ∀ y ∈ F.pieces, Stands (copyItems io F (names q) ⟨k, fs⟩).2.fs (q ++ y.1) y.2) :=
    copyItems_keeps hF hplain (fun f f' path _ _ hI _ _ _ hlays => hstep f f' path _ hI hlays) fun r _ => rfl
  have hown := copyItems_own io (W := fun r => fs.get r = none) hF hplain (fun _ h => h) k
  have hspecial : ∀ path, (path, Piece.leaf .special) ∈ F.pieces →
      (copyItems io F (names q) ⟨k, fs⟩).2.fs.get (q ++ path) = fs.get (q ++ path) :=
    fun path hmem => copyItems_special io hF hplain hmem k
  refine ⟨hplain'.dir, hstands hok, haway, fun r hr hget => ?_⟩
  right
  by_cases hnone : fs.get r = none
  · right
    obtain ⟨e, he⟩ := Option.ne_none_iff_exists'.1 hget
    obtain ⟨⟨path, piece⟩, hmem, rfl, -⟩ := hown r e hnone he
    refine ⟨_, hmem, ?_, rfl⟩
    -- nothing comes to the place of an entry that is passed over
    rintro rfl
    rw [hspecial path hmem] at hget
    exact hget hnone
  · exact Or.inl hnone

/-- **A directory that is copied without a refusal**, to a place where nothing is or a
directory. -/
theorem copyDir_copied (hio : ∀ k, io.fault k = .none) (src : Folder) (hq : q ≠ []) (hparent : fs.isDirAt q.dropLast = true)
    (hcur : ∀ e, fs.get q = some e → e.isDir = true)
    (hlinks : ∀ path m, (path, Piece.dir m) ∈ src.items.pieces → ∀ t, fs.get (q ++ path) ≠ some (.link t)) :
    Copied fs q src.items (copyDir io src (names q) fs).2 := by
  by_cases hd : fs.isDirAt q = true
  · rw [copyDir_there src hd, if_neg (by simp [hio])]
    exact copyItems_copied hio src.distinct ⟨hd, hlinks⟩ 1
  · have hno : ∀ m, fs.get q ≠ some (.dir m) := fun m hm => hd (Fs.isDirAt_of_get hm)
    have hnone : fs.get q = none := by
      by_contra h
      obtain ⟨e, he⟩ := Option.ne_none_iff_exists'.1 h
      have hdir := hcur e he
      cases e with
      | dir m => exact hno m he
      | _ => cases hdir
    -- it is made first
    obtain ⟨fs₁, hmake, hlays⟩ := makeDst_names hq hparent hno src.mode 0 (by rw [hio]; simp)
    rw [erase_eq_self hnone hq, hio, laid_ok] at hmake
    have hhere : fs₁.isDirAt q = true := by
      obtain ⟨m, hm⟩ := laid_dir (laid_ok io (fs.get q) (.dir src.mode))
      rw [hio, hm] at hlays
      exact Fs.isDirAt_of_get hlays.here
    have hbelow : ∀ r, q <+: r → r ≠ q → fs₁.get r = none := by
      intro r hr hne
      rw [hlays.below_dir hq hr hne]
      exact get_below hq hno hr hne
    have hplain : Plain fs₁ q src.items := by
      refine ⟨hhere, fun path m hmem t ht => ?_⟩
      rw [hbelow _ (List.prefix_append q path) (by simpa using Forest.path_ne_nil hmem)] at ht
      cases ht
    have hcopied := copyItems_copied hio src.distinct hplain 1
    have heq : (copyDir io src (names q) fs).2 = (copyItems io src.items (names q) ⟨1, fs₁⟩).2.fs := by
      unfold copyDir
      rw [hmake]
    rw [heq]
    refine ⟨hcopied.dir, hcopied.stands, fun r hr => (hcopied.away r hr).trans (hlays.away r hr), fun r hr hget => ?_⟩
    rcases hcopied.own r hr hget with h | h | h
    · exact Or.inl h
    · by_cases hne : r = q
      · exact Or.inl hne
      · exact absurd (hbelow r hr hne) h
    · exact Or.inr (Or.inr h)

end

/-! ## The scripts of a package -/

theorem scripts_name : cstr "scripts" ≠ [] ∧ cstr "scripts" ≠ cstr "." ∧ cstr "scripts" ≠ cstr ".." ∧
    CChar.slash ∉ cstr "scripts" := by
  decide

/-- Where the scripts of a package are kept, `q` being its directory in the store. -/
def scriptsAt (q : List FileName) : List FileName := q ++ [fileName "scripts" scripts_name]

/-- The directory of a package has exactly the scripts of the folder. -/
structure Holds (fs : Host) (q : List FileName) (scripts : Folder) : Prop where
  dir : fs.isDirAt (scriptsAt q) = true
  stands : ∀ y ∈ scripts.items.pieces, Stands fs (scriptsAt q ++ y.1) y.2
  only : ∀ r, q <+: r → fs.get r ≠ none →
    r = q ∨ r = scriptsAt q ∨ ∃ y ∈ scripts.items.pieces, y.2 ≠ .leaf .special ∧ r = scriptsAt q ++ y.1

/-- There are exactly these scripts, if there are any, and nothing if there are none. -/
def Stored (fs : Host) (q : List FileName) : Option Folder → Prop
  | none => fs.get q = none
  | some scripts => Holds fs q scripts

/-- Copying the scripts leaves exactly these: what is there already comes with them, or gives
way to a file or a link of theirs, and none of their directories finds a link in its place. -/
def Covers (fs : Host) (q : List FileName) : Option Folder → Prop
  | none => fs.get q = none
  | some scripts =>
    (∀ path m, (path, Piece.dir m) ∈ scripts.items.pieces → ∀ t, fs.get (scriptsAt q ++ path) ≠ some (.link t)) ∧
      ∀ r, q <+: r → fs.get r ≠ none → r = q ∨ r = scriptsAt q ∨ ∃ y ∈ scripts.items.pieces,
        y.2 ≠ .leaf .special ∧ (r = scriptsAt q ++ y.1 ∨ y.2.isDir = false ∧ scriptsAt q ++ y.1 <+: r)

/-- **One version's scripts take the place of another's**: there are none to be replaced, or
each of them is there again, or under a file or a link that is new, and no directory comes
to where a link was. -/
def Replaces : Option Folder → Option Folder → Prop
  | none, _ => True
  | some _, none => False
  | some old, some scripts =>
    (∀ path m, (path, Piece.dir m) ∈ scripts.items.pieces → ∀ t, (path, Piece.leaf (.link t)) ∉ old.items.pieces) ∧
      ∀ y ∈ old.items.pieces, y.2 ≠ .leaf .special → ∃ z ∈ scripts.items.pieces,
        z.2 ≠ .leaf .special ∧ (y.1 = z.1 ∨ z.2.isDir = false ∧ z.1 <+: y.1)

/-- Nothing but directories is on the way to the place, and at it. -/
def WayTo (fs : Host) (q : List FileName) : Prop := ∀ r, r <+: q → ∀ e, fs.get r = some e → e.isDir = true

section

variable {fs fs' : Host} {q : List FileName} {root : CStr} {x : FileName}

theorem scriptsAt_below (q : List FileName) : q <+: scriptsAt q := ⟨[fileName "scripts"], rfl⟩

theorem scriptsAt_ne_nil (q : List FileName) : scriptsAt q ≠ [] := by simp [scriptsAt]

theorem WayTo.above {r : List FileName} (h : WayTo fs q) (hr : r <+: q) : WayTo fs r := fun p hp => h p (hp.trans hr)

theorem WayTo.noLinks (h : WayTo fs q) : NoLinks fs q := by
  intro r hr t ht
  cases h r hr _ ht

theorem WayTo.of_isDirAt (h : fs.isDirAt q = true) : WayTo fs q := by
  intro r hr e he
  obtain rfl | ⟨m, hm⟩ := (fs.isDirAt_iff r).1 (Fs.isDirAt_of_prefix hr h)
  · rw [Fs.get_top] at he
    cases he
  · rw [he] at hm
    cases hm
    rfl

/-- What is on the way is there, or nothing is at the end. -/
theorem WayTo.here (h : WayTo fs q) : (∃ m, fs.get q = some (.dir m)) ∨ fs.get q = none := by
  cases hget : fs.get q with
  | none => exact Or.inr rfl
  | some e =>
    have hdir := h q (List.prefix_refl q) e hget
    cases e with
    | dir m => exact Or.inl ⟨m, rfl⟩
    | file c m => cases hdir
    | link t => cases hdir
    | special => cases hdir

theorem Stored.congr {scripts : Option Folder} (h : Stored fs q scripts) (hsame : ∀ r, q <+: r → fs'.get r = fs.get r) :
    Stored fs' q scripts := by
  cases scripts with
  | none => exact (hsame _ (List.prefix_refl _)).trans h
  | some G =>
    have hbelow : ∀ path, q <+: scriptsAt q ++ path :=
      fun path => (scriptsAt_below q).trans (List.prefix_append _ path)
    refine ⟨?_, fun y hy => (h.stands y hy).congr (hsame _ (hbelow y.1)), fun r hr hget => ?_⟩
    · have hd := h.dir
      rw [Fs.isDirAt_iff] at hd ⊢
      rwa [hsame _ (scriptsAt_below q)]
    · rw [hsame r hr] at hget
      exact h.only r hr hget

/-- What is kept is in its directory. -/
theorem Stored.cur {scripts : Option Folder} (h : Stored fs q scripts) (hq : q ≠ []) {e : Entry Bytes CStr}
    (he : fs.get (scriptsAt q) = some e) : e.isDir = true := by
  cases scripts with
  | none =>
    have hnone : fs.get q = none := h
    rw [none_below hq hnone (scriptsAt_below q)] at he
    cases he
  | some G =>
    obtain hnil | ⟨m, hm⟩ := (fs.isDirAt_iff _).1 h.dir
    · exact absurd hnil (scriptsAt_ne_nil q)
    · rw [he] at hm
      cases hm
      rfl

/-- The directory of a package is one. -/
theorem Stored.top {scripts : Option Folder} (h : Stored fs q scripts) {e : Entry Bytes CStr} (he : fs.get q = some e) :
    e.isDir = true := by
  cases scripts with
  | none =>
    have hnone : fs.get q = none := h
    rw [hnone] at he
    cases he
  | some G => exact WayTo.of_isDirAt (Fs.isDirAt_of_prefix (scriptsAt_below q) h.dir) q (List.prefix_refl q) e he

/-- The links that are kept are links of the scripts. -/
theorem Holds.link {scripts : Folder} (h : Holds fs q scripts) {r : List FileName} {t : CStr} (hr : q <+: r)
    (hlink : fs.get r = some (.link t)) : ∃ path, (path, Piece.leaf (.link t)) ∈ scripts.items.pieces ∧
      r = scriptsAt q ++ path := by
  have hway := WayTo.of_isDirAt h.dir
  rcases h.only r hr (by rw [hlink]; simp) with rfl | rfl | ⟨⟨path, piece⟩, hy, hspecial, rfl⟩
  · cases hway _ (scriptsAt_below _) _ hlink
  · cases hway _ (List.prefix_refl _) _ hlink
  · refine ⟨path, ?_, rfl⟩
    cases piece with
    | dir m =>
      obtain ⟨m', hm'⟩ := h.stands _ hy
      rw [hlink] at hm'
      cases hm'
    | leaf l =>
      cases l with
      | special => exact absurd rfl hspecial
      | file c m =>
        have hfile : fs.get (scriptsAt q ++ path) = some (.file c m) := h.stands _ hy
        rw [hlink] at hfile
        cases hfile
      | link u =>
        have hsame : fs.get (scriptsAt q ++ path) = some (.link u) := h.stands _ hy
        rw [hlink] at hsame
        cases hsame
        exact hy

/-- The scripts that are kept are covered by those that take their place. -/
theorem Stored.covers {old scripts : Option Folder} (h : Stored fs q old) (hq : q ≠ []) (hr : Replaces old scripts) :
    Covers fs q scripts := by
  cases old with
  | none =>
    have hnone : fs.get q = none := h
    cases scripts with
    | none => exact hnone
    | some F =>
      refine ⟨fun path m _ t ht => ?_, fun r hr hget => absurd (none_below hq hnone hr) hget⟩
      rw [none_below hq hnone ((scriptsAt_below q).trans (List.prefix_append _ path))] at ht
      cases ht
  | some G =>
    cases scripts with
    | none => exact hr.elim
    | some F =>
      obtain ⟨hlinks, hagain⟩ := hr
      refine ⟨fun path m hmem t ht => ?_, fun r hr hget => ?_⟩
      · obtain ⟨path', hmem', hplace⟩ := Holds.link h ((scriptsAt_below q).trans (List.prefix_append _ path)) ht
        rw [List.append_cancel_left hplace] at hmem
        exact hlinks path' m hmem t hmem'
      · rcases Holds.only h r hr hget with h | h | ⟨y, hy, hspecial, rfl⟩
        · exact Or.inl h
        · exact Or.inr (Or.inl h)
        · obtain ⟨z, hz, hordinary, hplace⟩ := hagain y hy hspecial
          refine Or.inr (Or.inr ⟨z, hz, hordinary, ?_⟩)
          rcases hplace with heq | ⟨hleaf, hpre⟩
          · exact Or.inl (by rw [heq])
          · exact Or.inr ⟨hleaf, append_prefix_append.2 hpre⟩

/-! ## The calls -/

/-- `var/lib/apg/pkgscripts`. -/
def pkgscripts : List FileName := [fileName "var", fileName "lib", fileName "apg", fileName "pkgscripts"]

theorem comps_pkgscripts : comps (cstr "var/lib/apg/pkgscripts") = names pkgscripts := by decide +kernel

/-- The directory of the store. -/
def StoreAt (rootPath : CStr) (S : List FileName) : Prop :=
  comps (concatDirs rootPath (cstr "var/lib/apg/pkgscripts")) = names S

/-- The store is below the root. -/
theorem storeAt_root {D : List FileName} (hroot : comps root = names D) : StoreAt root (D ++ pkgscripts) := by
  unfold StoreAt
  rw [concatDirs_eq, comps_squeeze, comps_join, hroot, comps_pkgscripts, names_append]

/-- Where the directory of a package is, `S` being that of the store. -/
theorem scriptsStorePath_names {S : List FileName} (hroot : StoreAt root S) (x : FileName) : scriptsStorePath root x.1 = names (S ++ [x]) := by
  unfold scriptsStorePath
  rw [comps_concatDirs, show comps _ = names S from hroot, names_append]
  rfl

/-- The directories on the way are made unless they are there. -/
theorem mkdirP_names (h : WayTo fs q) : (mkdirP (names q) fs).isDirAt q = true ∧
    ∀ r, ¬r <+: q → (mkdirP (names q) fs).get r = fs.get r := by
  induction q using List.reverseRecOn with
  | nil => exact ⟨Fs.isDirAt_top _, fun _ _ => rfl⟩
  | append_singleton q x ih =>
    obtain ⟨hdir, hsame⟩ := ih (h.above (List.prefix_append q [x]))
    have hmk : mkdirP (names (q ++ [x])) fs =
        if (stat (mkdirP (names q) fs) (names (q ++ [x]))).isSome then mkdirP (names q) fs
        else (mkdir (mkdirP (names q) fs) (names (q ++ [x])) 0o755).getD (mkdirP (names q) fs) := by
      have hinits : (names (q ++ [x])).inits.tail = (names q).inits.tail ++ [names (q ++ [x])] := by
        have hne : (names q).inits ≠ [] := List.ne_nil_of_mem ((List.mem_inits [] _).2 (List.nil_prefix))
        rw [names_append, List.inits_append, List.tail_append_of_ne_nil hne]
        rfl
      unfold mkdirP
      rw [hinits, List.foldl_append]
      rfl
    have hlong : ¬q ++ [x] <+: q := fun hpre => by
      have := hpre.length_le
      rw [List.length_append, List.length_singleton] at this
      omega
    have hhere := hsame (q ++ [x]) hlong
    rw [hmk]
    generalize mkdirP (names q) fs = f at hdir hsame hhere
    have hparent : f.isDirAt (q ++ [x]).dropLast = true := by rwa [List.dropLast_concat]
    have hne : q ++ [x] ≠ [] := by simp
    rcases h.here with ⟨m, hm⟩ | hnone
    · rw [← hhere] at hm
      have hd : f.isDirAt (q ++ [x]) = true := Fs.isDirAt_of_get hm
      rw [stat_names (NoLinks.of_isDirAt hd), entryAt_of_ne _ hne, hm]
      exact ⟨hd, fun r hr => hsame r fun hpre => hr (hpre.trans (List.prefix_append q [x]))⟩
    · rw [← hhere] at hnone
      have hlinks : NoLinks f (q ++ [x]) := noLinks_of_parent hparent (by rw [hnone]; simp)
      have hfits : f.Fits (q ++ [x]) (.dir 0o755) := Fs.fits_of_not_dir hne hparent (by rw [hnone]; simp) _
      rw [stat_names hlinks, entryAt_of_ne _ hne, hnone, if_neg (by simp), mkdir,
        create_names (hlinks.above (List.dropLast_prefix _)) hne, if_pos ⟨hparent, hnone⟩, Option.getD_some]
      refine ⟨Fs.isDirAt_of_get (m := 0o755) ?_, fun r hr => ?_⟩
      · exact (Fs.get_set hfits _).trans (if_pos rfl)
      · have hne' : r ≠ q ++ [x] := fun heq => hr (by rw [heq])
        rw [Fs.get_set hfits, if_neg hne']
        exact hsame r fun hpre => hr (hpre.trans (List.prefix_append q [x]))

/-- `scripts_persist` makes the directories on the way, and copies the scripts. -/
theorem scriptsPersist_copied {io : CopyIo} {archive : Archive} {name : CStr} {F : Folder}
    (hpath : scriptsStorePath root name = names q) (hio : ∀ k, io.fault k = .none) (hway : WayTo fs (scriptsAt q))
    (hscripts : archive.scripts = some F)
    (hlinks : ∀ path m, (path, Piece.dir m) ∈ F.items.pieces → ∀ t, fs.get (scriptsAt q ++ path) ≠ some (.link t)) :
    ∃ fs₁ : Host, (∀ r, ¬r <+: q → fs₁.get r = fs.get r) ∧
      Copied fs₁ (scriptsAt q) F.items (scriptsPersist io archive root name fs) := by
  have hbase : names q ++ [Comp.name (fileName "scripts")] = names (scriptsAt q) :=
    (names_append q [fileName "scripts"]).symm
  obtain ⟨hmade, hsame⟩ := mkdirP_names (hway.above (scriptsAt_below q))
  have hlong : ∀ path, ¬scriptsAt q ++ path <+: q := fun path h => by
    have := h.length_le
    simp only [scriptsAt, List.length_append, List.length_singleton] at this
    omega
  refine ⟨mkdirP (names q) fs, hsame, ?_⟩
  unfold scriptsPersist
  simp only [hscripts, hpath, hbase]
  refine copyDir_copied hio F (scriptsAt_ne_nil q) (by rw [scriptsAt, List.dropLast_concat]; exact hmade) (fun e he => ?_)
    fun path m hmem t => by rw [hsame _ (hlong path)]; exact hlinks path m hmem t
  rw [hsame _ (by simpa using hlong [])] at he
  exact hway _ (List.prefix_refl _) e he

/-- **`scripts_persist` leaves the scripts of the new version**, if what is there is covered
by them. -/
theorem scriptsPersist_stored {io : CopyIo} {archive : Archive} {old : Option Folder} {name : CStr}
    (hpath : scriptsStorePath root name = names q) (hq : q ≠ []) (hio : ∀ k, io.fault k = .none) (hway : WayTo fs q)
    (hold : Stored fs q old) (hcov : Covers fs q archive.scripts) :
    Stored (scriptsPersist io archive root name fs) q archive.scripts ∧
      WayTo (scriptsPersist io archive root name fs) q ∧
      ∀ r, ¬r <+: q → ¬q <+: r → (scriptsPersist io archive root name fs).get r = fs.get r := by
  cases hscripts : archive.scripts with
  | none =>
    have hnothing : scriptsPersist io archive root name fs = fs := by
      unfold scriptsPersist
      rw [hscripts]
    rw [hscripts] at hcov
    rw [hnothing]
    exact ⟨hcov, hway, fun _ _ _ => rfl⟩
  | some F =>
    rw [hscripts] at hcov
    obtain ⟨hlinks, hcov⟩ := hcov
    have hway' : WayTo fs (scriptsAt q) := by
      intro r hr e he
      rcases List.prefix_concat_iff.1 hr with rfl | hr
      · exact hold.cur hq he
      · exact hway r hr e he
    obtain ⟨fs₁, hsame, hcopied⟩ := scriptsPersist_copied hpath hio hway' hscripts hlinks
    have hdir : (scriptsPersist io archive root name fs).isDirAt q = true :=
      Fs.isDirAt_of_prefix (scriptsAt_below q) hcopied.dir
    refine ⟨⟨hcopied.dir, hcopied.stands, fun r hr hget => ?_⟩, WayTo.of_isDirAt hdir, fun r habove hr => ?_⟩
    · by_cases hx : r = q
      · exact Or.inl hx
      right
      have hbelow : ¬r <+: q := fun h => hx (h.eq_of_length (le_antisymm h.length_le hr.length_le))
      -- what was there is covered
      have hcovered : fs.get r ≠ none → r = scriptsAt q ∨
          ∃ y ∈ F.items.pieces, y.2 ≠ .leaf .special ∧ r = scriptsAt q ++ y.1 := by
        intro hr'
        rcases hcov r hr hr' with h | h | ⟨y, hy, hspecial, h | ⟨hleaf, hpre⟩⟩
        · exact absurd h hx
        · exact Or.inl h
        · exact Or.inr ⟨y, hy, hspecial, h⟩
        · refine Or.inr ⟨y, hy, hspecial, ?_⟩
          by_contra hne'
          have hstands := hcopied.stands y hy
          obtain ⟨path, piece⟩ := y
          refine hget (get_below (by simp [scriptsAt]) (fun m hm => ?_) hpre hne')
          cases piece with
          | dir m' => cases hleaf
          | leaf l =>
            cases l with
            | file c m' => rw [hstands] at hm; cases hm
            | link t => rw [hstands] at hm; cases hm
            | special => exact hspecial rfl
      by_cases hbase : scriptsAt q <+: r
      · rcases hcopied.own r hbase hget with h | h | h
        · exact Or.inl h
        · rw [hsame r hbelow] at h
          exact hcovered h
        · exact Or.inr h
      · rw [hcopied.away r hbase, hsame r hbelow] at hget
        exact hcovered hget
    · rw [hcopied.away r fun h => hr ((scriptsAt_below q).trans h), hsame r habove]

/-- **`scripts_persist_remove` takes the directory of the package away.** -/
theorem scriptsPersistRemove_eq {name : CStr} (hpath : scriptsStorePath root name = names q) (hq : q ≠ []) (hway : WayTo fs q)
    (h : NoDirLinks fs q) : scriptsPersistRemove root name fs = fs.erase q := by
  unfold scriptsPersistRemove
  rw [hpath]
  by_cases hparent : fs.isDirAt q.dropLast = true
  · refine rmtree_names _ q fs hq hparent h fun r _ hget => ?_
    have hlen := length_le_entries hget
    have hmul : fs.table.entries.length + 1 ≤ (fs.table.entries.length + 1) * (maxLinks + 1) :=
      Nat.le_mul_of_pos_right _ (by simp)
    omega
  · have hnone : fs.get q = none := by
      by_contra hget
      exact hparent (Fs.isDirAt_dropLast hget)
    have hmul : (fs.table.entries.length + 1) * (maxLinks + 1) = (fs.table.entries.length + 1) * maxLinks +
        fs.table.entries.length + 1 := by ring
    rw [hmul, rmtree, stat_names hway.noLinks, entryAt_of_ne _ hq, hnone]
    rcases unlink_names (hway.noLinks.above (List.dropLast_prefix q)) with ⟨e, he, -⟩ | ⟨-, hun⟩
    · rw [hnone] at he
      cases he
    · simp only [hun, Option.getD_none]
      exact (erase_eq_self hnone hq).symm

theorem removeTree_names (hway : WayTo fs q) (hq : q ≠ []) : removeTree fs (names q) = fs.erase q := by
  have hlinks : NoLinks fs q.dropLast := hway.noLinks.above (List.dropLast_prefix q)
  unfold removeTree
  rw [lstat_names hlinks, entryAt_of_ne _ hq]
  rcases hway.here with ⟨m, hm⟩ | hnone
  · rw [hm]
    simp only
    rw [locate_names hlinks, if_pos (Fs.isDirAt_dropLast (by rw [hm]; simp))]
    rfl
  · rw [hnone]
    exact (erase_eq_self hnone hq).symm

/-- A copy of the scripts that was made when exactly these were kept. -/
def Saves (saved : Option Folder) (q : List FileName) (scripts : Option Folder) : Prop :=
  ∃ fs : Host, Stored fs q scripts ∧ WayTo fs q ∧ readFolder fs (names q) = saved

theorem readFolder_none (hway : WayTo fs q) (hq : q ≠ []) (h : fs.get q = none) : readFolder fs (names q) = none := by
  unfold readFolder
  rw [reach_names hway.noLinks]
  split
  · rw [Option.bind_some, entryAt_of_ne _ hq, h]
  · rfl

/-- What is read of a store that has the scripts, once it is copied to an empty place. -/
theorem Holds.of_copied {scripts folder : Folder} {fresh : Host} (h : Holds fs q scripts)
    (hread : readFolder fs (names q) = some folder) (hfresh : ∀ r, q <+: r → fresh.get r = none)
    (hcopied : Copied fresh q folder.items fs') : Holds fs' q scripts := by
  have hdirx : fs.isDirAt q = true := Fs.isDirAt_of_prefix (scriptsAt_below q) h.dir
  obtain ⟨folder', hread', hpieces⟩ := readFolder_names (NoLinks.of_isDirAt hdirx) hdirx
  rw [hread, Option.some.injEq] at hread'
  subst hread'
  -- an entry of the store is copied
  have hcopy : ∀ {path e}, path ≠ [] → fs.get (q ++ path) = some e → Stands fs' (q ++ path) (pieceOf e) :=
    fun {path e} hne he => hcopied.stands (path, pieceOf e) ((hpieces path _).2 ⟨hne, by rw [he]; rfl⟩)
  have hassoc : ∀ path, scriptsAt q ++ path = q ++ (fileName "scripts" :: path) := fun path => by simp [scriptsAt]
  refine ⟨?_, fun y hy => ?_, fun r hr hget => ?_⟩
  · obtain hnil | ⟨m, hm⟩ := (fs.isDirAt_iff _).1 h.dir
    · exact absurd hnil (scriptsAt_ne_nil q)
    · obtain ⟨m', hm'⟩ := hcopy (List.cons_ne_nil _ _) hm
      exact Fs.isDirAt_of_get hm'
  · obtain ⟨path, piece⟩ := y
    have hstands := h.stands _ hy
    have hne : fileName "scripts" :: path ≠ [] := by simp
    rw [hassoc] at hstands ⊢
    cases piece with
    | dir m =>
      obtain ⟨m', hm'⟩ := hstands
      exact hcopy hne hm'
    | leaf l =>
      cases l with
      | file c m => exact hcopy hne hstands
      | link t => exact hcopy hne hstands
      | special => trivial
  · rcases hcopied.own r hr hget with hx | hold | ⟨⟨path, piece⟩, hy, -, rfl⟩
    · exact Or.inl hx
    · exact absurd (hfresh r hr) hold
    · obtain ⟨-, he⟩ := (hpieces path piece).1 hy
      obtain ⟨e, he, -⟩ := Option.map_eq_some_iff.1 he
      exact h.only _ hr (by rw [he]; simp)

/-- **The scripts of a backup come back**, and nothing else is left in the directory of the
package, if that of the store is there. -/
theorem restoreScripts_stored {io : CopyIo} {dirs : Dirs} {backup : UpgradeBackup} {scripts : Option Folder}
    (hpath : scriptsStorePath dirs.root (backup.previous.metadata.name.getD []) = names q) (hq : q ≠ [])
    (hio : ∀ k, io.fault k = .none) (hway : WayTo fs q) (hparent : backup.scripts ≠ none → fs.isDirAt q.dropLast = true)
    (hsaves : Saves backup.scripts q scripts) :
    Stored (restoreScripts io dirs backup fs) q scripts ∧ ∀ r, ¬q <+: r → (restoreScripts io dirs backup fs).get r = fs.get r := by
  obtain ⟨before, hstored, hbefore, hread⟩ := hsaves
  have hgone : ∀ r, q <+: r → (fs.erase q).get r = none := fun r hr => by rw [Fs.get_erase, if_pos hr]
  have hother : ∀ r, ¬q <+: r → (fs.erase q).get r = fs.get r := fun r hr => by rw [Fs.get_erase, if_neg hr]
  unfold restoreScripts
  simp only [hpath, removeTree_names hway hq]
  cases hbackup : backup.scripts with
  | none =>
    rw [hbackup] at hread
    refine ⟨?_, hother⟩
    cases scripts with
    | none => exact hgone _ (List.prefix_refl _)
    | some G =>
      -- then there was a directory to be saved
      have hd : before.isDirAt q = true := Fs.isDirAt_of_prefix (scriptsAt_below q) hstored.dir
      obtain ⟨folder, hfolder, -⟩ := readFolder_names (NoLinks.of_isDirAt hd) hd
      rw [hread] at hfolder
      cases hfolder
  | some folder =>
    rw [hbackup] at hread
    have hparent' : (fs.erase q).isDirAt q.dropLast = true := by
      rw [Fs.isDirAt_erase (not_prefix_dropLast hq)]
      exact hparent (by rw [hbackup]; simp)
    have hcopied : Copied (fs.erase q) q folder.items (copyDir io folder (names q) (fs.erase q)).2 :=
      copyDir_copied hio folder hq hparent' (fun e he => by rw [hgone _ (List.prefix_refl _)] at he; cases he)
        fun path m _ t ht => by rw [hgone _ (List.prefix_append _ path)] at ht; cases ht
    refine ⟨?_, fun r hr => (hcopied.away r hr).trans (hother r hr)⟩
    cases scripts with
    | none =>
      rw [readFolder_none hbefore hq hstored] at hread
      cases hread
    | some G => exact Holds.of_copied hstored hread hgone hcopied

end

end Root

end Apg
