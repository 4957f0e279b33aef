import Apg.Lib.Table

/-!
# A file system with links

Places are canonical: the names on the way from the top, through real directories.
A path is resolved step by step; a link on the way, or at the end where a call follows
it, is replaced by its target. Permissions are left out: a call fails only for what is
at the places it looks at.

* `reach_names`, `locate_names`: **a path without links on the way is its own place**,
  if its directory is there.
* one lemma for each call says what it does along such a path.
-/

namespace Apg.Posix

/-- A component of a path: `.` and empty ones are left out. -/
inductive Comp (ν : Type*)
  | name (n : ν)
  | up
  deriving DecidableEq

/-- A path of names only. -/
def names {ν : Type*} (q : List ν) : List (Comp ν) := q.map .name

@[simp] theorem names_nil {ν : Type*} : names ([] : List ν) = [] := rfl

theorem names_append {ν : Type*} (q r : List ν) : names (q ++ r) = names q ++ names r := List.map_append

theorem not_prefix_dropLast {ν : Type*} {q : List ν} (hq : q ≠ []) : ¬ q <+: q.dropLast := by
  intro h
  have hle := h.length_le
  have hpos := List.length_pos_iff.2 hq
  rw [List.length_dropLast] at hle
  omega

/-- What can be at a place. `special` is a device, a socket or a pipe. -/
inductive Entry (β τ : Type*)
  | dir (mode : ℕ)
  | file (content : β) (mode : ℕ)
  | link (target : τ)
  | special
  deriving DecidableEq

def Entry.isDir {β τ : Type*} : Entry β τ → Bool
  | .dir _ => true
  | _ => false

/-- A directory at the place: the top is always one. -/
def dirIn {ν β τ : Type*} [LinearOrder ν] (t : Table (List ν) (Entry β τ)) (q : List ν) : Bool :=
  q = [] || ((t.get q).map Entry.isDir).getD false

/-- Everything below the top directory. What is at a place is in a directory. -/
structure Fs (ν β τ : Type*) [LinearOrder ν] where
  table : Table (List ν) (Entry β τ)
  top : table.get [] = none
  tree : ∀ q x, table.get (q ++ [x]) ≠ none → dirIn table q = true

variable {ν β τ : Type*} [LinearOrder ν]

namespace Fs

def empty : Fs ν β τ := ⟨.empty, rfl, fun _ _ h => absurd rfl h⟩

def get (fs : Fs ν β τ) (q : List ν) : Option (Entry β τ) := fs.table.get q

def isDirAt (fs : Fs ν β τ) (q : List ν) : Bool := dirIn fs.table q

/-- No entry is below the place. -/
def emptyAt (fs : Fs ν β τ) (q : List ν) : Bool := fs.table.entries.all fun e => !(q.isPrefixOf e.1 && e.1 ≠ q)

/-- An entry can be put at the place: it is in a directory, and only a directory has
something below it. -/
def Fits (fs : Fs ν β τ) (q : List ν) (e : Entry β τ) : Prop :=
  q ≠ [] ∧ fs.isDirAt q.dropLast = true ∧ (e.isDir = true ∨ fs.emptyAt q = true)

instance (fs : Fs ν β τ) (q : List ν) (e : Entry β τ) : Decidable (fs.Fits q e) := inferInstanceAs (Decidable (_ ∧ _))

end Fs

theorem dirIn_iff (t : Table (List ν) (Entry β τ)) (q : List ν) :
    dirIn t q = true ↔ q = [] ∨ ∃ m, t.get q = some (.dir m) := by
  unfold dirIn
  cases h : t.get q with
  | none => simp
  | some e => cases e <;> simp [Entry.isDir]

theorem Fs.emptyAt_iff (fs : Fs ν β τ) (q : List ν) :
    fs.emptyAt q = true ↔ ∀ r, q <+: r → r ≠ q → fs.get r = none := by
  unfold emptyAt
  rw [List.all_eq_true]
  constructor
  · intro h r hqr hne
    by_contra hr
    obtain ⟨e, he⟩ := Option.ne_none_iff_exists'.1 hr
    have hall := h (r, e) (fs.table.get_eq_some.1 he)
    have hpre := List.isPrefixOf_iff_prefix.2 hqr
    simp [hpre, hne] at hall
  · rintro h ⟨r, e⟩ hmem
    by_contra hc
    simp only [Bool.not_eq_true, Bool.not_eq_false', Bool.and_eq_true, List.isPrefixOf_iff_prefix,
      decide_eq_true_eq] at hc
    have := h r hc.1 hc.2
    rw [Fs.get, fs.table.get_eq_some.2 hmem] at this
    exact absurd this (by simp)

namespace Fs

/-- An entry is put at a place where it fits. -/
def set (fs : Fs ν β τ) (q : List ν) (e : Entry β τ) : Fs ν β τ :=
  if h : fs.Fits q e then
    { table := fs.table.put q e
      top := by rw [Table.get_put, if_neg h.1.symm]; exact fs.top
      tree := by
        intro r x hrx
        rw [dirIn_iff, Table.get_put]
        by_cases hr : r = q
        · -- something is below `q`, so `e` is a directory
          right
          subst hr
          rw [if_pos rfl]
          have hne : r ++ [x] ≠ r := by simp
          rw [Table.get_put, if_neg hne] at hrx
          rcases h.2.2 with hd | hemp
          · cases e <;> simp_all [Entry.isDir]
          · exact absurd ((fs.emptyAt_iff r).1 hemp (r ++ [x]) (List.prefix_append _ _) hne) hrx
        · rw [if_neg hr, ← dirIn_iff]
          by_cases hq : r ++ [x] = q
          · rw [← hq] at h
            simpa [isDirAt] using h.2.1
          · rw [Table.get_put, if_neg hq] at hrx
            exact fs.tree r x hrx }
  else fs

/-- A place and everything below it is gone. -/
def erase (fs : Fs ν β τ) (q : List ν) : Fs ν β τ where
  table := fs.table.keep fun r => !q.isPrefixOf r
  top := by rw [Table.get_keep, fs.top]; split <;> rfl
  tree := by
    intro r x hrx
    rw [Table.get_keep] at hrx
    split at hrx
    · rename_i hkeep
      have hr : q.isPrefixOf r = false := by
        rw [Bool.eq_false_iff, Ne, List.isPrefixOf_iff_prefix]
        intro hq
        have : q <+: r ++ [x] := hq.trans (List.prefix_append _ _)
        rw [← List.isPrefixOf_iff_prefix] at this
        simp [this] at hkeep
      have := fs.tree r x hrx
      rw [dirIn_iff] at this ⊢
      rw [Table.get_keep, hr]
      simpa using this
    · exact absurd rfl hrx

theorem isDirAt_iff (fs : Fs ν β τ) (q : List ν) : fs.isDirAt q = true ↔ q = [] ∨ ∃ m, fs.get q = some (.dir m) :=
  dirIn_iff _ _

@[simp] theorem isDirAt_top (fs : Fs ν β τ) : fs.isDirAt [] = true := (fs.isDirAt_iff []).2 (Or.inl rfl)

@[simp] theorem get_top (fs : Fs ν β τ) : fs.get [] = none := fs.top

theorem isDirAt_of_get {fs : Fs ν β τ} {q : List ν} {m : ℕ} (h : fs.get q = some (.dir m)) : fs.isDirAt q = true :=
  (fs.isDirAt_iff q).2 (Or.inr ⟨m, h⟩)

/-- Everything is in a directory. -/
theorem isDirAt_dropLast {fs : Fs ν β τ} {q : List ν} (h : fs.get q ≠ none) : fs.isDirAt q.dropLast = true := by
  cases q using List.reverseRecOn with
  | nil => exact absurd fs.top h
  | append_singleton q x => rw [List.dropLast_concat]; exact fs.tree q x h

/-- The directories on the way to a directory. -/
theorem isDirAt_of_prefix {fs : Fs ν β τ} {p q : List ν} (hpq : p <+: q) (h : fs.isDirAt q = true) :
    fs.isDirAt p = true := by
  obtain ⟨r, rfl⟩ := hpq
  induction r using List.reverseRecOn with
  | nil => rwa [List.append_nil] at h
  | append_singleton r x ih =>
    apply ih
    rw [← List.append_assoc] at h
    obtain h | ⟨m, hm⟩ := (fs.isDirAt_iff _).1 h
    · exact absurd h (by simp)
    · exact fs.tree _ x (by rw [← Fs.get, hm]; simp)

/-- What is above something is a directory. -/
theorem isDirAt_above {fs : Fs ν β τ} {p q : List ν} (hpq : p <+: q) (hne : p ≠ q) (h : fs.get q ≠ none) :
    fs.isDirAt p = true := by
  refine isDirAt_of_prefix ?_ (isDirAt_dropLast h)
  obtain ⟨r, rfl⟩ := hpq
  have hr : r ≠ [] := by rintro rfl; exact hne (by simp)
  rw [List.dropLast_append_of_ne_nil hr]
  exact List.prefix_append _ _

theorem get_set {fs : Fs ν β τ} {q : List ν} {e : Entry β τ} (h : fs.Fits q e) (r : List ν) :
    (fs.set q e).get r = if r = q then some e else fs.get r := by
  unfold set Fs.get
  rw [dif_pos h, Table.get_put]
  split_ifs <;> rfl

theorem get_erase (fs : Fs ν β τ) (q r : List ν) : (fs.erase q).get r = if q <+: r then none else fs.get r := by
  unfold erase Fs.get
  rw [Table.get_keep]
  by_cases h : q <+: r
  · have hp := List.isPrefixOf_iff_prefix.2 h
    rw [if_pos h, if_neg (by simp [hp])]
  · have hp : q.isPrefixOf r = false := by
      rw [Bool.eq_false_iff, Ne, List.isPrefixOf_iff_prefix]; exact h
    rw [if_neg h, if_pos (by simp [hp])]

theorem eq_none_below {fs : Fs ν β τ} {p q : List ν} (hp : fs.isDirAt p = false) (hpq : p <+: q) (hne : p ≠ q) :
    fs.get q = none := by
  by_contra h
  rw [isDirAt_above hpq hne h] at hp
  cases hp

/-- Only a directory has something below it. -/
theorem emptyAt_of_not_dir {fs : Fs ν β τ} {q : List ν} (h : fs.isDirAt q = false) : fs.emptyAt q = true :=
  (fs.emptyAt_iff q).2 fun _ hr hne => eq_none_below h hr hne.symm

theorem isDirAt_eq_false {fs : Fs ν β τ} {q : List ν} (hq : q ≠ []) (h : ∀ m, fs.get q ≠ some (.dir m)) :
    fs.isDirAt q = false := by
  rw [Bool.eq_false_iff, Ne, isDirAt_iff]
  rintro (rfl | ⟨m, hm⟩)
  · exact hq rfl
  · exact h m hm

/-- Anything fits where there is no directory. -/
theorem fits_of_not_dir {fs : Fs ν β τ} {q : List ν} (hq : q ≠ []) (hd : fs.isDirAt q.dropLast = true)
    (h : ∀ m, fs.get q ≠ some (.dir m)) (e : Entry β τ) : fs.Fits q e :=
  ⟨hq, hd, Or.inr (emptyAt_of_not_dir (isDirAt_eq_false hq h))⟩

theorem isDirAt_erase {fs : Fs ν β τ} {q r : List ν} (h : ¬ q <+: r) : (fs.erase q).isDirAt r = fs.isDirAt r := by
  rw [Bool.eq_iff_iff, isDirAt_iff, isDirAt_iff, get_erase, if_neg h]

theorem fits_erase {fs : Fs ν β τ} {q : List ν} (hq : q ≠ []) (hd : fs.isDirAt q.dropLast = true) (e : Entry β τ) :
    (fs.erase q).Fits q e := by
  refine fits_of_not_dir hq ?_ ?_ e
  · rw [isDirAt_erase (not_prefix_dropLast hq)]; exact hd
  · intro m hm
    rw [get_erase, if_pos (List.prefix_refl q)] at hm
    cases hm

/-- **File systems with the same entries are equal.** -/
theorem ext_get {fs fs' : Fs ν β τ} (h : ∀ q, fs.get q = fs'.get q) : fs = fs' := by
  have htable : fs.table = fs'.table := Table.ext_get h
  cases fs; cases fs'; simpa using htable

end Fs

/-! ## Resolving paths -/

/-- Nothing on the way to the place, and not the place itself, is a link. -/
def NoLinks (fs : Fs ν β τ) (q : List ν) : Prop := ∀ p, p <+: q → ∀ t, fs.get p ≠ some (.link t)

theorem NoLinks.above {fs : Fs ν β τ} {p q : List ν} (h : NoLinks fs q) (hpq : p <+: q) : NoLinks fs p :=
  fun r hr => h r (hr.trans hpq)

/-- A directory is reached through directories. -/
theorem NoLinks.of_isDirAt {fs : Fs ν β τ} {q : List ν} (h : fs.isDirAt q = true) : NoLinks fs q := by
  intro p hp t ht
  obtain rfl | ⟨m, hm⟩ := (fs.isDirAt_iff p).1 (Fs.isDirAt_of_prefix hp h)
  · rw [Fs.get_top] at ht; cases ht
  · rw [hm] at ht; cases ht

/-- How the target of a link is read: whether it starts at the top, and its components. -/
class LinkText (τ : Type*) (ν : outParam Type*) where
  read : τ → Bool × List (Comp ν)

variable [LinkText τ ν]

/-- Follow a path to its end; `next` goes on at a link. The last name need not exist. -/
def reachIn (fs : Fs ν β τ) (next : List ν → List (Comp ν) → Option (List ν)) :
    List ν → List (Comp ν) → Option (List ν)
  | cur, [] => some cur
  | cur, .up :: cs => reachIn fs next cur.dropLast cs
  | cur, .name x :: cs =>
    match fs.get (cur ++ [x]) with
    | some (.dir _) => reachIn fs next (cur ++ [x]) cs
    | some (.link t) =>
      let (top, target) := LinkText.read t
      next (if top then [] else cur) (target ++ cs)
    | _ => if cs = [] then some (cur ++ [x]) else none

/-- At most `n` links are followed. -/
def reachN (fs : Fs ν β τ) : ℕ → List ν → List (Comp ν) → Option (List ν)
  | 0 => reachIn fs fun _ _ => none
  | n + 1 => reachIn fs (reachN fs n)

/-- The links that one path may lead through. -/
def maxLinks : ℕ := 40

/-- The place a path leads to, links at its end followed. -/
def reach (fs : Fs ν β τ) (path : List (Comp ν)) : Option (List ν) := reachN fs maxLinks [] path

/-- The place a path names, a link at its end not followed. -/
def locate (fs : Fs ν β τ) (path : List (Comp ν)) : Option (List ν) :=
  match path.getLast? with
  | some (.name x) => ((reach fs path.dropLast).filter (fs.isDirAt ·)).map (· ++ [x])
  | _ => (reach fs path).filter (fs.isDirAt ·)

theorem reachIn_names (fs : Fs ν β τ) (next : List ν → List (Comp ν) → Option (List ν)) : ∀ (q cur : List ν),
    fs.isDirAt cur = true → NoLinks fs (cur ++ q) →
    reachIn fs next cur (names q) = if fs.isDirAt (cur ++ q).dropLast then some (cur ++ q) else none := by
  intro q
  induction q with
  | nil =>
    intro cur hcur _
    rw [List.append_nil, if_pos (Fs.isDirAt_of_prefix (List.dropLast_prefix _) hcur)]
    rfl
  | cons x q ih =>
    intro cur hcur hlinks
    have hassoc : cur ++ x :: q = cur ++ [x] ++ q := by simp
    -- a name that is no directory ends the way
    have hstop : fs.isDirAt (cur ++ [x]) = false →
        (if names q = [] then some (cur ++ [x]) else none) =
          if fs.isDirAt (cur ++ x :: q).dropLast then some (cur ++ x :: q) else none := by
      intro hno
      cases q with
      | nil => rw [List.dropLast_concat, if_pos hcur, names_nil, if_pos rfl]
      | cons y q =>
        rw [if_neg (by simp [names]), if_neg]
        intro hd
        have hpre : cur ++ [x] <+: (cur ++ x :: y :: q).dropLast := by
          rw [hassoc, List.dropLast_append_of_ne_nil (by simp)]
          exact List.prefix_append _ _
        rw [Fs.isDirAt_of_prefix hpre hd] at hno
        cases hno
    have hdir : fs.isDirAt (cur ++ [x]) = true ↔ ∃ m, fs.get (cur ++ [x]) = some (.dir m) := by
      rw [Fs.isDirAt_iff]; simp
    show reachIn fs next cur (.name x :: names q) = _
    rw [reachIn]
    cases hget : fs.get (cur ++ [x]) with
    | none => exact hstop (by rw [Bool.eq_false_iff, Ne, hdir, hget]; simp)
    | some e =>
      cases e with
      | dir m =>
        rw [hassoc] at hlinks ⊢
        exact ih _ (hdir.2 ⟨m, hget⟩) hlinks
      | link t => exact absurd hget (hlinks _ (by simp) t)
      | file c m => exact hstop (by rw [Bool.eq_false_iff, Ne, hdir, hget]; simp)
      | special => exact hstop (by rw [Bool.eq_false_iff, Ne, hdir, hget]; simp)

/-- **A path without links is its own place.** -/
theorem reach_names {fs : Fs ν β τ} {q : List ν} (h : NoLinks fs q) :
    reach fs (names q) = if fs.isDirAt q.dropLast then some q else none :=
  reachIn_names fs _ q [] fs.isDirAt_top h

/-- **A path without links on the way names its own place.** -/
theorem locate_names {fs : Fs ν β τ} {q : List ν} (h : NoLinks fs q.dropLast) :
    locate fs (names q) = if fs.isDirAt q.dropLast then some q else none := by
  cases q using List.reverseRecOn with
  | nil => rfl
  | append_singleton q x =>
    rw [List.dropLast_concat] at h ⊢
    have hpath : names (q ++ [x]) = names q ++ [.name x] := names_append _ _
    unfold locate
    rw [hpath, List.getLast?_concat, List.dropLast_concat]
    show ((reach fs (names q)).filter _).map _ = _
    rw [reach_names h]
    by_cases hd : fs.isDirAt q = true
    · rw [if_pos hd, if_pos (Fs.isDirAt_of_prefix (List.dropLast_prefix _) hd)]
      simp [hd]
    · rw [if_neg hd]
      split <;> simp [hd]

/-! ## Calls -/

/-- What is at a place, the top included. -/
def entryAt (fs : Fs ν β τ) (q : List ν) : Option (Entry β τ) := if q = [] then some (.dir 0o755) else fs.get q

omit [LinkText τ ν] in
theorem entryAt_of_ne (fs : Fs ν β τ) {q : List ν} (hq : q ≠ []) : entryAt fs q = fs.get q := if_neg hq

def lstat (fs : Fs ν β τ) (path : List (Comp ν)) : Option (Entry β τ) := (locate fs path).bind (entryAt fs)

def stat (fs : Fs ν β τ) (path : List (Comp ν)) : Option (Entry β τ) := (reach fs path).bind (entryAt fs)

def unlink (fs : Fs ν β τ) (path : List (Comp ν)) : Option (Fs ν β τ) :=
  (locate fs path).bind fun q =>
    match fs.get q with
    | none | some (.dir _) => none
    | some _ => some (fs.erase q)

/-- Something new at a place where nothing is. -/
def create (fs : Fs ν β τ) (path : List (Comp ν)) (e : Entry β τ) : Option (Fs ν β τ) :=
  (locate fs path).bind fun q => if entryAt fs q = none then some (fs.set q e) else none

def mkdir (fs : Fs ν β τ) (path : List (Comp ν)) (mode : ℕ) : Option (Fs ν β τ) := create fs path (.dir mode)

def symlink (fs : Fs ν β τ) (target : τ) (path : List (Comp ν)) : Option (Fs ν β τ) := create fs path (.link target)

def rmdir (fs : Fs ν β τ) (path : List (Comp ν)) : Option (Fs ν β τ) :=
  (locate fs path).bind fun q =>
    match fs.get q with
    | some (.dir _) => if fs.emptyAt q then some (fs.erase q) else none
    | _ => none

def chmod (fs : Fs ν β τ) (path : List (Comp ν)) (mode : ℕ) : Option (Fs ν β τ) :=
  (reach fs path).bind fun q =>
    match fs.get q with
    | some (.dir _) => some (fs.set q (.dir mode))
    | some (.file c _) => some (fs.set q (.file c mode))
    | _ => none

/-- The content of a regular file is replaced; a file that was not there gets the mode. -/
def writeFile (fs : Fs ν β τ) (path : List (Comp ν)) (content : β) (mode : ℕ) : Option (Fs ν β τ) :=
  (reach fs path).bind fun q =>
    match entryAt fs q with
    | none => some (fs.set q (.file content mode))
    | some (.file _ old) => some (fs.set q (.file content old))
    | _ => none

def readFile (fs : Fs ν β τ) (path : List (Comp ν)) : Option β :=
  (reach fs path).bind fun q =>
    match fs.get q with
    | some (.file c _) => some c
    | _ => none

/-- What is at and below `q` is moved to `r`. -/
def moveTree (fs : Fs ν β τ) (q r : List ν) : Fs ν β τ :=
  (fs.table.entries.filter fun e => q.isPrefixOf e.1).foldl (fun acc e => acc.set (r ++ e.1.drop q.length) e.2) (fs.erase q)

def rename (fs : Fs ν β τ) (path path' : List (Comp ν)) : Option (Fs ν β τ) :=
  (locate fs path).bind fun q =>
    (locate fs path').bind fun r =>
      if q = r then (fs.get q).map fun _ => fs
      else
        match fs.get q, entryAt fs r with
        | none, _ => none
        | some (.dir _), none => if q.isPrefixOf r then none else some (moveTree fs q r)
        | some (.dir _), some (.dir _) => if q.isPrefixOf r || !fs.emptyAt r then none else some (moveTree (fs.erase r) q r)
        | some (.dir _), some _ => none
        | some _, some (.dir _) => none
        | some e, _ => some ((fs.erase q).set r e)

/-- The names in a directory. -/
def list (fs : Fs ν β τ) (q : List ν) : List ν :=
  (fs.table.entries.map Prod.fst).filterMap fun r => if r.dropLast = q then r.getLast? else none

omit [LinkText τ ν] in
theorem nodup_list (fs : Fs ν β τ) (q : List ν) : (list fs q).Nodup := by
  -- a name in `q` belongs to one place
  have hplace : ∀ {r : List ν} {x : ν}, x ∈ (if r.dropLast = q then r.getLast? else none) → r = q ++ [x] := by
    intro r x hx
    split at hx
    · rename_i hq
      rw [← hq]
      exact (List.dropLast_append_getLast? x hx).symm
    · cases hx
  refine List.Nodup.filterMap ?_ fs.table.nodup_keys
  intro r r' x hr hr'
  rw [hplace hr, hplace hr']

/-- A directory goes with everything below it, anything else alone. -/
def removeTree (fs : Fs ν β τ) (path : List (Comp ν)) : Fs ν β τ :=
  match lstat fs path with
  | none => fs
  | some (.dir _) => ((locate fs path).map fs.erase).getD fs
  | some _ => (unlink fs path).getD fs

/-! ## Calls along a path of names -/

section

variable {fs : Fs ν β τ} {q : List ν}

theorem lstat_names (h : NoLinks fs q.dropLast) : lstat fs (names q) = entryAt fs q := by
  unfold lstat
  rw [locate_names h]
  split
  · rfl
  · rename_i hd
    have hq : q ≠ [] := by rintro rfl; exact hd fs.isDirAt_top
    have hnone : fs.get q = none := by
      by_contra hget
      exact hd (Fs.isDirAt_dropLast hget)
    simp [entryAt, hq, hnone]

theorem stat_names (h : NoLinks fs q) : stat fs (names q) = entryAt fs q := by
  rw [← lstat_names (h.above (List.dropLast_prefix q))]
  unfold stat lstat
  rw [reach_names h, locate_names (h.above (List.dropLast_prefix q))]

/-- `unlink` takes away what is there, unless it is a directory. -/
theorem unlink_names (h : NoLinks fs q.dropLast) :
    (∃ e, fs.get q = some e ∧ e.isDir = false ∧ unlink fs (names q) = some (fs.erase q)) ∨
      ((∀ e, fs.get q = some e → e.isDir = true) ∧ unlink fs (names q) = none) := by
  unfold unlink
  rw [locate_names h]
  cases hget : fs.get q with
  | none =>
    right
    refine ⟨by simp, ?_⟩
    split <;> simp [hget]
  | some e =>
    rw [if_pos (Fs.isDirAt_dropLast (by rw [hget]; simp)), Option.bind_some, hget]
    cases e with
    | dir m => exact Or.inr ⟨by simp [Entry.isDir], rfl⟩
    | file c m => exact Or.inl ⟨_, rfl, rfl, rfl⟩
    | link t => exact Or.inl ⟨_, rfl, rfl, rfl⟩
    | special => exact Or.inl ⟨_, rfl, rfl, rfl⟩

/-- `rmdir` takes away a directory with nothing in it. -/
theorem rmdir_names (h : NoLinks fs q.dropLast) :
    (∃ m, fs.get q = some (.dir m) ∧ fs.emptyAt q = true ∧ rmdir fs (names q) = some (fs.erase q)) ∨
      ((∀ m, fs.get q = some (.dir m) → fs.emptyAt q = false) ∧ rmdir fs (names q) = none) := by
  unfold rmdir
  rw [locate_names h]
  cases hget : fs.get q with
  | none =>
    right
    refine ⟨by simp, ?_⟩
    split <;> simp [hget]
  | some e =>
    rw [if_pos (Fs.isDirAt_dropLast (by rw [hget]; simp)), Option.bind_some, hget]
    cases e with
    | dir m =>
      by_cases hemp : fs.emptyAt q = true
      · exact Or.inl ⟨m, rfl, hemp, by simp [hemp]⟩
      · exact Or.inr ⟨fun _ _ => by simpa using hemp, by simp [hemp]⟩
    | file c m => exact Or.inr ⟨by simp, rfl⟩
    | link t => exact Or.inr ⟨by simp, rfl⟩
    | special => exact Or.inr ⟨by simp, rfl⟩

theorem create_names (h : NoLinks fs q.dropLast) (hq : q ≠ []) (e : Entry β τ) :
    create fs (names q) e = if fs.isDirAt q.dropLast = true ∧ fs.get q = none then some (fs.set q e) else none := by
  unfold create
  rw [locate_names h]
  by_cases hd : fs.isDirAt q.dropLast = true
  · simp [hd, entryAt_of_ne fs hq]
  · simp [hd]

theorem writeFile_names (h : NoLinks fs q) (hq : q ≠ []) (hd : fs.isDirAt q.dropLast = true) (hnone : fs.get q = none)
    (content : β) (mode : ℕ) : writeFile fs (names q) content mode = some (fs.set q (.file content mode)) := by
  unfold writeFile
  rw [reach_names h, if_pos hd, Option.bind_some, entryAt_of_ne fs hq, hnone]

theorem chmod_names_file (h : NoLinks fs q) {content : β} {old : ℕ} (hget : fs.get q = some (.file content old))
    (mode : ℕ) : chmod fs (names q) mode = some (fs.set q (.file content mode)) := by
  unfold chmod
  rw [reach_names h, if_pos (Fs.isDirAt_dropLast (by rw [hget]; simp)), Option.bind_some, hget]

theorem chmod_names_dir (h : NoLinks fs q) {old : ℕ} (hget : fs.get q = some (.dir old)) (mode : ℕ) :
    chmod fs (names q) mode = some (fs.set q (.dir mode)) := by
  unfold chmod
  rw [reach_names h, if_pos (Fs.isDirAt_dropLast (by rw [hget]; simp)), Option.bind_some, hget]

end

/-! ## Writing files

A file that is written, or was not there, changes no way: only directories and links do. -/

/-- What is at a place, to a path that gets there: a way on, for a directory, or a link. -/
def way : Option (Entry β τ) → Option (Option τ)
  | some (.dir _) => some none
  | some (.link t) => some (some t)
  | _ => none

omit [LinearOrder ν] [LinkText τ ν] in
theorem dir_of_way {e : Option (Entry β τ)} (h : way e = some none) : ∃ m, e = some (.dir m) := by
  unfold way at h
  split at h
  · exact ⟨_, rfl⟩
  · cases h
  · cases h

/-- Directories and links are the same. -/
def SameWays (fs fs' : Fs ν β τ) : Prop := ∀ q, way (fs.get q) = way (fs'.get q)

theorem reachIn_name (fs : Fs ν β τ) (next : List ν → List (Comp ν) → Option (List ν)) (cur : List ν) (x : ν)
    (cs : List (Comp ν)) : reachIn fs next cur (.name x :: cs) =
      match way (fs.get (cur ++ [x])) with
      | some none => reachIn fs next (cur ++ [x]) cs
      | some (some t) => next (if (LinkText.read t).1 then [] else cur) ((LinkText.read t).2 ++ cs)
      | none => if cs = [] then some (cur ++ [x]) else none := by
  rw [reachIn]
  cases fs.get (cur ++ [x]) with
  | none => rfl
  | some e => cases e <;> rfl

section

variable {fs fs' : Fs ν β τ} {path path' : List (Comp ν)} {content : β} {mode : ℕ} {q : List ν}

theorem SameWays.reachIn (h : SameWays fs fs') (next : List ν → List (Comp ν) → Option (List ν)) :
    ∀ (path : List (Comp ν)) (cur : List ν), reachIn fs next cur path = reachIn fs' next cur path := by
  intro path
  induction path with
  | nil => intro cur; rfl
  | cons c cs ih =>
    intro cur
    cases c with
    | up => exact ih cur.dropLast
    | name x => rw [reachIn_name, reachIn_name, h, ih]

theorem SameWays.reach (h : SameWays fs fs') (path : List (Comp ν)) : reach fs path = reach fs' path := by
  have hn : ∀ n, reachN fs n = reachN fs' n := by
    intro n
    induction n with
    | zero => funext cur path; exact h.reachIn _ path cur
    | succ n ih => funext cur path; rw [reachN, reachN, ← ih]; exact h.reachIn _ path cur
  unfold Posix.reach
  rw [hn]

omit [LinkText τ ν] in
theorem sameWays_set (hq : way (fs.get q) = none) : SameWays fs (fs.set q (.file content mode)) := by
  intro r
  by_cases hfits : fs.Fits q (.file content mode)
  · rw [Fs.get_set hfits]
    split
    · rename_i hr
      rw [hr, hq]
      rfl
    · rfl
  · rw [Fs.set, dif_neg hfits]

/-- What `writeFile` does: it sets the place, which had a file or nothing. -/
theorem writeFile_cases (h : writeFile fs path content mode = some fs') :
    ∃ q m, reach fs path = some q ∧ q ≠ [] ∧ way (fs.get q) = none ∧ fs' = fs.set q (.file content m) := by
  unfold writeFile at h
  obtain ⟨q, hq, h⟩ := Option.bind_eq_some_iff.1 h
  have hne : q ≠ [] := by
    rintro rfl
    simp [entryAt] at h
  rw [entryAt_of_ne fs hne] at h
  cases hget : fs.get q with
  | none =>
    rw [hget] at h
    exact ⟨q, mode, hq, hne, by rw [hget]; rfl, (Option.some.inj h).symm⟩
  | some e =>
    rw [hget] at h
    cases e with
    | dir m => cases h
    | link t => cases h
    | special => cases h
    | file c m => exact ⟨q, m, hq, hne, by rw [hget]; rfl, (Option.some.inj h).symm⟩

theorem writeFile_sameWays (h : writeFile fs path content mode = some fs') : SameWays fs fs' := by
  obtain ⟨q, m, -, -, hfile, rfl⟩ := writeFile_cases h
  exact sameWays_set hfile

/-- Files off the place keep their content. -/
theorem readFile_write_ne (h : writeFile fs path content mode = some fs') (hne : reach fs path' ≠ reach fs path) :
    readFile fs' path' = readFile fs path' := by
  have hways := writeFile_sameWays h
  obtain ⟨q, m, hq, -, -, rfl⟩ := writeFile_cases h
  unfold readFile
  rw [← hways.reach path']
  refine Option.bind_congr fun r hr => ?_
  have hrq : r ≠ q := fun heq => hne (by rw [hr, hq, heq])
  by_cases hfits : fs.Fits q (.file content m)
  · rw [Fs.get_set hfits, if_neg hrq]
  · rw [Fs.set, dif_neg hfits]

/-- **What is read after a write is what was written, or was there before.** -/
theorem readFile_write (h : writeFile fs path content mode = some fs') {c : β} (hread : readFile fs' path' = some c) :
    c = content ∨ readFile fs path' = some c := by
  by_cases hne : reach fs path' = reach fs path
  · have hways := writeFile_sameWays h
    obtain ⟨q, m, hq, -, -, rfl⟩ := writeFile_cases h
    by_cases hfits : fs.Fits q (.file content m)
    · left
      unfold readFile at hread
      rw [← hways.reach path', hne, hq, Option.bind_some, Fs.get_set hfits, if_pos rfl] at hread
      exact (Option.some.inj hread).symm
    · right
      rwa [Fs.set, dif_neg hfits] at hread
  · exact Or.inr (readFile_write_ne h hne ▸ hread)

/-- A path leads into a directory. -/
theorem reachIn_parent {next : List ν → List (Comp ν) → Option (List ν)}
    (hnext : ∀ cur path q, fs.isDirAt cur = true → next cur path = some q → fs.isDirAt q.dropLast = true) :
    ∀ (path : List (Comp ν)) (cur : List ν), fs.isDirAt cur = true → reachIn fs next cur path = some q →
      fs.isDirAt q.dropLast = true := by
  intro path
  induction path with
  | nil =>
    intro cur hcur h
    obtain rfl := Option.some.inj h
    exact Fs.isDirAt_of_prefix (List.dropLast_prefix _) hcur
  | cons c cs ih =>
    intro cur hcur h
    cases c with
    | up => exact ih _ (Fs.isDirAt_of_prefix (List.dropLast_prefix _) hcur) h
    | name x =>
      rw [reachIn_name] at h
      split at h
      · rename_i hway
        exact ih _ ((fs.isDirAt_iff _).2 (Or.inr (dir_of_way hway))) h
      · refine hnext _ _ q ?_ h
        split
        · exact Fs.isDirAt_top fs
        · exact hcur
      · split at h
        · obtain rfl := Option.some.inj h
          rwa [List.dropLast_concat]
        · cases h

theorem reach_parent (h : reach fs path = some q) : fs.isDirAt q.dropLast = true := by
  have hn : ∀ n cur path q, fs.isDirAt cur = true → reachN fs n cur path = some q → fs.isDirAt q.dropLast = true := by
    intro n
    induction n with
    | zero => intro cur path q hcur hr; exact reachIn_parent (fun _ _ _ _ hc => by cases hc) path cur hcur hr
    | succ n ih => intro cur path q hcur hr; exact reachIn_parent ih path cur hcur hr
  exact hn maxLinks [] path q (Fs.isDirAt_top fs) h

omit [LinkText τ ν] in
/-- The last component of a path, at the directory where the rest of it leads. -/
def EndsAt (fs : Fs ν β τ) (q r : List ν) : Comp ν → Prop
  | .up => r = q.dropLast
  | .name x => r = q ++ [x] ∨ ∃ t, fs.get (q ++ [x]) = some (.link t)

/-- **The last component of a path is looked up where the rest of it leads.** -/
theorem reachN_concat {c : Comp ν} {r : List ν} : ∀ (n : ℕ) (path : List (Comp ν)) (cur : List ν), fs.isDirAt cur = true →
    reachN fs n cur (path ++ [c]) = some r → ∃ q, reachN fs n cur path = some q ∧ fs.isDirAt q = true ∧ EndsAt fs q r c := by
  intro n
  -- at a link, the rest of the way is that of a longer path with one link less
  have hin : ∀ (next : List ν → List (Comp ν) → Option (List ν)),
      (∀ path cur, fs.isDirAt cur = true → next cur (path ++ [c]) = some r →
        ∃ q, next cur path = some q ∧ fs.isDirAt q = true ∧ EndsAt fs q r c) →
      ∀ (path : List (Comp ν)) (cur : List ν), fs.isDirAt cur = true → reachIn fs next cur (path ++ [c]) = some r →
        ∃ q, reachIn fs next cur path = some q ∧ fs.isDirAt q = true ∧ EndsAt fs q r c := by
    intro next hnext path
    induction path with
    | nil =>
      intro cur hcur hr
      refine ⟨cur, rfl, hcur, ?_⟩
      cases c with
      | up => exact (Option.some.inj hr).symm
      | name x =>
        rw [List.nil_append, reachIn] at hr
        cases hget : fs.get (cur ++ [x]) with
        | none =>
          rw [hget] at hr
          exact Or.inl (Option.some.inj hr).symm
        | some e =>
          rw [hget] at hr
          cases e with
          | link t => exact Or.inr ⟨t, hget⟩
          | dir m => exact Or.inl (Option.some.inj hr).symm
          | file b m => exact Or.inl (Option.some.inj hr).symm
          | special => exact Or.inl (Option.some.inj hr).symm
    | cons d cs ih =>
      intro cur hcur hr
      cases d with
      | up => exact ih _ (Fs.isDirAt_of_prefix (List.dropLast_prefix _) hcur) hr
      | name y =>
        rw [List.cons_append, reachIn_name] at hr
        rw [reachIn_name]
        split at hr
        · rename_i hway
          exact ih _ ((fs.isDirAt_iff _).2 (Or.inr (dir_of_way hway))) hr
        · rw [← List.append_assoc] at hr
          refine hnext _ _ ?_ hr
          split
          · exact Fs.isDirAt_top fs
          · exact hcur
        · simp at hr
  induction n with
  | zero => exact hin _ fun _ _ _ h => by cases h
  | succ n ih => exact hin _ ih

theorem reach_concat {c : Comp ν} {r : List ν} (hr : reach fs (path ++ [c]) = some r) :
    ∃ q, reach fs path = some q ∧ fs.isDirAt q = true ∧ EndsAt fs q r c :=
  reachN_concat maxLinks path [] (Fs.isDirAt_top fs) hr

/-- **A path with no link at its end leads to the place it names**, or to a directory. -/
theorem locate_of_reach (hr : reach fs path = some q) (hq : fs.isDirAt q = false)
    (hlink : ∀ p, locate fs path = some p → ∀ t, fs.get p ≠ some (.link t)) : locate fs path = some q := by
  cases path using List.reverseRecOn with
  | nil =>
    obtain rfl := Option.some.inj hr
    rw [Fs.isDirAt_top] at hq
    cases hq
  | append_singleton path c =>
    obtain ⟨p, hp, hd, hend⟩ := reach_concat hr
    cases c with
    | up =>
      rw [hend, Fs.isDirAt_of_prefix (List.dropLast_prefix _) hd] at hq
      cases hq
    | name x =>
      have hplace : locate fs (path ++ [.name x]) = some (p ++ [x]) := by
        unfold locate
        rw [List.getLast?_concat, List.dropLast_concat, hp]
        simp [hd]
      rcases hend with rfl | ⟨t, ht⟩
      · exact hplace
      · exact absurd ht (hlink _ hplace t)

/-- What is at the end of a path to a directory: it, or a link. -/
theorem lstat_of_stat_dir {m : ℕ} (h : stat fs path = some (.dir m)) : lstat fs path ≠ none := by
  obtain ⟨r, hr, he⟩ := Option.bind_eq_some_iff.1 h
  have hd : fs.isDirAt r = true := by
    unfold entryAt at he
    split at he
    · rename_i hnil
      rw [hnil, Fs.isDirAt_top]
    · exact Fs.isDirAt_of_get he
  unfold lstat
  cases path using List.reverseRecOn with
  | nil =>
    obtain rfl := Option.some.inj hr
    simp [locate, hr, entryAt]
  | append_singleton path c =>
    obtain ⟨p, hp, hpd, hend⟩ := reach_concat hr
    unfold locate
    rw [List.getLast?_concat, List.dropLast_concat]
    cases c with
    | up => simp [hr, hd, he]
    | name x =>
      simp only [hp, Option.filter_some, hpd, if_true, Option.map_some, Option.bind_some]
      rcases hend with rfl | ⟨t, ht⟩
      · rw [he]
        simp
      · rw [entryAt_of_ne fs (by simp), ht]
        simp

/-- A file that is read has an entry in the directory of its path. -/
theorem get_of_readFile {x : ν} (h : readFile fs (path ++ [.name x]) = some content) (hq : reach fs path = some q) :
    fs.get (q ++ [x]) ≠ none := by
  unfold readFile at h
  obtain ⟨r, hr, h⟩ := Option.bind_eq_some_iff.1 h
  intro hnone
  obtain ⟨p, hp, -, hend⟩ := reach_concat hr
  rw [hq, Option.some.injEq] at hp
  rcases hend with rfl | ⟨t, ht⟩
  · rw [hp] at hnone
    rw [hnone] at h
    cases h
  · rw [← hp, hnone] at ht
    cases ht

/-- **What was written is read.** -/
theorem readFile_writeFile (h : writeFile fs path content mode = some fs') : readFile fs' path = some content := by
  have hways := writeFile_sameWays h
  obtain ⟨q, m, hq, hne, hfile, rfl⟩ := writeFile_cases h
  have hfits : fs.Fits q (.file content m) := by
    refine Fs.fits_of_not_dir hne (reach_parent hq) (fun m' hget => ?_) _
    rw [hget] at hfile
    cases hfile
  unfold readFile
  rw [← hways.reach path, hq, Option.bind_some, Fs.get_set hfits, if_pos rfl]

end

end Apg.Posix
