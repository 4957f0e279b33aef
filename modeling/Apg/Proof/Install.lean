import Apg.Spec.Install

/-!
# Copying a tree

The copy of a directory goes through its entries one by one (`layAll`), so what it can do
is said once, for one entry at a place without links on the way (`lay_names`). What the
copy and the way back keep then follows for the whole tree (`copyItems_keeps`,
`removeItems_keeps`), wherever the copy stops.
-/

namespace Apg

open Posix

/-! ## The entries of a tree -/

/-- An entry of an extracted tree. -/
inductive Piece
  | dir (mode : ℕ)
  | leaf (leaf : Leaf)
  deriving DecidableEq

def Piece.isDir : Piece → Bool
  | .dir _ => true
  | .leaf _ => false

namespace Forest

/-- The entries with their paths, in the order in which they are copied. -/
def pieces : Forest → List (List FileName × Piece)
  | .nil => []
  | .dir name mode items rest =>
    ([name], .dir mode) :: (items.pieces.map fun x => (name :: x.1, x.2)) ++ rest.pieces
  | .leaf name l rest => ([name], .leaf l) :: rest.pieces

/-- The same entries in the order in which they are taken back. -/
def removals : Forest → List (List FileName × Piece)
  | .nil => []
  | .dir name mode items rest =>
    (items.removals.map fun x => (name :: x.1, x.2)) ++ ([name], .dir mode) :: rest.removals
  | .leaf name l rest => ([name], .leaf l) :: rest.removals

variable {F : Forest} {path : List FileName} {piece : Piece}

theorem mem_removals (F : Forest) (x : List FileName × Piece) : x ∈ F.removals ↔ x ∈ F.pieces := by
  induction F generalizing x with
  | nil => rfl
  | dir name mode items rest ih₁ ih₂ =>
    simp only [removals, pieces, List.mem_append, List.mem_cons, List.mem_map, ih₁, ih₂]
    rw [or_assoc]
    exact or_left_comm
  | leaf name l rest ih => simp only [removals, pieces, List.mem_cons, ih]

/-- A path starts with one of the names of the directory. -/
theorem exists_head {x : List FileName × Piece} (h : x ∈ F.pieces) : ∃ n xs, n ∈ F.heads ∧ x.1 = n :: xs := by
  induction F with
  | nil => cases h
  | dir name mode items rest _ ih₂ =>
    simp only [pieces, List.cons_append, List.mem_cons, List.mem_append, List.mem_map] at h
    rcases h with rfl | ⟨y, -, rfl⟩ | h
    · exact ⟨name, [], by simp [heads], rfl⟩
    · exact ⟨name, y.1, by simp [heads], rfl⟩
    · obtain ⟨n, xs, hn, hx⟩ := ih₂ h
      exact ⟨n, xs, by simp [heads, hn], hx⟩
  | leaf name l rest ih =>
    simp only [pieces, List.mem_cons] at h
    rcases h with rfl | h
    · exact ⟨name, [], by simp [heads], rfl⟩
    · obtain ⟨n, xs, hn, hx⟩ := ih h
      exact ⟨n, xs, by simp [heads, hn], hx⟩

theorem path_ne_nil (h : (path, piece) ∈ F.pieces) : path ≠ [] := by
  obtain ⟨n, xs, -, hx⟩ := exists_head h
  simp only at hx
  rw [hx]; simp

/-- No path comes twice. -/
theorem nodup_pieces (h : F.distinct = true) : (F.pieces.map Prod.fst).Nodup := by
  -- what comes later starts with another name
  have hother : ∀ {name : FileName} {rest : Forest}, name ∉ rest.heads → ∀ xs, name :: xs ∉ rest.pieces.map Prod.fst := by
    intro name rest hname xs hmem
    obtain ⟨x, hx, hxs⟩ := List.mem_map.1 hmem
    obtain ⟨n, ys, hn, hy⟩ := exists_head hx
    rw [hy, List.cons.injEq] at hxs
    exact hname (hxs.1 ▸ hn)
  induction F with
  | nil => exact List.nodup_nil
  | dir name mode items rest ih₁ ih₂ =>
    simp only [distinct, Bool.and_eq_true, decide_eq_true_eq] at h
    obtain ⟨⟨hname, hitems⟩, hrest⟩ := h
    have hmap : (items.pieces.map fun x => (name :: x.1, x.2)).map Prod.fst =
        (items.pieces.map Prod.fst).map (name :: ·) := by
      rw [List.map_map, List.map_map]; rfl
    rw [pieces, List.cons_append, List.map_cons, List.map_append, hmap, List.nodup_cons]
    refine ⟨?_, ?_⟩
    · rw [List.mem_append]
      rintro (hmem | hmem)
      · obtain ⟨xs, hxs, hnil⟩ := List.mem_map.1 hmem
        rw [List.cons.injEq] at hnil
        obtain ⟨⟨p, q⟩, hx, rfl⟩ := List.mem_map.1 hxs
        exact path_ne_nil hx hnil.2
      · exact hother hname [] hmem
    · refine List.Nodup.append ((ih₁ hitems).map ?_) (ih₂ hrest) ?_
      · intro a b hab
        exact (List.cons.inj hab).2
      · intro xs hxs hmem
        obtain ⟨ys, -, rfl⟩ := List.mem_map.1 hxs
        exact hother hname ys hmem
  | leaf name l rest ih =>
    simp only [distinct, Bool.and_eq_true, decide_eq_true_eq] at h
    rw [pieces, List.map_cons, List.nodup_cons]
    exact ⟨hother h.1 [], ih h.2⟩

/-- A split of two lists behind each other splits one of them. -/
theorem append_split {α : Type*} {as bs before after : List α} {x : α} (h : as ++ bs = before ++ x :: after) :
    (∃ cs, as = before ++ x :: cs) ∨ ∃ cs, before = as ++ cs ∧ bs = cs ++ x :: after := by
  rcases List.append_eq_append_iff.1 h with ⟨cs, hbefore, hbs⟩ | ⟨cs, has, hcons⟩
  · exact Or.inr ⟨cs, hbefore, hbs⟩
  · cases cs with
    | nil => exact Or.inr ⟨[], by simpa using has.symm, hcons.symm⟩
    | cons c cs =>
      obtain ⟨rfl, -⟩ := List.cons.inj hcons
      exact Or.inl ⟨cs, has⟩

/-- The directory of an entry comes before it. -/
theorem parent_before : ∀ {F : Forest} {before after : List (List FileName × Piece)} {path : List FileName}
    {piece : Piece}, F.pieces = before ++ (path, piece) :: after →
    path.dropLast = [] ∨ ∃ m, (path.dropLast, Piece.dir m) ∈ before := by
  intro F
  induction F with
  | nil => intro before after path piece h; simp [pieces] at h
  | dir name mode items rest ih₁ ih₂ =>
    intro before after path piece h
    rw [pieces, List.cons_append] at h
    cases before with
    | nil =>
      obtain ⟨hx, -⟩ := List.cons.inj h
      rw [Prod.mk.injEq] at hx
      exact Or.inl (by rw [← hx.1]; rfl)
    | cons b before =>
      obtain ⟨rfl, htail⟩ := List.cons.inj h
      rcases append_split htail with ⟨cs, hitems⟩ | ⟨cs, rfl, hrest⟩
      · -- an entry of the directory itself
        obtain ⟨l₁, l₂, hsplit, hl₁, hl₂⟩ := List.map_eq_append_iff.1 hitems
        obtain ⟨⟨path', piece'⟩, l₃, rfl, hx, -⟩ := List.map_eq_cons_iff.1 hl₂
        simp only [Prod.mk.injEq] at hx
        obtain ⟨rfl, rfl⟩ := hx
        have hmem : (path', piece') ∈ items.pieces := by rw [hsplit]; simp
        have hne : path' ≠ [] := path_ne_nil hmem
        rw [List.dropLast_cons_of_ne_nil hne]
        right
        rcases ih₁ hsplit with hnil | ⟨m, hm⟩
        · exact ⟨mode, by simp [hnil]⟩
        · refine ⟨m, List.mem_cons_of_mem _ ?_⟩
          rw [← hl₁]
          exact List.mem_map.2 ⟨_, hm, rfl⟩
      · rcases ih₂ hrest with hnil | ⟨m, hm⟩
        · exact Or.inl hnil
        · exact Or.inr ⟨m, by simp [hm]⟩
  | leaf name l rest ih =>
    intro before after path piece h
    rw [pieces] at h
    cases before with
    | nil =>
      obtain ⟨hx, -⟩ := List.cons.inj h
      rw [Prod.mk.injEq] at hx
      exact Or.inl (by rw [← hx.1]; rfl)
    | cons b before =>
      obtain ⟨rfl, htail⟩ := List.cons.inj h
      rcases ih htail with hnil | ⟨m, hm⟩
      · exact Or.inl hnil
      · exact Or.inr ⟨m, List.mem_cons_of_mem _ hm⟩

/-- What is above an entry is a directory of the tree, and comes before it. -/
theorem dir_above_before {path path' : List FileName} {before after : List (List FileName × Piece)}
    (hF : F.pieces = before ++ after) (h : (path', piece) ∈ before) (hne : path ≠ []) (hpre : path <+: path')
    (hneq : path ≠ path') : ∃ m, (path, Piece.dir m) ∈ before := by
  obtain ⟨xs, rfl⟩ := hpre
  induction xs using List.reverseRecOn generalizing piece with
  | nil => exact absurd (by simp) hneq
  | append_singleton xs x ih =>
    obtain ⟨b, a, hsplit⟩ := List.append_of_mem h
    have hlast : (path ++ (xs ++ [x])).dropLast = path ++ xs := by
      rw [← List.append_assoc, List.dropLast_concat]
    have hpieces : F.pieces = b ++ (path ++ (xs ++ [x]), piece) :: (a ++ after) := by rw [hF, hsplit]; simp
    rcases parent_before hpieces with hnil | ⟨m, hm⟩
    · rw [hlast, List.append_eq_nil_iff] at hnil
      exact absurd hnil.1 hne
    · rw [hlast] at hm
      have hmem : (path ++ xs, Piece.dir m) ∈ before := by rw [hsplit]; simp [hm]
      by_cases hx : xs = []
      · subst hx
        exact ⟨m, by simpa using hmem⟩
      · exact ih hmem (by simpa using hx)

theorem dir_above {path path' : List FileName} (h : (path', piece) ∈ F.pieces) (hne : path ≠ []) (hpre : path <+: path')
    (hneq : path ≠ path') : ∃ m, (path, Piece.dir m) ∈ F.pieces :=
  dir_above_before (List.append_nil _).symm h hne hpre hneq

/-- Entries at two points of the tree have two paths. -/
theorem path_ne (h : F.distinct = true) {before after : List (List FileName × Piece)} (hsplit : F.pieces = before ++ after)
    {x y : List FileName × Piece} (hx : x ∈ before) (hy : y ∈ after) : x.1 ≠ y.1 := by
  have hnd := nodup_pieces h
  rw [hsplit, List.map_append] at hnd
  exact (List.nodup_append.1 hnd).2.2 _ (List.mem_map_of_mem hx) _ (List.mem_map_of_mem hy)

/-- A path leads to one entry. -/
theorem piece_unique (h : F.distinct = true) {piece piece' : Piece} (hp : (path, piece) ∈ F.pieces)
    (hp' : (path, piece') ∈ F.pieces) : piece = piece' := by
  have hnd := nodup_pieces h
  have := List.inj_on_of_nodup_map hnd hp hp' rfl
  exact (Prod.mk.inj this).2

/-- Nothing is below an entry that is no directory. -/
theorem leaf_above (h : F.distinct = true) {path' : List FileName} {l : Leaf} (hl : (path, .leaf l) ∈ F.pieces)
    (h' : (path', piece) ∈ F.pieces) (hpre : path <+: path') : path = path' := by
  by_contra hne
  obtain ⟨m, hm⟩ := dir_above h' (path_ne_nil hl) hpre hne
  cases piece_unique h hl hm

end Forest

/-! ## One entry -/

/-- An entry is copied. -/
def lay (io : CopyIo) : Piece → List (Comp FileName) → CopyState → Bool × CopyState
  | .dir mode => enterDir io mode
  | .leaf leaf => copyLeaf io leaf

/-- Entries are copied, up to the first that is refused. -/
def layAll (io : CopyIo) (dst : List (Comp FileName)) : List (List FileName × Piece) → CopyState → Bool × CopyState
  | [], s => (true, s)
  | (path, piece) :: ps, s =>
    match lay io piece (dst ++ names path) s with
    | (false, s) => (false, s)
    | (true, s) => layAll io dst ps s

theorem layAll_append (io : CopyIo) (dst : List (Comp FileName)) (ps' : List (List FileName × Piece)) :
    ∀ (ps : List (List FileName × Piece)) (s : CopyState), layAll io dst (ps ++ ps') s =
      if (layAll io dst ps s).1 then layAll io dst ps' (layAll io dst ps s).2 else layAll io dst ps s := by
  intro ps
  induction ps with
  | nil => intro s; rfl
  | cons x ps ih =>
    obtain ⟨path, piece⟩ := x
    intro s
    rw [List.cons_append, layAll, layAll]
    cases lay io piece (dst ++ names path) s with
    | mk ok s₁ =>
      cases ok with
      | true => exact ih s₁
      | false => rfl

theorem layAll_map (io : CopyIo) (dst : List (Comp FileName)) (n : FileName) : ∀ (ps : List (List FileName × Piece))
    (s : CopyState), layAll io dst (ps.map fun x => (n :: x.1, x.2)) s = layAll io (dst ++ [.name n]) ps s := by
  intro ps
  induction ps with
  | nil => intro s; rfl
  | cons x ps ih =>
    obtain ⟨path, piece⟩ := x
    intro s
    have hpath : dst ++ names (n :: path) = dst ++ [.name n] ++ names path := by simp [names]
    rw [List.map_cons, layAll, layAll, hpath]
    cases lay io piece (dst ++ [.name n] ++ names path) s with
    | mk ok s₁ =>
      cases ok with
      | true => exact ih s₁
      | false => rfl

/-- **The loop of `copy_dir` copies the entries of the tree one by one.** -/
theorem copyItems_eq (io : CopyIo) : ∀ (F : Forest) (dst : List (Comp FileName)) (s : CopyState),
    copyItems io F dst s = layAll io dst F.pieces s := by
  intro F
  induction F with
  | nil => intro dst s; rfl
  | dir name mode items rest ih₁ ih₂ =>
    intro dst s
    have hlay : lay io (.dir mode) (dst ++ names [name]) s = enterDir io mode (dst ++ [.name name]) s := rfl
    rw [copyItems, Forest.pieces, List.cons_append, layAll, hlay]
    cases enterDir io mode (dst ++ [.name name]) s with
    | mk ok s₁ =>
      cases ok with
      | false => rfl
      | true =>
        simp only
        rw [layAll_append, layAll_map, ← ih₁]
        cases copyItems io items (dst ++ [.name name]) s₁ with
        | mk ok s₂ =>
          cases ok with
          | false => rfl
          | true => exact ih₂ dst s₂
  | leaf name l rest ih =>
    intro dst s
    have hlay : lay io (.leaf l) (dst ++ names [name]) s = copyLeaf io l (dst ++ [.name name]) s := rfl
    rw [copyItems, Forest.pieces, layAll, hlay]
    cases copyLeaf io l (dst ++ [.name name]) s with
    | mk ok s₁ =>
      cases ok with
      | false => rfl
      | true => exact ih dst s₁

/-- What a copy leaves at its place, of which it found `cur`, and whether it goes on. -/
def laid (io : CopyIo) (fault : Fault) (cur : Option (Entry Bytes CStr)) : Piece → Bool × Option (Entry Bytes CStr)
  | .leaf .special => (fault ≠ .read, cur)
  | .leaf (.link target) =>
    if fault = .read then (false, cur) else if fault = .make then (false, none) else (true, some (.link target))
  | .leaf (.file content mode) =>
    match fault with
    | .read => (false, cur)
    | .make => (false, none)
    | .write n => (false, some (.file (content.take n) io.fileMode))
    | .mode => (false, some (.file content io.fileMode))
    | _ => (true, some (.file content mode))
  | .dir mode =>
    if fault = .read then (false, cur)
    else
      match cur with
      | some (.dir old) => (fault ≠ .make ∧ fault ≠ .list, some (.dir old))
      | _ =>
        match fault with
        | .make => (false, none)
        | .mode => (false, some (.dir io.dirMode))
        | .list => (false, some (.dir mode))
        | _ => (true, some (.dir mode))

/-- A directory that is there stays. -/
theorem laid_dir_there (io : CopyIo) (fault : Fault) (m mode : ℕ) :
    (laid io fault (some (.dir m)) (.dir mode)).2 = some (.dir m) := by
  simp only [laid]
  split_ifs <;> rfl

/-- The place `q` is changed to `e`. Elsewhere everything is as before; below `q` nothing
is left unless it is a directory. -/
structure Lays (fs : Host) (q : List FileName) (e : Option (Entry Bytes CStr)) (fs' : Host) : Prop where
  here : fs'.get q = e
  away : ∀ r, ¬ q <+: r → fs'.get r = fs.get r
  below : ∀ r m, e = some (.dir m) → q <+: r → r ≠ q → fs'.get r = fs.get r

section

variable {fs fs' : Host} {q : List FileName} {e : Option (Entry Bytes CStr)} {io : CopyIo}

theorem Lays.refl (fs : Host) (q : List FileName) : Lays fs q (fs.get q) fs :=
  ⟨rfl, fun _ _ => rfl, fun _ _ _ _ _ => rfl⟩

theorem Lays.erase (fs : Host) (q : List FileName) : Lays fs q none (fs.erase q) := by
  refine ⟨?_, ?_, ?_⟩
  · rw [Fs.get_erase, if_pos (List.prefix_refl q)]
  · intro r hr
    rw [Fs.get_erase, if_neg hr]
  · intro r m hm
    cases hm

/-- Where there is no directory, nothing is below. -/
theorem get_below (hq : q ≠ []) (h : ∀ m, fs.get q ≠ some (.dir m)) {r : List FileName} (hr : q <+: r) (hne : r ≠ q) :
    fs.get r = none :=
  Fs.eq_none_below (Fs.isDirAt_eq_false hq h) hr hne.symm

/-- What is at a place is put there once more, after a change at the place only. -/
theorem Lays.set (h : Lays fs q e fs') {e' : Entry Bytes CStr} (hfits : fs'.Fits q e')
    (hdir : e'.isDir = true → (∃ m, e = some (.dir m)) ∨ ∀ m, fs.get q ≠ some (.dir m)) :
    Lays fs q (some e') (fs'.set q e') := by
  refine ⟨?_, ?_, ?_⟩
  · rw [Fs.get_set hfits, if_pos rfl]
  · intro r hr
    have hne : r ≠ q := by rintro rfl; exact hr (List.prefix_refl r)
    rw [Fs.get_set hfits, if_neg hne, h.away r hr]
  · intro r m hm hr hne
    rw [Fs.get_set hfits, if_neg hne]
    rcases hdir (by rw [Option.some.inj hm]; rfl) with ⟨m', hm'⟩ | hnot
    · exact h.below r m' hm' hr hne
    · rw [get_below hfits.1 hnot hr hne]
      by_cases hd : ∃ m', e = some (.dir m')
      · obtain ⟨m', hm'⟩ := hd
        rw [h.below r m' hm' hr hne, get_below hfits.1 hnot hr hne]
      · refine get_below hfits.1 ?_ hr hne
        intro m' hm'
        exact hd ⟨m', by rw [← h.here, hm']⟩

theorem erase_eq_self (h : fs.get q = none) (hq : q ≠ []) : fs.erase q = fs := by
  refine Fs.ext_get fun r => ?_
  rw [Fs.get_erase]
  split
  · rename_i hr
    by_cases hne : r = q
    · rw [hne, h]
    · rw [get_below hq (by rw [h]; simp) hr hne]
  · rfl

/-- `unlink` and nothing else, where there is no directory. -/
theorem unlink_getD (hq : q ≠ []) (hparent : fs.isDirAt q.dropLast = true) (h : ∀ m, fs.get q ≠ some (.dir m)) :
    (unlink fs (names q)).getD fs = fs.erase q := by
  rcases unlink_names (NoLinks.of_isDirAt hparent) with ⟨e, -, -, hun⟩ | ⟨hdir, hun⟩
  · rw [hun]; rfl
  · have hnone : fs.get q = none := by
      cases hget : fs.get q with
      | none => rfl
      | some e =>
        have := hdir e hget
        cases e with
        | dir m => exact absurd hget (h m)
        | _ => cases this
    rw [hun, erase_eq_self hnone hq]; rfl

theorem makeRoom_names (hq : q ≠ []) (hparent : fs.isDirAt q.dropLast = true) : makeRoom fs (names q) = fs.erase q := by
  have hlinks := NoLinks.of_isDirAt hparent
  have hun := unlink_getD hq hparent
  have hlstat : lstat fs (names q) = fs.get q := by rw [lstat_names hlinks, entryAt_of_ne fs hq]
  unfold makeRoom removeTree
  rw [hlstat]
  cases hget : fs.get q with
  | none => exact (erase_eq_self hget hq).symm
  | some e =>
    cases e with
    | dir m =>
      simp only
      rw [locate_names hlinks, if_pos hparent]; rfl
    | file c m => exact hun (by rw [hget]; simp)
    | link t => exact hun (by rw [hget]; simp)
    | special => exact hun (by rw [hget]; simp)

theorem isDirAt_erase_dropLast (hq : q ≠ []) (hparent : fs.isDirAt q.dropLast = true) :
    (fs.erase q).isDirAt q.dropLast = true := by
  rw [Fs.isDirAt_erase (not_prefix_dropLast hq)]; exact hparent

/-- No link is on the way to a place where something is put that is no link. -/
theorem noLinks_of_parent {fs : Host} (hparent : fs.isDirAt q.dropLast = true) (h : ∀ t, fs.get q ≠ some (.link t)) :
    NoLinks fs q := by
  intro p hp t ht
  by_cases hpq : p = q
  · exact h t (hpq ▸ ht)
  · have hlt : p <+: q.dropLast := by
      obtain ⟨r, rfl⟩ := hp
      have hr : r ≠ [] := by rintro rfl; exact hpq (by simp)
      rw [List.dropLast_append_of_ne_nil hr]
      exact List.prefix_append _ _
    exact NoLinks.of_isDirAt hparent p hlt t ht

theorem copyFile_names (hq : q ≠ []) (hparent : fs.isDirAt q.dropLast = true) (fault : Fault) (hread : fault ≠ .read)
    (content : Bytes) (mode : ℕ) (cur : Option (Entry Bytes CStr)) :
    ∃ fs', copyFile io fault content mode (names q) (fs.erase q) =
        ((laid io fault cur (.leaf (.file content mode))).1, fs') ∧
      Lays fs q (laid io fault cur (.leaf (.file content mode))).2 fs' := by
  have hparent' := isDirAt_erase_dropLast hq hparent
  have herase : Lays fs q none (fs.erase q) := Lays.erase fs q
  have hlinks : NoLinks (fs.erase q) q := noLinks_of_parent hparent' (by rw [herase.here]; simp)
  have hwrite := fun c m => writeFile_names hlinks hq hparent' herase.here c m
  have hfits : ∀ e, (fs.erase q).Fits q e := fun e => Fs.fits_erase hq hparent e
  have hset : ∀ c m, Lays fs q (some (.file c m)) ((fs.erase q).set q (.file c m)) :=
    fun c m => herase.set (hfits _) (by simp [Entry.isDir])
  -- the mode is set once the content is there
  have hmode : ∀ m, chmod ((fs.erase q).set q (.file content io.fileMode)) (names q) m =
        some (((fs.erase q).set q (.file content io.fileMode)).set q (.file content m)) ∧
      Lays fs q (some (.file content m)) (((fs.erase q).set q (.file content io.fileMode)).set q (.file content m)) := by
    intro m
    have hget := (hset content io.fileMode).here
    have hd : ((fs.erase q).set q (.file content io.fileMode)).isDirAt q.dropLast = true :=
      Fs.isDirAt_dropLast (by rw [hget]; simp)
    refine ⟨chmod_names_file (noLinks_of_parent hd (by rw [hget]; simp)) hget m, ?_⟩
    exact (hset content io.fileMode).set (Fs.fits_of_not_dir hq hd (by rw [hget]; simp) _) (by simp [Entry.isDir])
  unfold copyFile laid
  cases fault with
  | read => exact absurd rfl hread
  | make => exact ⟨_, rfl, herase⟩
  | write n => exact ⟨_, by simp [hwrite], hset _ _⟩
  | mode => exact ⟨_, by simp [hwrite], hset _ _⟩
  | none => exact ⟨_, by simp [hwrite, (hmode mode).1], (hmode mode).2⟩
  | list => exact ⟨_, by simp [hwrite, (hmode mode).1], (hmode mode).2⟩

/-- A directory is made where there is none. -/
theorem makeDst_names (hq : q ≠ []) (hparent : fs.isDirAt q.dropLast = true) (h : ∀ m, fs.get q ≠ some (.dir m))
    (mode count : ℕ) (hread : io.fault count ≠ .read) :
    ∃ fs', makeDst io mode (names q) ⟨count, fs.erase q⟩ =
        ((laid io (io.fault count) (fs.get q) (.dir mode)).1, ⟨count + 1, fs'⟩) ∧
      Lays fs q (laid io (io.fault count) (fs.get q) (.dir mode)).2 fs' := by
  have hparent' := isDirAt_erase_dropLast hq hparent
  have herase : Lays fs q none (fs.erase q) := Lays.erase fs q
  have hlinks : NoLinks (fs.erase q) q := noLinks_of_parent hparent' (by rw [herase.here]; simp)
  have hstat : stat (fs.erase q) (names q) = none := by
    rw [stat_names hlinks, entryAt_of_ne _ hq, herase.here]
  have hmkdir : mkdir (fs.erase q) (names q) io.dirMode = some ((fs.erase q).set q (.dir io.dirMode)) := by
    rw [mkdir, create_names (NoLinks.of_isDirAt hparent') hq, if_pos ⟨hparent', herase.here⟩]
  have hmade : Lays fs q (some (.dir io.dirMode)) ((fs.erase q).set q (.dir io.dirMode)) :=
    herase.set (Fs.fits_erase hq hparent _) fun _ => Or.inr h
  have hd : ((fs.erase q).set q (.dir io.dirMode)).isDirAt q.dropLast = true :=
    Fs.isDirAt_dropLast (by rw [hmade.here]; simp)
  have hchmod := chmod_names_dir (noLinks_of_parent hd (by rw [hmade.here]; simp)) hmade.here mode
  have hset : Lays fs q (some (.dir mode)) (((fs.erase q).set q (.dir io.dirMode)).set q (.dir mode)) :=
    hmade.set ⟨hq, hd, Or.inl rfl⟩ fun _ => Or.inr h
  have hlaid : laid io (io.fault count) (fs.get q) (.dir mode) =
      laid io (io.fault count) none (.dir mode) := by
    cases hget : fs.get q with
    | none => rfl
    | some e =>
      cases e with
      | dir m => exact absurd hget (h m)
      | _ => simp only [laid, if_neg hread]
  rw [hlaid]
  unfold makeDst laid
  simp only [hstat, hmkdir, hchmod]
  cases hf : io.fault count with
  | read => exact absurd hf hread
  | make => exact ⟨_, rfl, herase⟩
  | write n => exact ⟨_, rfl, hset⟩
  | mode => exact ⟨_, rfl, hmade⟩
  | list => exact ⟨_, rfl, hset⟩
  | none => exact ⟨_, rfl, hset⟩

/-- **What copying one entry does**, at a place in a directory, and not through a link. -/
theorem lay_names (io : CopyIo) {piece : Piece} {s : CopyState} (hq : q ≠ [])
    (hparent : s.fs.isDirAt q.dropLast = true)
    (hlink : piece.isDir = true → ∀ t, s.fs.get q ≠ some (.link t)) :
    ∃ fs', lay io piece (names q) s = ((laid io (io.fault s.count) (s.fs.get q) piece).1, ⟨s.count + 1, fs'⟩) ∧
      Lays s.fs q (laid io (io.fault s.count) (s.fs.get q) piece).2 fs' := by
  have hsame := Lays.refl s.fs q
  have hlinks := NoLinks.of_isDirAt hparent
  by_cases hread : io.fault s.count = .read
  · -- nothing is touched before the entry is read
    refine ⟨s.fs, ?_, ?_⟩
    · cases piece with
      | dir mode => simp [lay, enterDir, laid, hread]
      | leaf l => cases l <;> simp [lay, copyLeaf, laid, hread]
    · have hlaid : (laid io (io.fault s.count) (s.fs.get q) piece).2 = s.fs.get q := by
        cases piece with
        | dir mode => simp [laid, hread]
        | leaf l => cases l <;> simp [laid, hread]
      rw [hlaid]; exact hsame
  cases piece with
  | leaf l =>
    cases l with
    | special => exact ⟨s.fs, by simp [lay, copyLeaf, laid, hread], hsame⟩
    | file content mode =>
      obtain ⟨fs', hcopy, hlays⟩ := copyFile_names hq hparent (io.fault s.count) hread content mode (s.fs.get q)
      refine ⟨fs', ?_, hlays⟩
      simp only [lay, copyLeaf, if_neg hread, makeRoom_names hq hparent, hcopy]
    | link target =>
      have hparent' := isDirAt_erase_dropLast hq hparent
      have herase : Lays s.fs q none (s.fs.erase q) := Lays.erase s.fs q
      have hsymlink : symlink (s.fs.erase q) target (names q) = some ((s.fs.erase q).set q (.link target)) := by
        rw [symlink, create_names (NoLinks.of_isDirAt hparent') hq, if_pos ⟨hparent', herase.here⟩]
      simp only [lay, copyLeaf, if_neg hread, makeRoom_names hq hparent, hsymlink, laid]
      by_cases hmake : io.fault s.count = .make
      · simp only [if_pos hmake]
        exact ⟨_, rfl, herase⟩
      · simp only [if_neg hmake]
        exact ⟨_, rfl, herase.set (Fs.fits_erase hq hparent _) (by simp [Entry.isDir])⟩
  | dir mode =>
    have hstat : stat s.fs (names q) = s.fs.get q := by
      rw [stat_names (noLinks_of_parent hparent (hlink rfl)), entryAt_of_ne _ hq]
    by_cases hdir : ∃ m, s.fs.get q = some (.dir m)
    · -- the directory that is there stays
      obtain ⟨m, hm⟩ := hdir
      refine ⟨s.fs, ?_, ?_⟩
      · simp only [lay, enterDir, if_neg hread, hstat, hm, makeDst, laid]
        cases hf : io.fault s.count <;> simp_all
      · have hlaid : (laid io (io.fault s.count) (s.fs.get q) (.dir mode)).2 = s.fs.get q := by
          simp [laid, hread, hm]
        rw [hlaid]; exact hsame
    · have hno : ∀ m, s.fs.get q ≠ some (.dir m) := fun m hm => hdir ⟨m, hm⟩
      obtain ⟨fs', hmake, hlays⟩ := makeDst_names hq hparent hno mode s.count hread
      refine ⟨fs', ?_, hlays⟩
      rw [← hmake]
      have hun := unlink_getD hq hparent hno
      simp only [lay, enterDir, if_neg hread, hstat]
      cases hget : s.fs.get q with
      | none => simp only [hun]
      | some e =>
        cases e with
        | dir m => exact absurd hget (hno m)
        | _ => simp only [hun]

end

/-! ## A whole tree -/

/-- The copy of an entry is there. Nothing is asked where none is made. -/
def Stands (fs : Host) (q : List FileName) : Piece → Prop
  | .dir _ => ∃ m, fs.get q = some (.dir m)
  | .leaf (.file content mode) => fs.get q = some (.file content mode)
  | .leaf (.link target) => fs.get q = some (.link target)
  | .leaf .special => True

theorem Stands.congr {fs fs' : Host} {q : List FileName} {piece : Piece} (h : Stands fs q piece)
    (hget : fs'.get q = fs.get q) : Stands fs' q piece := by
  cases piece with
  | dir m =>
    obtain ⟨m', hm'⟩ := h
    exact ⟨m', hget.trans hm'⟩
  | leaf l =>
    cases l with
    | file c m => exact hget.trans h
    | link t => exact hget.trans h
    | special => trivial

/-- A copy that goes on has made its entry. -/
theorem laid_dir {io : CopyIo} {fault : Fault} {cur : Option (Entry Bytes CStr)} {mode : ℕ}
    (h : (laid io fault cur (.dir mode)).1 = true) : ∃ m, (laid io fault cur (.dir mode)).2 = some (.dir m) := by
  unfold laid at h ⊢
  by_cases hread : fault = .read
  · simp [hread] at h
  simp only [if_neg hread] at h ⊢
  split
  · exact ⟨_, rfl⟩
  · rename_i hcur
    cases fault <;> simp_all

theorem laid_stands {io : CopyIo} {fault : Fault} {fs fs' : Host} {q : List FileName} {piece : Piece}
    (hlays : Lays fs q (laid io fault (fs.get q) piece).2 fs') (h : (laid io fault (fs.get q) piece).1 = true) :
    Stands fs' q piece := by
  cases piece with
  | dir m =>
    obtain ⟨m', hm'⟩ := laid_dir h
    exact ⟨m', hlays.here.trans hm'⟩
  | leaf l =>
    cases l with
    | special => trivial
    | link t =>
      refine hlays.here.trans ?_
      unfold laid at h ⊢
      split_ifs at h ⊢
      rfl
    | file c m =>
      refine hlays.here.trans ?_
      unfold laid at h ⊢
      cases fault <;> simp_all

/-- A directory leaves what is below its place. -/
theorem Lays.below_dir {io : CopyIo} {fault : Fault} {fs fs' : Host} {q : List FileName} {m : ℕ} (hq : q ≠ [])
    (h : Lays fs q (laid io fault (fs.get q) (.dir m)).2 fs') {r : List FileName} (hr : q <+: r) (hne : r ≠ q) :
    fs'.get r = fs.get r := by
  by_cases hd : ∃ m', (laid io fault (fs.get q) (.dir m)).2 = some (.dir m')
  · obtain ⟨m', hm'⟩ := hd
    exact h.below r m' hm' hr hne
  · -- then there was no directory before
    have hno : ∀ m', fs.get q ≠ some (.dir m') := by
      intro m' hm'
      exact hd ⟨m', by rw [hm']; exact laid_dir_there io fault m' m⟩
    rw [get_below hq hno hr hne]
    exact get_below hq (fun m' hm' => hd ⟨m', h.here.symm.trans hm'⟩) hr hne

theorem laid_dir_ne_link {io : CopyIo} {fault : Fault} {cur : Option (Entry Bytes CStr)} {mode : ℕ}
    (h : ∀ t, cur ≠ some (.link t)) (t : CStr) : (laid io fault cur (.dir mode)).2 ≠ some (.link t) := by
  simp only [laid]
  by_cases hread : fault = .read
  · rw [if_pos hread]; exact h t
  rw [if_neg hread]
  split
  · simp
  · cases fault <;> simp

/-- The tree goes into a directory, and not through a link. -/
structure Plain (fs : Host) (D : List FileName) (F : Forest) : Prop where
  dir : fs.isDirAt D = true
  links : ∀ path m, (path, Piece.dir m) ∈ F.pieces → ∀ t, fs.get (D ++ path) ≠ some (.link t)

theorem append_prefix_append {D p q : List FileName} : D ++ p <+: D ++ q ↔ p <+: q := List.prefix_append_right_inj D

section

variable {io : CopyIo} {F : Forest} {D : List FileName} {I : Host → Prop}

/-- What one more entry leaves of those that stand. -/
theorem stands_after {before : List (List FileName × Piece)} {path : List FileName} {piece : Piece} {fs fs' : Host}
    {fault : Fault} (hF : F.distinct = true) (hsub : ∀ x ∈ before, x ∈ F.pieces) (hmem : (path, piece) ∈ F.pieces)
    (hnew : ∀ x ∈ before, x.1 ≠ path) (hstands : ∀ x ∈ before, Stands fs (D ++ x.1) x.2)
    (hlays : Lays fs (D ++ path) (laid io fault (fs.get (D ++ path)) piece).2 fs')
    (hok : (laid io fault (fs.get (D ++ path)) piece).1 = true) :
    ∀ x ∈ before ++ [(path, piece)], Stands fs' (D ++ x.1) x.2 := by
  intro x hmem'
  rcases List.mem_append.1 hmem' with hx | hx
  · refine (hstands x hx).congr ?_
    by_cases hpre : path <+: x.1
    · -- only a directory is above another entry, and it leaves what is below
      cases piece with
      | leaf l => exact absurd (Forest.leaf_above hF hmem (hsub x hx) hpre).symm (hnew x hx)
      | dir m =>
        obtain ⟨m', hm'⟩ := laid_dir hok
        refine hlays.below _ m' hm' (append_prefix_append.2 hpre) ?_
        intro heq
        exact hnew x hx (List.append_cancel_left heq)
    · exact hlays.away _ fun h => hpre (append_prefix_append.1 h)
  · rw [List.mem_singleton.1 hx]
    exact laid_stands hlays hok

/-- **One entry of the copy of a tree**: the directories above it are there already. -/
theorem layAll_step (io : CopyIo) {before after : List (List FileName × Piece)} {path : List FileName} {piece : Piece}
    (hsplit : F.pieces = before ++ (path, piece) :: after) {s : CopyState} (hplain : Plain s.fs D F)
    (hstands : ∀ x ∈ before, Stands s.fs (D ++ x.1) x.2) :
    ∃ fs', s.fs.isDirAt (D ++ path).dropLast = true ∧
      Lays s.fs (D ++ path) (laid io (io.fault s.count) (s.fs.get (D ++ path)) piece).2 fs' ∧
      layAll io (names D) ((path, piece) :: after) s =
        if (laid io (io.fault s.count) (s.fs.get (D ++ path)) piece).1 then
          layAll io (names D) after ⟨s.count + 1, fs'⟩
        else (false, ⟨s.count + 1, fs'⟩) := by
  have hmem : (path, piece) ∈ F.pieces := by rw [hsplit]; simp
  have hne : path ≠ [] := Forest.path_ne_nil hmem
  have hparent : s.fs.isDirAt (D ++ path).dropLast = true := by
    rw [List.dropLast_append_of_ne_nil hne]
    rcases Forest.parent_before hsplit with hnil | ⟨m, hm⟩
    · rw [hnil, List.append_nil]; exact hplain.dir
    · obtain ⟨m', hm'⟩ := hstands _ hm
      exact Fs.isDirAt_of_get hm'
  have hnolink : piece.isDir = true → ∀ t, s.fs.get (D ++ path) ≠ some (.link t) := by
    intro hdir
    cases piece with
    | dir m => exact hplain.links path m hmem
    | leaf l => cases hdir
  obtain ⟨fs', hlay, hlays⟩ := lay_names io (by simp [hne]) hparent hnolink
  refine ⟨fs', hparent, hlays, ?_⟩
  rw [layAll, ← names_append, hlay]
  cases (laid io (io.fault s.count) (s.fs.get (D ++ path)) piece).1 <;> rfl

/-- Nothing becomes a link that is to be a directory. -/
theorem Plain.after {path : List FileName} {piece : Piece} {fs fs' : Host} {fault : Fault} (hF : F.distinct = true)
    (h : Plain fs D F) (hmem : (path, piece) ∈ F.pieces)
    (hlays : Lays fs (D ++ path) (laid io fault (fs.get (D ++ path)) piece).2 fs') : Plain fs' D F := by
  have hne : path ≠ [] := Forest.path_ne_nil hmem
  refine ⟨?_, ?_⟩
  · have hlonger : ¬ D ++ path <+: D := by
      intro hpre
      have hle := hpre.length_le
      have hpos := List.length_pos_iff.2 hne
      rw [List.length_append] at hle
      omega
    have hdir := h.dir
    rw [Fs.isDirAt_iff] at hdir ⊢
    rw [hlays.away D hlonger]
    exact hdir
  · intro path' m hm t
    by_cases hpre : path <+: path'
    · by_cases heq : path' = path
      · -- the entry is this directory
        subst heq
        obtain rfl := Forest.piece_unique hF hmem hm
        rw [hlays.here]
        exact laid_dir_ne_link (h.links path' m hm) t
      · cases piece with
        | leaf l => exact absurd (Forest.leaf_above hF hmem hm hpre).symm heq
        | dir m' =>
          rw [hlays.below_dir (by simp [hne]) (append_prefix_append.2 hpre) fun h => heq (List.append_cancel_left h)]
          exact h.links path' m hm t
    · rw [hlays.away _ fun h => hpre (append_prefix_append.1 h)]
      exact h.links path' m hm t

/-- What the copy of a tree keeps, from some entry on. -/
theorem layAll_keeps (hF : F.distinct = true) : ∀ (after before : List (List FileName × Piece)) (s : CopyState),
    F.pieces = before ++ after → Plain s.fs D F → (∀ x ∈ before, Stands s.fs (D ++ x.1) x.2) →
    (∀ fs fs' path piece fault, I fs → Plain fs D F → (path, piece) ∈ after → fs.isDirAt (D ++ path).dropLast = true →
      Lays fs (D ++ path) (laid io fault (fs.get (D ++ path)) piece).2 fs' → I fs') → I s.fs →
    I (layAll io (names D) after s).2.fs ∧ Plain (layAll io (names D) after s).2.fs D F ∧
      ((layAll io (names D) after s).1 = true →
        ∀ x ∈ F.pieces, Stands (layAll io (names D) after s).2.fs (D ++ x.1) x.2) := by
  intro after
  induction after with
  | nil =>
    intro before s hsplit hplain hstands _ hI
    rw [List.append_nil] at hsplit
    exact ⟨hI, hplain, fun _ => hsplit ▸ hstands⟩
  | cons x after ih =>
    obtain ⟨path, piece⟩ := x
    intro before s hsplit hplain hstands hstep hI
    have hmem : (path, piece) ∈ F.pieces := by rw [hsplit]; simp
    obtain ⟨fs', hparent, hlays, hrun⟩ := layAll_step io hsplit hplain hstands
    have hI' := hstep _ _ _ _ _ hI hplain List.mem_cons_self hparent hlays
    have hplain' := hplain.after hF hmem hlays
    rw [hrun]
    split
    · rename_i hok
      refine ih (before ++ [(path, piece)]) ⟨s.count + 1, fs'⟩ (by rw [hsplit]; simp) hplain' ?_ ?_ hI'
      · exact stands_after hF (fun x hx => by rw [hsplit]; simp [hx]) hmem
          (fun x hx => Forest.path_ne hF hsplit hx List.mem_cons_self) hstands hlays hok
      · intro fs₁ fs₂ p a fault h1 h2 h3
        exact hstep fs₁ fs₂ p a fault h1 h2 (List.mem_cons_of_mem _ h3)
    · exact ⟨hI', hplain', by simp⟩

/-- **What the copy of a tree keeps**: `I` is kept by the copy of each entry, wherever the
copy stops. If it does not stop, every entry stands. -/
theorem copyItems_keeps (hF : F.distinct = true) {s : CopyState} (hplain : Plain s.fs D F)
    (hstep : ∀ fs fs' path piece fault, I fs → Plain fs D F → (path, piece) ∈ F.pieces →
      fs.isDirAt (D ++ path).dropLast = true →
      Lays fs (D ++ path) (laid io fault (fs.get (D ++ path)) piece).2 fs' → I fs') (hI : I s.fs) :
    I (copyItems io F (names D) s).2.fs ∧ Plain (copyItems io F (names D) s).2.fs D F ∧
      ((copyItems io F (names D) s).1 = true →
        ∀ x ∈ F.pieces, Stands (copyItems io F (names D) s).2.fs (D ++ x.1) x.2) := by
  rw [copyItems_eq]
  exact layAll_keeps hF F.pieces [] s rfl hplain (by simp) hstep hI

end

/-! ## The way back -/

/-- An entry is taken back. -/
def takeBack : Piece → List (Comp FileName) → Host → Host
  | .dir _, path, fs => (rmdir fs path).getD fs
  | .leaf _, path, fs => (unlink fs path).getD fs

def takeAll (dst : List (Comp FileName)) (ps : List (List FileName × Piece)) (fs : Host) : Host :=
  ps.foldl (fun fs x => takeBack x.2 (dst ++ names x.1) fs) fs

theorem takeAll_map (dst : List (Comp FileName)) (n : FileName) : ∀ (ps : List (List FileName × Piece)) (fs : Host),
    takeAll dst (ps.map fun x => (n :: x.1, x.2)) fs = takeAll (dst ++ [.name n]) ps fs := by
  intro ps
  induction ps with
  | nil => intro fs; rfl
  | cons x ps ih =>
    intro fs
    have hpath : dst ++ names (n :: x.1) = dst ++ [.name n] ++ names x.1 := by simp [names]
    unfold takeAll at ih ⊢
    rw [List.map_cons, List.foldl_cons, List.foldl_cons, hpath]
    exact ih _

/-- **`remove_mirrored` takes back the entries of the tree one by one.** -/
theorem removeItems_eq : ∀ (F : Forest) (dst : List (Comp FileName)) (fs : Host),
    removeItems F dst fs = takeAll dst F.removals fs := by
  intro F
  induction F with
  | nil => intro dst fs; rfl
  | dir name mode items rest ih₁ ih₂ =>
    intro dst fs
    have hmap := takeAll_map dst name items.removals fs
    rw [removeItems, Forest.removals]
    unfold takeAll at hmap ih₂ ⊢
    rw [List.foldl_append, hmap, List.foldl_cons]
    simp only
    rw [ih₁, ih₂]
    rfl
  | leaf name l rest ih =>
    intro dst fs
    rw [removeItems, Forest.removals, ih]
    rfl

/-- An entry can be taken back from the place. -/
def Takeable (fs : Host) (q : List FileName) : Piece → Prop
  | .dir _ => (∃ m, fs.get q = some (.dir m)) ∧ fs.emptyAt q = true
  | .leaf _ => ∃ e, fs.get q = some e ∧ e.isDir = false

theorem takeBack_names {fs : Host} {q : List FileName} (piece : Piece) (h : NoLinks fs q.dropLast) :
    (Takeable fs q piece ∧ takeBack piece (names q) fs = fs.erase q) ∨
      (¬Takeable fs q piece ∧ takeBack piece (names q) fs = fs) := by
  cases piece with
  | dir m =>
    rcases rmdir_names h with ⟨m', hm', hemp, hrm⟩ | ⟨hno, hrm⟩
    · exact Or.inl ⟨⟨⟨m', hm'⟩, hemp⟩, by rw [takeBack, hrm]; rfl⟩
    · refine Or.inr ⟨?_, by rw [takeBack, hrm]; rfl⟩
      rintro ⟨⟨m', hm'⟩, hemp⟩
      rw [hno m' hm'] at hemp
      cases hemp
  | leaf l =>
    rcases unlink_names h with ⟨e, he, hdir, hun⟩ | ⟨hno, hun⟩
    · exact Or.inl ⟨⟨e, he, hdir⟩, by rw [takeBack, hun]; rfl⟩
    · refine Or.inr ⟨?_, by rw [takeBack, hun]; rfl⟩
      rintro ⟨e, he, hdir⟩
      rw [hno e he] at hdir
      cases hdir

section

variable {F : Forest} {D : List FileName} {I : Host → Prop}

/-- **What the way back keeps.** -/
theorem removeItems_keeps (hlinks : ∀ fs, I fs → ∀ x ∈ F.pieces, NoLinks fs (D ++ x.1).dropLast)
    (hstep : ∀ fs, ∀ x ∈ F.pieces, I fs → Takeable fs (D ++ x.1) x.2 → I (fs.erase (D ++ x.1)))
    {fs : Host} (hI : I fs) : I (removeItems F (names D) fs) := by
  rw [removeItems_eq]
  have key : ∀ (ps : List (List FileName × Piece)) (fs : Host), (∀ x ∈ ps, x ∈ F.pieces) → I fs →
      I (takeAll (names D) ps fs) := by
    intro ps
    induction ps with
    | nil => intro fs _ hI; exact hI
    | cons x ps ih =>
      intro fs hsub hI
      have hx := hsub x List.mem_cons_self
      refine ih _ (fun y hy => hsub y (List.mem_cons_of_mem _ hy)) ?_
      show I (takeBack x.2 (names D ++ names x.1) fs)
      rw [← names_append]
      rcases takeBack_names x.2 (hlinks fs hI x hx) with ⟨hrem, htake⟩ | ⟨-, htake⟩
      · rw [htake]; exact hstep fs x hx hI hrem
      · rw [htake]; exact hI
  exact key F.removals fs (fun x hx => (F.mem_removals x).1 hx) hI

end

namespace Forest

/-- An entry behind the first name starts with another one. -/
theorem head_ne {rest : Forest} {name : FileName} {x : List FileName × Piece} {xs : List FileName}
    (hname : name ∉ rest.heads) (hx : x ∈ rest.pieces) : x.1 ≠ name :: xs := by
  intro heq
  obtain ⟨n, ys, hn, hy⟩ := exists_head hx
  rw [hy, List.cons.injEq] at heq
  exact hname (heq.1 ▸ hn)

/-- What is below an entry is taken back before it. -/
theorem below_before : ∀ {F : Forest} {before after : List (List FileName × Piece)} {path : List FileName}
    {piece : Piece}, F.distinct = true → F.removals = before ++ (path, piece) :: after →
    ∀ x ∈ F.pieces, path <+: x.1 → x.1 ≠ path → x ∈ before := by
  intro F
  induction F with
  | nil => intro before after path piece _ h; simp [removals] at h
  | dir name mode items rest ih₁ ih₂ =>
    intro before after path piece hF h x hx hpre hne
    simp only [distinct, Bool.and_eq_true, decide_eq_true_eq] at hF
    obtain ⟨⟨hname, hitems⟩, hrest⟩ := hF
    rw [removals] at h
    simp only [pieces, List.cons_append, List.mem_cons, List.mem_append, List.mem_map] at hx
    rcases append_split h with ⟨cs, hsplit⟩ | ⟨cs, hbefore, hsplit⟩
    · -- the entry is in the directory
      obtain ⟨l₁, l₂, hl, hl₁, hl₂⟩ := List.map_eq_append_iff.1 hsplit
      obtain ⟨⟨path', piece'⟩, l₃, rfl, hy, -⟩ := List.map_eq_cons_iff.1 hl₂
      simp only [Prod.mk.injEq] at hy
      obtain ⟨rfl, rfl⟩ := hy
      have hmem : (path', piece') ∈ items.pieces := (items.mem_removals _).1 (by rw [hl]; simp)
      rcases hx with rfl | ⟨y, hy, rfl⟩ | hx
      · have hnil : path' = [] := by simpa using hpre
        exact absurd hnil (path_ne_nil hmem)
      · rw [List.cons_prefix_cons] at hpre
        rw [← hl₁]
        refine List.mem_map.2 ⟨y, ih₁ hitems hl y hy hpre.2 ?_, rfl⟩
        rintro rfl
        exact hne rfl
      · obtain ⟨ys, hys⟩ := hpre
        exact absurd hys.symm (head_ne hname hx)
    · cases cs with
      | nil =>
        -- the entry is the directory
        obtain ⟨hy, -⟩ := List.cons.inj hsplit
        rw [Prod.mk.injEq] at hy
        obtain ⟨rfl, rfl⟩ := hy
        rw [List.append_nil] at hbefore
        rw [hbefore]
        rcases hx with rfl | ⟨y, hy, rfl⟩ | hx
        · exact absurd rfl hne
        · exact List.mem_map.2 ⟨y, (items.mem_removals y).2 hy, rfl⟩
        · obtain ⟨ys, hys⟩ := hpre
          exact absurd hys.symm (head_ne hname hx)
      | cons c cs =>
        -- the entry is behind it
        obtain ⟨rfl, htail⟩ := List.cons.inj hsplit
        have hmem : (path, piece) ∈ rest.pieces := (rest.mem_removals _).1 (by rw [htail]; simp)
        obtain ⟨n, ys, hn, hy⟩ := exists_head hmem
        obtain ⟨zs, hzs⟩ := hpre
        simp only at hy
        have hx' : x ∈ rest.pieces := by
          rcases hx with rfl | ⟨y, -, rfl⟩ | hx
          · rw [hy] at hzs
            exact absurd ((List.cons.inj hzs).1 ▸ hn) hname
          · rw [hy] at hzs
            exact absurd ((List.cons.inj hzs).1 ▸ hn) hname
          · exact hx
        rw [hbefore]
        have := ih₂ hrest htail x hx' ⟨zs, hzs⟩ hne
        simp [this]
  | leaf name l rest ih =>
    intro before after path piece hF h x hx hpre hne
    simp only [distinct, Bool.and_eq_true, decide_eq_true_eq] at hF
    rw [removals] at h
    simp only [pieces, List.mem_cons] at hx
    cases before with
    | nil =>
      obtain ⟨hy, -⟩ := List.cons.inj h
      rw [Prod.mk.injEq] at hy
      obtain ⟨rfl, rfl⟩ := hy
      rcases hx with rfl | hx
      · exact absurd rfl hne
      · obtain ⟨ys, hys⟩ := hpre
        exact absurd hys.symm (head_ne hF.1 hx)
    | cons b before =>
      obtain ⟨rfl, htail⟩ := List.cons.inj h
      rcases hx with rfl | hx
      · exact List.mem_cons_self
      · exact List.mem_cons_of_mem _ (ih hF.2 htail x hx hpre hne)

end Forest

section

variable {F : Forest} {D : List FileName} {I : Host → Prop}

/-- What is in the way of nobody is taken back in its turn: everything below it that is an
entry of the tree came before it. -/
theorem untaken_kept {W A : List FileName → Prop} (hF : F.distinct = true) {before after : List (List FileName × Piece)}
    {x : List FileName × Piece} {fs : Host} (hsplit : F.removals = before ++ x :: after)
    (hW : ∀ q r, W q → q <+: r → W r) (hA : ∀ q r, W q → q <+: r → A r → A q)
    (hown : ∀ r e, W r → fs.get r = some e → (∃ y ∈ F.pieces, r = D ++ y.1 ∧ y.2.isDir = e.isDir) ∨ A r)
    (hgone : ∀ y ∈ before, W (D ++ y.1) → fs.get (D ++ y.1) = none ∨ A (D ++ y.1)) (hx : W (D ++ x.1))
    (hrem : ¬Takeable fs (D ++ x.1) x.2) : fs.get (D ++ x.1) = none ∨ A (D ++ x.1) := by
  have hmem : x ∈ F.pieces := (F.mem_removals x).1 (by rw [hsplit]; simp)
  cases hget : fs.get (D ++ x.1) with
  | none => exact Or.inl rfl
  | some e =>
    right
    by_contra hnot
    obtain ⟨z, hz, hzx, hkind⟩ := (hown _ e hx hget).resolve_right hnot
    -- what stands here is the entry itself
    have hzeq : z = x := by
      obtain ⟨p, a⟩ := x
      obtain ⟨p', b⟩ := z
      obtain rfl : p = p' := List.append_cancel_left hzx
      rw [Forest.piece_unique hF hz hmem]
    rw [hzeq] at hkind
    -- and nothing is below it any more
    have hempty : fs.emptyAt (D ++ x.1) = true := by
      refine (fs.emptyAt_iff _).2 fun r hr hne => ?_
      have hWr := hW _ r hx hr
      by_contra hpresent
      obtain ⟨e', he'⟩ := Option.ne_none_iff_exists'.1 hpresent
      have hr' : ¬A r := fun ha => hnot (hA _ _ hx hr ha)
      obtain ⟨y, hy, rfl, -⟩ := (hown r e' hWr he').resolve_right hr'
      have hbefore := Forest.below_before hF hsplit y hy (append_prefix_append.1 hr) fun h => hne (by rw [h])
      exact hpresent ((hgone y hbefore hWr).resolve_right hr')
    refine hrem ?_
    cases hpiece : x.2 with
    | leaf l => exact ⟨e, hget, by rw [← hkind, hpiece]; rfl⟩
    | dir m =>
      refine ⟨?_, hempty⟩
      rw [hpiece] at hkind
      cases e with
      | dir m' => exact ⟨m', hget⟩
      | _ => cases hkind

/-- **What the way back takes away**: of the places `W` and what is below them, everything
that is an entry of the tree, unless it is kept for `A`. -/
theorem removeItems_clears {W A : List FileName → Prop} (hF : F.distinct = true)
    (hlinks : ∀ fs, I fs → ∀ x ∈ F.pieces, NoLinks fs (D ++ x.1).dropLast)
    (hstep : ∀ fs, ∀ x ∈ F.pieces, I fs → Takeable fs (D ++ x.1) x.2 → I (fs.erase (D ++ x.1)))
    (hW : ∀ q r, W q → q <+: r → W r) (hA : ∀ q r, W q → q <+: r → A r → A q) {fs : Host} (hI : I fs)
    (hown : ∀ r e, W r → fs.get r = some e →
      (∃ x ∈ F.pieces, r = D ++ x.1 ∧ x.2.isDir = e.isDir) ∨ A r) :
    ∀ r, W r → (removeItems F (names D) fs).get r = none ∨ A r := by
  rw [removeItems_eq]
  have key : ∀ (after before : List (List FileName × Piece)) (fs : Host), F.removals = before ++ after → I fs →
      (∀ r e, W r → fs.get r = some e → (∃ x ∈ F.pieces, r = D ++ x.1 ∧ x.2.isDir = e.isDir) ∨ A r) →
      (∀ x ∈ before, W (D ++ x.1) → fs.get (D ++ x.1) = none ∨ A (D ++ x.1)) →
      ∀ r, W r → (takeAll (names D) after fs).get r = none ∨ A r := by
    intro after
    induction after with
    | nil =>
      intro before fs hsplit _ hown hgone r hr
      rw [List.append_nil] at hsplit
      show fs.get r = none ∨ A r
      cases hget : fs.get r with
      | none => exact Or.inl rfl
      | some e =>
        rcases hown r e hr hget with ⟨x, hx, rfl, -⟩ | ha
        · rw [← hget]
          exact hgone x (hsplit ▸ (F.mem_removals x).2 hx) hr
        · exact Or.inr ha
    | cons x after ih =>
      intro before fs hsplit hI hown hgone
      have hx : x ∈ F.pieces := (F.mem_removals x).1 (by rw [hsplit]; simp)
      show ∀ r, W r → (takeAll (names D) after (takeBack x.2 (names D ++ names x.1) fs)).get r = none ∨ A r
      rw [← names_append]
      have hnext : F.removals = (before ++ [x]) ++ after := by rw [hsplit]; simp
      rcases takeBack_names x.2 (hlinks fs hI x hx) with ⟨hrem, htake⟩ | ⟨hrem, htake⟩
      · rw [htake]
        -- nothing comes back
        have hless : ∀ r, (fs.erase (D ++ x.1)).get r = none ∨ (fs.erase (D ++ x.1)).get r = fs.get r := by
          intro r
          rw [Fs.get_erase]
          split
          · exact Or.inl rfl
          · exact Or.inr rfl
        refine ih (before ++ [x]) _ hnext (hstep fs x hx hI hrem) ?_ ?_
        · intro r e hr hget
          rcases hless r with hnone | hsame
          · rw [hnone] at hget; cases hget
          · exact hown r e hr (hsame ▸ hget)
        · intro y hy hWy
          rcases List.mem_append.1 hy with hy | hy
          · rcases hless (D ++ y.1) with hnone | hsame
            · exact Or.inl hnone
            · rw [hsame]; exact hgone y hy hWy
          · rw [List.mem_singleton.1 hy, Fs.get_erase, if_pos (List.prefix_refl _)]
            exact Or.inl rfl
      · rw [htake]
        refine ih (before ++ [x]) fs hnext hI hown ?_
        intro y hy hWy
        rcases List.mem_append.1 hy with hy | hy
        · exact hgone y hy hWy
        · rw [List.mem_singleton.1 hy] at hWy ⊢
          exact untaken_kept hF hsplit hW hA hown hgone hWy hrem
  exact key F.removals [] fs rfl hI hown (by simp)

end

end Apg
