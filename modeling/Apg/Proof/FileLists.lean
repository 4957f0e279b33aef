import Apg.Proof.Db
import Apg.Proof.Install
import Apg.Proof.Paths

/-!
# Recorded file lists

* `collectFilesFrom_roundtrip_iff`: when a list that was collected is read back from
  the table, by both of its readers.
* `copyDirAt_listed_iff`: when the list of a tree names what the copy of it has written.
-/

namespace Apg

open Posix Runs

/-! ## The scanners -/

theorem findNewline_none {data : CStr} {p : ℕ} (h : findNewline data p = none) : .newline ∉ data.drop p := by
  intro hmem
  have := List.findIdx?_eq_none_iff.1 (Option.map_eq_none_iff.1 h) _ hmem
  simp at this

/-- What is read up to the next newline. -/
theorem findNewline_some {data : CStr} {p nl : ℕ} (h : findNewline data p = some nl) :
    data.drop p = slice data p nl ++ .newline :: data.drop (nl + 1) ∧ .newline ∉ slice data p nl := by
  obtain ⟨k, hk, rfl⟩ := Option.map_eq_some_iff.1 h
  obtain ⟨hlt, hnl, hbefore⟩ := List.findIdx?_eq_some_iff_getElem.1 hk
  have hslice : slice data p (p + k) = (data.drop p).take k := by
    unfold slice
    rw [Nat.add_sub_cancel_left]
  rw [hslice]
  constructor
  · have hrest : data.drop (p + k + 1) = (data.drop p).drop (k + 1) := by rw [List.drop_drop, Nat.add_assoc]
    have hget : (data.drop p)[k] = .newline := by simpa using hnl
    rw [hrest, ← hget, List.getElem_cons_drop, List.take_append_drop]
  · intro hmem
    obtain ⟨j, hj, hget⟩ := List.getElem_of_mem hmem
    rw [List.length_take] at hj
    rw [List.getElem_take] at hget
    simpa [hget] using hbefore j (by omega)

theorem fileLines_of_notMem {s : CStr} (h : .newline ∉ s) : ∀ line : CStr, fileLines line s = [] := by
  induction s with
  | nil => intro line; rfl
  | cons c s ih =>
    intro line
    rw [List.mem_cons, not_or] at h
    rw [fileLines, if_neg fun hc => h.1 hc.symm]
    exact ih h.2 _

/-- One round of a scanner reads one line. -/
theorem fileLines_drop {data : CStr} {p nl : ℕ} (h : findNewline data p = some nl) :
    fileLines [] (data.drop p) =
      if nl > p then slice data p nl :: fileLines [] (data.drop (nl + 1)) else fileLines [] (data.drop (nl + 1)) := by
  obtain ⟨hsplit, hnot⟩ := findNewline_some h
  obtain ⟨hle, hlt⟩ := findNewline_bounds h
  have hempty : slice data p nl = [] ↔ ¬ nl > p := by
    unfold slice
    rw [← List.length_eq_zero_iff, List.length_take, List.length_drop]
    omega
  rw [hsplit, fileLines_newline hnot, List.nil_append]
  by_cases hp : nl > p
  · rw [if_neg fun he => (hempty.1 he) hp, if_pos hp]
  · rw [if_pos (hempty.2 hp), if_neg hp]

/-- The array has a place for every line that is left. -/
theorem deserializeLoop_eq (data : CStr) (count p : ℕ) (items : List CStr)
    (hroom : items.length + (data.drop p).count .newline ≤ count) :
    deserializeLoop data count p items = items ++ fileLines [] (data.drop p) := by
  fun_induction deserializeLoop data count p items with
  | case1 p items hcond hnone =>
    rw [fileLines_of_notMem (findNewline_none hnone), List.append_nil]
  | case2 p items hcond nl hnl ih =>
    have hcount : (data.drop p).count .newline = (data.drop (nl + 1)).count .newline + 1 := by
      obtain ⟨hsplit, hnot⟩ := findNewline_some hnl
      rw [hsplit, List.count_append, List.count_eq_zero.2 hnot, List.count_cons_self, Nat.zero_add]
    rw [fileLines_drop hnl]
    simp only [dite_eq_ite] at ih
    by_cases hp : nl > p
    · rw [if_pos hp] at ih ⊢
      rw [ih (by rw [List.length_append, List.length_singleton]; omega), if_pos hp, List.append_assoc]
      rfl
    · rw [if_neg hp] at ih ⊢
      rw [ih (by omega), if_neg hp]
  | case3 p items hcond =>
    -- the end is reached, or no newline is left
    have hnone : .newline ∉ data.drop p := by
      rw [← List.count_eq_zero]
      by_cases hp : p < data.length
      · have : ¬ items.length < count := fun hi => hcond ⟨hp, hi⟩
        omega
      · rw [List.drop_eq_nil_of_le (by omega), List.count_nil]
    rw [fileLines_of_notMem hnone, List.append_nil]

/-- The reader of a list reads its lines. -/
theorem deserializeFilesScan_eq (data : CStr) : deserializeFilesScan data = deserializeFiles data := by
  unfold deserializeFilesScan deserializeFiles
  by_cases hlen : data.length = 0
  · rw [if_pos hlen, List.length_eq_zero_iff.1 hlen]
    rfl
  · rw [if_neg hlen]
    simp only
    by_cases hcount : data.count .newline = 0
    · rw [if_pos hcount, fileLines_of_notMem (List.count_eq_zero.1 hcount)]
    · rw [if_neg hcount, deserializeLoop_eq data _ 0 [] (by simp), List.nil_append, List.drop_zero]

theorem ownerLoop_eq (data pkgName : CStr) (p : ℕ) (visited : List CStr) (owners : Table CStr CStr) :
    ownerLoop data pkgName p visited owners =
      (visited ++ fileLines [] (data.drop p), deleteOwners pkgName (fileLines [] (data.drop p)) owners) := by
  fun_induction ownerLoop data pkgName p visited owners with
  | case1 p visited owners hlt hnone =>
    rw [fileLines_of_notMem (findNewline_none hnone), List.append_nil]
    rfl
  | case2 p visited owners hlt nl hnl hp ih =>
    simp only [dite_eq_ite] at ih
    rw [ih, fileLines_drop hnl, if_pos hp, List.append_assoc]
    rfl
  | case3 p visited owners hlt nl hnl hp ih => rw [ih, fileLines_drop hnl, if_neg hp]
  | case4 p visited owners hend =>
    rw [List.drop_eq_nil_of_le (by omega)]
    simp [fileLines, deleteOwners]

/-- The scanner that takes back owners visits the same lines. -/
theorem deleteFileOwnerEntriesScan_eq (data pkgName : CStr) (owners : Table CStr CStr) :
    deleteFileOwnerEntriesScan data pkgName owners =
      (deserializeFiles data, deleteOwners pkgName (deserializeFiles data) owners) := by
  unfold deleteFileOwnerEntriesScan deserializeFiles
  by_cases hlen : data.length = 0
  · rw [if_pos hlen, List.length_eq_zero_iff.1 hlen]
    rfl
  · rw [if_neg hlen, ownerLoop_eq, List.drop_zero, List.nil_append]

/-! ## Collected lists -/

theorem collectRecursive_append (base : CStr) : ∀ (items : Forest) (dir : CStr),
    collectRecursive (base ++ dir) items = (collectRecursive dir items).map (base ++ ·) := by
  intro items
  induction items with
  | nil => intro dir; rfl
  | dir name mode items rest ih1 ih2 =>
    intro dir
    rw [collectRecursive, collectRecursive, List.append_assoc, ih1, ih2, List.map_append]
  | leaf name leaf rest ih =>
    intro dir
    rw [collectRecursive, collectRecursive, List.append_assoc, ih, List.map_cons]

/-- The paths are the same below any base. -/
theorem collectFilesFrom_eq (base : CStr) (items : Forest) : collectFilesFrom base items = collectRecursive [] items := by
  unfold collectFilesFrom
  have h := collectRecursive_append base items []
  rw [List.append_nil] at h
  rw [h, List.map_map]
  simp [Function.comp_def]

theorem ne_nil_of_mem_collectRecursive : ∀ (items : Forest) (dir : CStr), ∀ path ∈ collectRecursive dir items,
    path ≠ [] := by
  intro items
  induction items with
  | nil => intro dir path h; cases h
  | dir name mode items rest ih1 ih2 =>
    intro dir path h
    rcases List.mem_append.1 h with h | h
    · exact ih1 _ path h
    · exact ih2 _ path h
  | leaf name leaf rest ih =>
    intro dir path h
    rcases List.mem_cons.1 h with rfl | h
    · simp
    · exact ih _ path h

/-- **A collected list survives the table** exactly when no path has a newline: then both
readers see the paths that were written. -/
theorem collectFilesFrom_roundtrip_iff (base pkgName : CStr) (items : Forest) (owners : Table CStr CStr) :
    (deserializeFilesScan (serializeFiles ((collectFilesFrom base items).map some)) = collectFilesFrom base items ∧
      (deleteFileOwnerEntriesScan (serializeFiles ((collectFilesFrom base items).map some)) pkgName owners).1 =
        collectFilesFrom base items) ↔
      ∀ path ∈ collectFilesFrom base items, .newline ∉ path := by
  rw [deleteFileOwnerEntriesScan_eq, deserializeFilesScan_eq, and_self]
  have hpaths : ((collectFilesFrom base items).map some).reduceOption = collectFilesFrom base items := by
    simp [List.reduceOption]
  constructor
  · intro h path hpath
    rw [← h] at hpath
    exact newline_notMem_fileLines _ [] (by simp) path hpath
  · intro h
    rw [deserialize_serialize (by rwa [hpaths]), hpaths, List.filter_eq_self]
    intro path hpath
    rw [collectFilesFrom_eq] at hpath
    simpa using ne_nil_of_mem_collectRecursive items [] path hpath

theorem brokenName_ok : cstr "a\nb" ≠ [] ∧ cstr "a\nb" ≠ cstr "." ∧ cstr "a\nb" ≠ cstr ".." ∧
    CChar.slash ∉ cstr "a\nb" := by
  decide

/-- A file whose name has a newline. -/
def brokenName : Forest := .leaf (fileName "a\nb" brokenName_ok) (.file [] 0o644) .nil

/-- It is read back as two paths. -/
theorem collectFilesFrom_broken :
    deserializeFilesScan (serializeFiles ((collectFilesFrom (cstr "/d") brokenName).map some)) =
        [cstr "/a", cstr "b"] ∧
      collectFilesFrom (cstr "/d") brokenName = [cstr "/a\nb"] ∧
      (deleteFileOwnerEntriesScan (serializeFiles ((collectFilesFrom (cstr "/d") brokenName).map some)) (cstr "p")
        .empty).1 = [cstr "/a", cstr "b"] := by
  rw [deleteFileOwnerEntriesScan_eq, deserializeFilesScan_eq]
  decide

/-! ## Copied paths -/

theorem copyLeafAt_state (io : CopyIo) (leaf : Leaf) (dstPath : CStr) (l : CopyLog) :
    (copyLeafAt io leaf dstPath l).1 = (copyLeaf io leaf (comps dstPath) l.state).1 ∧
      (copyLeafAt io leaf dstPath l).2.state = (copyLeaf io leaf (comps dstPath) l.state).2 := by
  unfold copyLeafAt
  rcases copyLeaf io leaf (comps dstPath) l.state with ⟨ok, s⟩
  cases ok <;> exact ⟨rfl, rfl⟩

theorem copyLeafAt_written {io : CopyIo} {leaf : Leaf} {dstPath : CStr} {l : CopyLog}
    (h : (copyLeafAt io leaf dstPath l).1 = true) (x : CStr) :
    x ∈ (copyLeafAt io leaf dstPath l).2.written ↔ x ∈ l.written ∨ leaf ≠ .special ∧ x = dstPath := by
  unfold copyLeafAt at h ⊢
  rcases hcopy : copyLeaf io leaf (comps dstPath) l.state with ⟨ok, s⟩
  rw [hcopy] at h
  cases ok with
  | false => cases h
  | true =>
    by_cases hleaf : leaf = .special
    · simp [hleaf]
    · simp [hleaf]

/-- **The strings of the copy name its places**: with them it does what it did without. -/
theorem copyItemsAt_refines (io : CopyIo) : ∀ (items : Forest) (dst : CStr) (l : CopyLog),
    (copyItemsAt io items dst l).1 = (copyItems io items (comps dst) l.state).1 ∧
      (copyItemsAt io items dst l).2.state = (copyItems io items (comps dst) l.state).2 := by
  intro items
  induction items with
  | nil => intro dst l; exact ⟨rfl, rfl⟩
  | dir name mode items rest ih1 ih2 =>
    intro dst l
    rw [copyItemsAt, copyItems, comps_concatDirs]
    rcases henter : enterDir io mode (comps dst ++ [.name name]) l.state with ⟨ok, s⟩
    rw [henter]
    cases ok with
    | false => exact ⟨rfl, rfl⟩
    | true =>
      have h := ih1 (concatDirs dst name.1) { l with state := s }
      rw [comps_concatDirs] at h
      rcases hcopy : copyItemsAt io items (concatDirs dst name.1) { l with state := s } with ⟨ok', l'⟩
      rcases hcopy' : copyItems io items (comps dst ++ [.name name]) s with ⟨ok'', s'⟩
      rw [hcopy, hcopy'] at h
      simp only [hcopy, hcopy']
      obtain ⟨rfl, rfl⟩ := h
      cases ok' with
      | false => exact ⟨rfl, rfl⟩
      | true => exact ih2 dst l'
  | leaf name leaf rest ih =>
    intro dst l
    have h := copyLeafAt_state io leaf (concatDirs dst name.1) l
    rw [comps_concatDirs] at h
    rw [copyItemsAt, copyItems]
    rcases hcopy : copyLeafAt io leaf (concatDirs dst name.1) l with ⟨ok', l'⟩
    rcases hcopy' : copyLeaf io leaf (comps dst ++ [.name name]) l.state with ⟨ok'', s'⟩
    rw [hcopy, hcopy'] at h
    simp only [hcopy']
    obtain ⟨rfl, rfl⟩ := h
    cases ok' with
    | false => exact ⟨rfl, rfl⟩
    | true => exact ih dst l'

theorem copyDirAt_refines (io : CopyIo) (src : Folder) (dst : CStr) (fs : Host) :
    (copyDirAt io src dst fs).1 = (copyDir io src (comps dst) fs).1 ∧
      (copyDirAt io src dst fs).2.state.fs = (copyDir io src (comps dst) fs).2 := by
  unfold copyDirAt copyDir
  rcases makeDst io src.mode (comps dst) ⟨0, fs⟩ with ⟨ok, s⟩
  cases ok with
  | false => exact ⟨rfl, rfl⟩
  | true =>
    have h := copyItemsAt_refines io src.items dst { state := s }
    exact ⟨h.1, congrArg CopyState.fs h.2⟩

/-- The path of an entry, joined name by name. -/
def joinAll (dst : CStr) (path : List FileName) : CStr := path.foldl (fun dst name => concatDirs dst name.1) dst

/-- The path of an entry in a collected list. -/
def listedPath (path : List FileName) : CStr := path.flatMap fun name => .slash :: name.1

theorem Forest.leaf_mem_dir {name : FileName} {mode : ℕ} {items rest : Forest} {path : List FileName} {leaf : Leaf} :
    (path, Piece.leaf leaf) ∈ (Forest.dir name mode items rest).pieces ↔
      (∃ path', path = name :: path' ∧ (path', Piece.leaf leaf) ∈ items.pieces) ∨
        (path, Piece.leaf leaf) ∈ rest.pieces := by
  simp only [Forest.pieces, List.cons_append, List.mem_cons, List.mem_append, List.mem_map, Prod.mk.injEq, reduceCtorEq,
    and_false, false_or]
  constructor
  · rintro (⟨⟨path', piece⟩, hmem, rfl, rfl⟩ | h)
    · exact Or.inl ⟨path', rfl, hmem⟩
    · exact Or.inr h
  · rintro (⟨path', rfl, hmem⟩ | h)
    · exact Or.inl ⟨_, hmem, rfl, rfl⟩
    · exact Or.inr h

theorem Forest.leaf_mem_leaf {name : FileName} {leaf leaf' : Leaf} {rest : Forest} {path : List FileName} :
    (path, Piece.leaf leaf) ∈ (Forest.leaf name leaf' rest).pieces ↔
      (path = [name] ∧ leaf = leaf') ∨ (path, Piece.leaf leaf) ∈ rest.pieces := by
  simp [Forest.pieces]

theorem mem_collectRecursive : ∀ (items : Forest) (dir x : CStr), x ∈ collectRecursive dir items ↔
    ∃ path leaf, (path, .leaf leaf) ∈ items.pieces ∧ x = dir ++ listedPath path := by
  intro items
  induction items with
  | nil => intro dir x; simp [collectRecursive, Forest.pieces]
  | dir name mode items rest ih1 ih2 =>
    intro dir x
    have hpath (path : List FileName) :
        (dir ++ .slash :: name.1) ++ listedPath path = dir ++ listedPath (name :: path) := by
      simp [listedPath]
    rw [collectRecursive, List.mem_append, ih1, ih2]
    simp only [Forest.leaf_mem_dir, hpath]
    constructor
    · rintro (⟨path, leaf, hmem, rfl⟩ | ⟨path, leaf, hmem, rfl⟩)
      · exact ⟨_, leaf, Or.inl ⟨path, rfl, hmem⟩, rfl⟩
      · exact ⟨path, leaf, Or.inr hmem, rfl⟩
    · rintro ⟨path, leaf, ⟨path', rfl, hmem⟩ | hmem, rfl⟩
      · exact Or.inl ⟨path', leaf, hmem, rfl⟩
      · exact Or.inr ⟨path, leaf, hmem, rfl⟩
  | leaf name leaf' rest ih =>
    intro dir x
    rw [collectRecursive, List.mem_cons, ih]
    simp only [Forest.leaf_mem_leaf]
    constructor
    · rintro (rfl | ⟨path, leaf, hmem, rfl⟩)
      · exact ⟨[name], leaf', Or.inl ⟨rfl, rfl⟩, by simp [listedPath]⟩
      · exact ⟨path, leaf, Or.inr hmem, rfl⟩
    · rintro ⟨path, leaf, ⟨rfl, rfl⟩ | hmem, rfl⟩
      · exact Or.inl (by simp [listedPath])
      · exact Or.inr ⟨path, leaf, hmem, rfl⟩

/-- A copy that succeeds writes all files and links of the tree, and nothing else. -/
theorem copyItemsAt_written (io : CopyIo) : ∀ (items : Forest) (dst : CStr) (l : CopyLog),
    (copyItemsAt io items dst l).1 = true → ∀ x, x ∈ (copyItemsAt io items dst l).2.written ↔
      x ∈ l.written ∨ ∃ path leaf, (path, .leaf leaf) ∈ items.pieces ∧ leaf ≠ .special ∧ x = joinAll dst path := by
  intro items
  induction items with
  | nil => intro dst l _ x; simp [copyItemsAt, Forest.pieces]
  | dir name mode items rest ih1 ih2 =>
    intro dst l h x
    rw [copyItemsAt] at h ⊢
    rcases henter : enterDir io mode (comps (concatDirs dst name.1)) l.state with ⟨ok, s⟩
    rw [henter] at h
    cases ok with
    | false => cases h
    | true =>
      rcases hcopy : copyItemsAt io items (concatDirs dst name.1) { l with state := s } with ⟨ok', l'⟩
      simp only [hcopy] at h ⊢
      cases ok' with
      | false => cases h
      | true =>
        have hitems := ih1 (concatDirs dst name.1) { l with state := s } (by rw [hcopy]) x
        rw [hcopy] at hitems
        rw [ih2 dst l' h x, hitems, or_assoc]
        refine or_congr_right ?_
        simp only [Forest.leaf_mem_dir]
        constructor
        · rintro (⟨path, leaf, hmem, hleaf, rfl⟩ | ⟨path, leaf, hmem, hleaf, rfl⟩)
          · exact ⟨_, leaf, Or.inl ⟨path, rfl, hmem⟩, hleaf, rfl⟩
          · exact ⟨path, leaf, Or.inr hmem, hleaf, rfl⟩
        · rintro ⟨path, leaf, ⟨path', rfl, hmem⟩ | hmem, hleaf, rfl⟩
          · exact Or.inl ⟨path', leaf, hmem, hleaf, rfl⟩
          · exact Or.inr ⟨path, leaf, hmem, hleaf, rfl⟩
  | leaf name leaf' rest ih =>
    intro dst l h x
    rw [copyItemsAt] at h ⊢
    rcases hcopy : copyLeafAt io leaf' (concatDirs dst name.1) l with ⟨ok', l'⟩
    rw [hcopy] at h
    cases ok' with
    | false => cases h
    | true =>
      have hleaf := copyLeafAt_written (h := by rw [hcopy]) x
      rw [hcopy] at hleaf
      rw [ih dst l' h x, hleaf, or_assoc]
      refine or_congr_right ?_
      simp only [Forest.leaf_mem_leaf]
      constructor
      · rintro (⟨hne, rfl⟩ | ⟨path, leaf, hmem, hne, rfl⟩)
        · exact ⟨[name], leaf', Or.inl ⟨rfl, rfl⟩, hne, rfl⟩
        · exact ⟨path, leaf, Or.inr hmem, hne, rfl⟩
      · rintro ⟨path, leaf, ⟨rfl, rfl⟩ | hmem, hne, rfl⟩
        · exact Or.inl ⟨hne, rfl⟩
        · exact Or.inr ⟨path, leaf, hmem, hne, rfl⟩

/-- **Joining name by name is joining once.** -/
theorem concatDirs_listedPath {path : List FileName} (hpath : path ≠ []) (dst : CStr) :
    concatDirs dst (listedPath path) = joinAll dst path := by
  induction path generalizing dst with
  | nil => exact absurd rfl hpath
  | cons name path ih =>
    have hlisted : listedPath (name :: path) = .slash :: (name.1 ++ listedPath path) := rfl
    rw [hlisted, concatDirs_slash]
    cases path with
    | nil =>
      rw [listedPath, List.flatMap_nil, List.append_nil]
      rfl
    | cons name' path =>
      obtain ⟨rest, hrest⟩ : ∃ rest, listedPath (name' :: path) = .slash :: rest := ⟨_, rfl⟩
      calc concatDirs dst (name.1 ++ listedPath (name' :: path))
          = concatDirs dst (concatDirs name.1 rest) := by rw [concatDirs_eq name.1, concatDirs_squeeze, hrest]
        _ = concatDirs dst (concatDirs name.1 (listedPath (name' :: path))) := by rw [hrest, concatDirs_slash]
        _ = concatDirs (concatDirs dst name.1) (listedPath (name' :: path)) := (concatDirs_assoc _ _ _).symm
        _ = joinAll dst (name :: name' :: path) := ih (by simp) _

theorem comps_joinAll (dst : CStr) (path : List FileName) : comps (joinAll dst path) = comps dst ++ names path := by
  induction path generalizing dst with
  | nil => simp [joinAll]
  | cons name path ih =>
    have h := ih (concatDirs dst name.1)
    rw [comps_concatDirs, List.append_assoc] at h
    exact h

/-- Entries of one tree that are joined to the same path are the same. -/
theorem joinAll_injective {dst : CStr} {path path' : List FileName} (h : joinAll dst path = joinAll dst path') :
    path = path' := by
  have hcomps := congrArg comps h
  rw [comps_joinAll, comps_joinAll] at hcomps
  exact List.map_injective_iff.2 (fun _ _ h => Comp.name.inj h) (List.append_cancel_left hcomps)

/-- **The list of a tree names what its copy has written**, however the root is spelt and in
whatever order directories are read, exactly when the tree has nothing but directories, files
and links: anything else is listed and not copied. -/
theorem copyDirAt_listed_iff (io : CopyIo) (src listed : Folder) (root base : CStr) (fs : Host)
    (hsame : ∀ x, x ∈ listed.items.pieces ↔ x ∈ src.items.pieces) (hok : (copyDirAt io src root fs).1 = true) :
    (∀ path, path ∈ (copyDirAt io src root fs).2.written ↔
        ∃ file ∈ collectFilesFrom base listed.items, path = concatDirs root file) ↔
      ∀ path, (path, .leaf .special) ∉ src.items.pieces := by
  have hwritten : ∀ x, x ∈ (copyDirAt io src root fs).2.written ↔
      ∃ path leaf, (path, .leaf leaf) ∈ src.items.pieces ∧ leaf ≠ .special ∧ x = joinAll root path := by
    intro x
    unfold copyDirAt at hok ⊢
    rcases hmake : makeDst io src.mode (comps root) ⟨0, fs⟩ with ⟨ok, s⟩
    rw [hmake] at hok
    cases ok with
    | false => cases hok
    | true => simpa using copyItemsAt_written io src.items root { state := s } hok x
  have hlisted : ∀ x, (∃ file ∈ collectFilesFrom base listed.items, x = concatDirs root file) ↔
      ∃ path leaf, (path, .leaf leaf) ∈ src.items.pieces ∧ x = joinAll root path := by
    intro x
    simp only [collectFilesFrom_eq, mem_collectRecursive, hsame, List.nil_append]
    constructor
    · rintro ⟨_, ⟨path, leaf, hmem, rfl⟩, rfl⟩
      exact ⟨path, leaf, hmem, concatDirs_listedPath (Forest.path_ne_nil hmem) root⟩
    · rintro ⟨path, leaf, hmem, rfl⟩
      exact ⟨_, ⟨path, leaf, hmem, rfl⟩, (concatDirs_listedPath (Forest.path_ne_nil hmem) root).symm⟩
  simp only [hwritten, hlisted]
  constructor
  · intro h path hspecial
    -- its path is written for another entry, which is then the same
    obtain ⟨path', leaf, hmem, hleaf, heq⟩ := (h (joinAll root path)).2 ⟨path, _, hspecial, rfl⟩
    obtain rfl := joinAll_injective heq
    have := Forest.piece_unique src.distinct hspecial hmem
    exact hleaf (Piece.leaf.inj this).symm
  · intro h x
    constructor
    · rintro ⟨path, leaf, hmem, -, rfl⟩
      exact ⟨path, leaf, hmem, rfl⟩
    · rintro ⟨path, leaf, hmem, rfl⟩
      exact ⟨path, leaf, hmem, fun hleaf => h path (hleaf ▸ hmem), rfl⟩

theorem etc_ok : cstr "etc" ≠ [] ∧ cstr "etc" ≠ cstr "." ∧ cstr "etc" ≠ cstr ".." ∧ CChar.slash ∉ cstr "etc" := by decide

theorem motd_ok : cstr "motd" ≠ [] ∧ cstr "motd" ≠ cstr "." ∧ cstr "motd" ≠ cstr ".." ∧ CChar.slash ∉ cstr "motd" := by
  decide

theorem hosts_ok : cstr "hosts" ≠ [] ∧ cstr "hosts" ≠ cstr "." ∧ cstr "hosts" ≠ cstr ".." ∧
    CChar.slash ∉ cstr "hosts" := by
  decide

/-- A directory with a file and a link. -/
def etcItems : Forest :=
  .dir (fileName "etc" etc_ok) 0o755
    (.leaf (fileName "motd" motd_ok) (.file [] 0o644) (.leaf (fileName "hosts" hosts_ok) (.link (cstr "motd")) .nil)) .nil

/-- The same directory, read in another order. -/
def etcItemsTurned : Forest :=
  .dir (fileName "etc" etc_ok) 0o755
    (.leaf (fileName "hosts" hosts_ok) (.link (cstr "motd")) (.leaf (fileName "motd" motd_ok) (.file [] 0o644) .nil)) .nil

theorem etcItems_distinct : etcItems.distinct = true ∧ etcItemsTurned.distinct = true := by decide

theorem etcItems_same (x : List FileName × Piece) : x ∈ etcItemsTurned.pieces ↔ x ∈ etcItems.pieces := by
  simp only [etcItemsTurned, etcItems, Forest.pieces, List.map_cons, List.map_nil, List.cons_append, List.nil_append,
    List.mem_cons, List.not_mem_nil, or_false]
  exact or_congr_right or_comm

/-- A copy to `//`. -/
theorem copyDirAt_listed_etc :
    (copyDirAt {} ⟨0o755, etcItems, etcItems_distinct.1⟩ (cstr "//") .empty).1 = true ∧
      ∀ path, path ∈ (copyDirAt {} ⟨0o755, etcItems, etcItems_distinct.1⟩ (cstr "//") .empty).2.written ↔
        ∃ file ∈ collectFilesFrom (cstr "/d/") etcItemsTurned, path = concatDirs (cstr "//") file := by
  have hok : (copyDirAt {} ⟨0o755, etcItems, etcItems_distinct.1⟩ (cstr "//") .empty).1 = true := by decide
  refine ⟨hok, (copyDirAt_listed_iff {} ⟨0o755, etcItems, etcItems_distinct.1⟩
    ⟨0o755, etcItemsTurned, etcItems_distinct.2⟩ (cstr "//") (cstr "/d/") .empty etcItems_same hok).2 ?_⟩
  intro path h
  simp [etcItems, Forest.pieces] at h

theorem pipe_ok : cstr "pipe" ≠ [] ∧ cstr "pipe" ≠ cstr "." ∧ cstr "pipe" ≠ cstr ".." ∧ CChar.slash ∉ cstr "pipe" := by
  decide

/-- A directory with a named pipe. -/
def pipeItems : Forest := .leaf (fileName "pipe" pipe_ok) .special .nil

theorem pipeItems_distinct : pipeItems.distinct = true := by decide

/-- The pipe is listed and not written. -/
theorem copyDirAt_listed_pipe :
    (copyDirAt {} ⟨0o755, pipeItems, pipeItems_distinct⟩ (cstr "/") .empty).1 = true ∧
      (copyDirAt {} ⟨0o755, pipeItems, pipeItems_distinct⟩ (cstr "/") .empty).2.written = [] ∧
      collectFilesFrom (cstr "/d") pipeItems = [cstr "/pipe"] := by
  decide

end Apg
