import Apg.Spec.Db
import Apg.Spec.Install

/-!
# Buffers

The loops of `util.c` and of the scanners in `db/` as they run over bytes of memory.
`Spec/Install.lean` and `Spec/Db.lean` have what they compute.
-/

namespace Apg

/-- A byte of a buffer; `none` is the terminator. -/
abbrev Cell := Option CChar

/-- The string at the start of a buffer. -/
def cstrAt (buf : List Cell) : CStr := (buf.takeWhile Option.isSome).reduceOption

/-- What `malloc` returns: so many bytes, whatever they hold. -/
def malloc (junk : ℕ → Cell) (size : ℕ) : List Cell := (List.range size).map junk

/-! ## Joining -/

/-- A loop of `concat`: the characters of a string, from index `i` on. -/
def copyChars (result : List Cell) (i : ℕ) : CStr → List Cell
  | [] => result
  | c :: str => copyChars (result.set i (some c)) (i + 1) str

def concat (junk : ℕ → Cell) (str1 str2 : CStr) : List Cell :=
  let result := malloc junk (str1.length + str2.length + 1)
  let result := copyChars (copyChars result 0 str1) str1.length str2
  result.set (str1.length + str2.length) none

/-- The inner loop of `concat_dirs`. -/
def skipSlashes (result : List Cell) (i : ℕ) : ℕ :=
  if i < result.length ∧ result.getD i none = some .slash then skipSlashes result (i + 1) else i
  termination_by result.length - i

theorem le_skipSlashes (result : List Cell) (i : ℕ) : i ≤ skipSlashes result i := by
  fun_induction skipSlashes result i with
  | case1 i _ ih => omega
  | case2 i _ => omega

/-- Where `concat_dirs` reads next. -/
def nextIndex (result : List Cell) (i : ℕ) : ℕ :=
  if result.getD i none = some .slash then skipSlashes result i else i + 1

theorem lt_nextIndex {result : List Cell} {i : ℕ} (hi : i < result.length) : i < nextIndex result i := by
  unfold nextIndex
  split
  · rename_i hslash
    rw [skipSlashes, if_pos ⟨hi, hslash⟩]
    have := le_skipSlashes result (i + 1)
    omega
  · omega

/-- The outer loop of `concat_dirs`: the buffer is read at `i` and overwritten at `j`. -/
def squeezeLoop (result : List Cell) (i j : ℕ) : List Cell :=
  if i < result.length ∧ result.getD i none ≠ none then
    squeezeLoop (result.set j (result.getD i none)) (nextIndex (result.set j (result.getD i none)) i) (j + 1)
  else result.set j none
  termination_by result.length - i
  decreasing_by
    rename_i h
    have hlen : (result.set j (result.getD i none)).length = result.length := List.length_set
    have := lt_nextIndex (hlen.symm ▸ h.1)
    omega

/-- `concat_dirs`, with the two blocks of memory it gets. -/
def concatDirsInPlace (junk junk' : ℕ → Cell) (path1 path2 : CStr) : CStr :=
  let withSep := concat junk path1 [.slash]
  let result := concat junk' (cstrAt withSep) path2
  cstrAt (squeezeLoop result 0 0)

/-! ## Copying by name -/

/-- The paths of the files and links that `copy_dir` has written, and where it stands. -/
structure CopyLog where
  written : List CStr := []
  state : CopyState

def copyLeafAt (io : CopyIo) (leaf : Leaf) (dstPath : CStr) (l : CopyLog) : Bool × CopyLog :=
  match copyLeaf io leaf (comps dstPath) l.state with
  | (false, s) => (false, { l with state := s })
  | (true, s) => (true, ⟨if leaf = .special then l.written else l.written ++ [dstPath], s⟩)

/-- The loop of `copy_dir`, with the strings it builds. -/
def copyItemsAt (io : CopyIo) : Forest → CStr → CopyLog → Bool × CopyLog
  | .nil, _, l => (true, l)
  | .dir name mode items rest, dst, l =>
    match enterDir io mode (comps (concatDirs dst name.1)) l.state with
    | (false, s) => (false, { l with state := s })
    | (true, s) =>
      match copyItemsAt io items (concatDirs dst name.1) { l with state := s } with
      | (false, l) => (false, l)
      | (true, l) => copyItemsAt io rest dst l
  | .leaf name leaf rest, dst, l =>
    match copyLeafAt io leaf (concatDirs dst name.1) l with
    | (false, l) => (false, l)
    | (true, l) => copyItemsAt io rest dst l

def copyDirAt (io : CopyIo) (src : Folder) (dst : CStr) (fs : Host) : Bool × CopyLog :=
  match makeDst io src.mode (comps dst) ⟨0, fs⟩ with
  | (false, s) => (false, { state := s })
  | (true, s) => copyItemsAt io src.items dst { state := s }

/-! ## File lists -/

/-- `collect_files`: the paths without the name of the base. -/
def collectFilesFrom (base : CStr) (items : Forest) : List CStr :=
  (collectRecursive base items).map fun path => path.drop base.length

/-- `memchr(p, '\n', end - p)`, as a place in the buffer. -/
def findNewline (data : CStr) (p : ℕ) : Option ℕ := ((data.drop p).findIdx? (· = .newline)).map (p + ·)

theorem findNewline_bounds {data : CStr} {p nl : ℕ} (h : findNewline data p = some nl) :
    p ≤ nl ∧ nl < data.length := by
  obtain ⟨k, hk, rfl⟩ := Option.map_eq_some_iff.1 h
  have hlt := (List.findIdx?_eq_some_iff_getElem.1 hk).1
  rw [List.length_drop] at hlt
  omega

/-- The bytes from `p` up to `nl`. -/
def slice (data : CStr) (p nl : ℕ) : CStr := (data.drop p).take (nl - p)

/-- The second loop of `deserialize_files`; `items` has `count` places. -/
def deserializeLoop (data : CStr) (count p : ℕ) (items : List CStr) : List CStr :=
  if p < data.length ∧ items.length < count then
    match _h : findNewline data p with
    | none => items
    | some nl => deserializeLoop data count (nl + 1) (if nl > p then items ++ [slice data p nl] else items)
  else items
  termination_by data.length - p
  decreasing_by
    have := findNewline_bounds ‹_›
    omega

def deserializeFilesScan (data : CStr) : List CStr :=
  if data.length = 0 then []
  else
    let count := data.count .newline
    if count = 0 then [] else deserializeLoop data count 0 []

/-- The loop of `delete_file_owner_entries`, with the paths it has looked up. -/
def ownerLoop (data pkgName : CStr) (p : ℕ) (visited : List CStr) (owners : Table CStr CStr) :
    List CStr × Table CStr CStr :=
  if p < data.length then
    match _h : findNewline data p with
    | none => (visited, owners)
    | some nl =>
      if nl > p then
        ownerLoop data pkgName (nl + 1) (visited ++ [slice data p nl])
          (if owners.get (slice data p nl) = some pkgName then owners.del (slice data p nl) else owners)
      else ownerLoop data pkgName (nl + 1) visited owners
  else (visited, owners)
  termination_by data.length - p
  decreasing_by
    all_goals
      have := findNewline_bounds ‹_›
      omega

def deleteFileOwnerEntriesScan (data pkgName : CStr) (owners : Table CStr CStr) : List CStr × Table CStr CStr :=
  if data.length = 0 then ([], owners) else ownerLoop data pkgName 0 [] owners

end Apg
