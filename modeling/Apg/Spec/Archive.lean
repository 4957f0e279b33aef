import Apg.Spec.Install

/-!
# Extracting an archive

`archive.c`. What `libarchive` answers is told beforehand (`ArchiveStream`): how each
header is read and written, how each block of data is, and how reading ends.
-/

namespace Apg

/-- `PATH_MAX`. -/
def pathMax : ℕ := 4096

/-! ## The target of a hard link -/

theorem strchrNext_length {s t : CStr} {c : CChar} (h : strchrNext s c = some t) : t.length < s.length := by
  unfold strchrNext at h
  have hle := List.length_dropWhile_le (fun x => decide (x ≠ c)) s
  split at h
  · simp at h
  · rename_i hs
    obtain rfl := Option.some.inj h
    rw [hs, List.length_cons] at hle
    omega

/-- The loop of `is_safe_relative_path`: one segment in each round. -/
def safeSegments (p : CStr) : Bool :=
  if p = [] then true
  else
    -- up to the next slash, or else the whole rest
    let segLen := (p.takeWhile (· ≠ .slash)).length
    if segLen = 2 ∧ p[0]? = some .dot ∧ p[1]? = some .dot then false
    else
      match _h : strchrNext p .slash with
      | none => true
      | some next => safeSegments next
  termination_by p.length
  decreasing_by exact strchrNext_length ‹_›

def isSafeRelativePath : Option CStr → Bool
  | none => false
  | some path => if path = [] ∨ path[0]? = some .slash then false else safeSegments path

/-! ## Extracting -/

/-- What a call of `libarchive` returns. -/
inductive ArchiveStatus
  | ok | eof | retry | warn | failed | fatal
  deriving DecidableEq

/-- An entry whose header was read: what it asks for, how its header is written, how
each block of data that is read is written, and what ends the reading of its data.
`errorString` is what `archive_error_string` says of a call that fails. -/
structure ArchiveEntry where
  pathname : CStr
  hardlink : Option CStr := none
  header : ArchiveStatus := .ok
  blocks : List ArchiveStatus := []
  dataEnd : {r : ArchiveStatus // r ≠ .ok}
  errorString : CStr := []

/-- What comes from an archive: whether it opens, the headers that are read, and what
the next read of a header returns. -/
structure ArchiveStream where
  opened : ArchiveStatus := .ok
  entries : List ArchiveEntry
  headerEnd : {r : ArchiveStatus // r ≠ .ok}
  errorString : CStr := []

/-- The flag of `extract_to_dir`, `g_archive_error`, and the headers given to the writer:
a path and the path of the link's target. -/
structure Extraction where
  ok : Bool := true
  error : CStr := []
  headers : List (CStr × Option CStr) := []

/-- `set_error`, which goes with the flag. -/
def Extraction.fail (s : Extraction) (msg : CStr) : Extraction := { s with ok := false, error := msg.take 511 }

/-- `entry_name`. -/
def entryName (e : ArchiveEntry) : CStr := e.pathname.take (pathMax - 1)

/-- A path below the destination, if the buffer takes it. -/
def joinDest (pathDest name : CStr) : Option CStr :=
  if (pathDest ++ .slash :: name).length ≥ pathMax then none else some (pathDest ++ .slash :: name)

/-- The header that is given to the writer, or why none is. -/
def headerFor (pathDest : CStr) (e : ArchiveEntry) : Except CStr (CStr × Option CStr) :=
  match joinDest pathDest (entryName e) with
  | none => .error (cstr "path for entry '" ++ entryName e ++ cstr "' exceeds path length limit")
  | some fullPath =>
    match e.hardlink with
    | none => .ok (fullPath, none)
    | some hardlink =>
      if isSafeRelativePath (some hardlink) = false then
        .error (cstr "entry '" ++ entryName e ++ cstr "' has unsafe hardlink target '" ++ hardlink ++ cstr "'")
      else
        match joinDest pathDest hardlink with
        | none => .error (cstr "hardlink target for entry '" ++ entryName e ++ cstr "' exceeds path length limit")
        | some fullLink => .ok (fullPath, some fullLink)

/-- The loop over the blocks of an entry: the last `r`, and whether every write went well. -/
def copyBlocks (dataEnd : ArchiveStatus) : List ArchiveStatus → ArchiveStatus × Bool
  | [] => (dataEnd, true)
  | write :: blocks => if write ≠ .ok then (.ok, false) else copyBlocks dataEnd blocks

/-- One round of the loop over the headers. -/
def extractEntry (pathDest : CStr) (s : Extraction) (e : ArchiveEntry) : Extraction :=
  match headerFor pathDest e with
  | .error msg => s.fail msg
  | .ok header =>
    let s := { s with headers := s.headers ++ [header] }
    if e.header ≠ .ok then
      s.fail (cstr "failed to write header for '" ++ entryName e ++ cstr "': " ++ e.errorString)
    else
      let (r, written) := copyBlocks e.dataEnd.1 e.blocks
      let s :=
        if written then s else s.fail (cstr "failed to write data for '" ++ entryName e ++ cstr "': " ++ e.errorString)
      if r ≠ .eof ∧ r ≠ .ok then
        s.fail (cstr "failed to read data for '" ++ entryName e ++ cstr "': " ++ e.errorString)
      else s

/-- `extract_to_dir`. Whatever ends the reading of headers ends the loop. -/
def extractToDir (archivePath pathDest : CStr) (stream : ArchiveStream) : Extraction :=
  if stream.opened ≠ .ok then
    Extraction.fail {} (cstr "failed to open archive '" ++ archivePath ++ cstr "': " ++ stream.errorString)
  else stream.entries.foldl (extractEntry pathDest) {}

end Apg
