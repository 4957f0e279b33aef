import Apg.Lib.Table
import Apg.Spec.Json

/-!
# The package database

`db/write.c`, `db/read.c`, `db/owner.c` and `db/dependents.c` over three tables of
an LMDB environment: the records by name, the file lists by name, and the owner
of every path.

A write is one transaction: it changes all three tables or nothing. The store
refuses empty keys, keys of more than 511 bytes, and in the main table the names
of its own sub-databases. What else can go wrong there (a full map, a full disk)
is the outcome `io` of an attempt, given from outside, and so is a text that is not
UTF-8, which the JSON library does not write; reads succeed.
-/

namespace Apg

/-- The return codes of the store that the code tells apart. -/
inductive Rc
  | success | mapFull | notFound | failed
  deriving DecidableEq

inductive JournalOp
  | install | remove | rollback
  deriving DecidableEq

/-- What `journal_write` is called with, less the user. -/
structure JournalEntry where
  op : JournalOp
  pkgName : Option CStr
  pkgVersion : Option CStr
  ok : Bool
  explicitOp : Bool
  deriving DecidableEq

/-- `struct db_handle` with the tables behind it. `namedDbs` are the names of the
sub-databases, which are records of the main table. `journal` notes the calls of
`journal_write` that have gone through; what its table keeps of them is in `Journal`. -/
structure Db where
  main : Table CStr Json
  files : Table CStr CStr
  fileOwner : Table CStr CStr
  journal : List JournalEntry
  namedDbs : List CStr
  filesOpen : Bool
  fileOwnerOpen : Bool
  readonly : Bool
  suppressJournal : Bool

/-- A database just created, with the file tables that could be opened. -/
def dbOpen (filesOpen fileOwnerOpen : Bool) : Db where
  main := .empty
  files := .empty
  fileOwner := .empty
  journal := []
  namedDbs := (if filesOpen then [cstr "files"] else []) ++ (if fileOwnerOpen then [cstr "file_owner"] else [])
  filesOpen := filesOpen
  fileOwnerOpen := fileOwnerOpen
  readonly := false
  suppressJournal := false

/-- A call of `journal_write`, which goes through unless a package has the name of its table. -/
def journalWrite (db : Db) (entry : JournalEntry) : Db :=
  if db.main.get (cstr "journal") = none then
    { db with
      journal := db.journal ++ [entry]
      namedDbs := if cstr "journal" ∈ db.namedDbs then db.namedDbs else db.namedDbs ++ [cstr "journal"] }
  else db

/-! ## File lists -/

/-- The complete, non-empty lines of a text; `line` is what was read of the
current one. -/
def fileLines (line : CStr) : CStr → List CStr
  | [] => []
  | c :: s =>
    if c = .newline then (if line = [] then fileLines [] s else line :: fileLines [] s)
    else fileLines (line ++ [c]) s

def deserializeFiles (data : CStr) : List CStr := fileLines [] data

def serializeFiles (files : List (Option CStr)) : CStr :=
  files.reduceOption.flatMap fun path => path ++ [.newline]

/-- The keys the store accepts. -/
def validKey (key : CStr) : Bool := 0 < key.length && key.length ≤ 511

/-- `load_package_files`. -/
def loadPackageFiles (db : Db) (pkgName : CStr) : List CStr :=
  if db.filesOpen then ((db.files.get pkgName).map deserializeFiles).getD [] else []

/-- The owner entries of the listed paths, less those that belong to the package. -/
def deleteOwners (pkgName : CStr) (paths : List CStr) (owners : Table CStr CStr) : Table CStr CStr :=
  paths.foldl (fun owners path => if owners.get path = some pkgName then owners.del path else owners) owners

def deleteFileOwnerEntries (db : Db) (pkgName : CStr) : Db :=
  if db.filesOpen && db.fileOwnerOpen then
    { db with
      fileOwner := deleteOwners pkgName (((db.files.get pkgName).map deserializeFiles).getD []) db.fileOwner }
  else db

/-! ## Writing -/

/-- The owner entries of a package's files; `none` is a path the store refuses. -/
def putOwners (pkgName : CStr) : List CStr → Table CStr CStr → Option (Table CStr CStr)
  | [], owners => some owners
  | path :: paths, owners => if validKey path then putOwners pkgName paths (owners.put path pkgName) else none

/-- The file tables of a package with files. -/
def putFiles (db : Db) (name : CStr) (packageFiles : List (Option CStr)) : Option Db :=
  let db := deleteFileOwnerEntries db name
  let db := if db.filesOpen then { db with files := db.files.put name (serializeFiles packageFiles) } else db
  if db.fileOwnerOpen then
    (putOwners name packageFiles.reduceOption db.fileOwner).map fun owners => { db with fileOwner := owners }
  else some db

/-- The transaction of `db_add_once`; `none` is one that is aborted. -/
def addTxn (db : Db) (name : CStr) (pkg : Package) : Option Db :=
  if !validKey name || name ∈ db.namedDbs then none
  else
    let db := { db with main := db.main.put name (packageToJson pkg) }
    -- a package without files leaves the list that is there
    if pkg.packageFiles.length > 0 then putFiles db name pkg.packageFiles else some db

/-- `db_add_once` with the outcome `io` of what is outside the model. -/
def dbAddOnce (io : Rc) (db : Db) (name : CStr) (pkg : Package) : Rc × Db :=
  match io with
  | .success =>
    match addTxn db name pkg with
    | some db => (.success, db)
    | none => (.failed, db)
  | rc => (rc, db)

/-- The first attempt and up to `n` further ones, as long as the map is full. -/
def dbAddLoop (io : ℕ → Rc) (db : Db) (name : CStr) (pkg : Package) : ℕ → ℕ → Rc × Db
  | 0, attempt => dbAddOnce (io attempt) db name pkg
  | n + 1, attempt =>
    match dbAddOnce (io attempt) db name pkg with
    -- the map has been grown, or the next attempt does not succeed
    | (.mapFull, _) => dbAddLoop io db name pkg n (attempt + 1)
    | r => r

/-- `MAP_GROW_ATTEMPTS`. -/
def mapGrowAttempts : ℕ := 8

/-- `db_add`; `none` is a package without a name, whose key cannot be taken. -/
def dbAdd (io : ℕ → Rc) (db : Db) (pkg : Package) : Option (Bool × Db) :=
  if db.readonly then some (false, db)
  else
    match pkg.metadata.name with
    | none => none
    | some name =>
      let (rc, db) := dbAddLoop io db name pkg mapGrowAttempts 0
      let ok : Bool := rc = .success
      some (ok, if db.suppressJournal then db
        else journalWrite db ⟨.install, some name, pkg.metadata.version, ok, true⟩)

/-! ## Reading -/

/-- The record of a document, with its list of files. -/
def readRecord (db : Db) (record : Json) : Option Package :=
  (packageFromJson record).map fun pkg =>
    match pkg.metadata.name with
    | none => pkg
    | some name => { pkg with packageFiles := (loadPackageFiles db name).map some }

def dbGet (db : Db) (name : CStr) : Option Package := (db.main.get name).bind (readRecord db)

/-- The records in the order of their names. -/
def dbList (db : Db) : List Package := db.main.entries.filterMap fun e => readRecord db e.2

def dbOwner (db : Db) (path : CStr) : Option CStr := if db.fileOwnerOpen then db.fileOwner.get path else none

/-- The needle is one of the strings; a `NULL` among them is handed to `strcmp`. -/
def oneOf (needle : CStr) : List (Option CStr) → Option Bool
  | [] => some false
  | none :: _ => none
  | some s :: rest => if needle = s then some true else oneOf needle rest

/-- `names_match`: a dependency asks for the name or for one of the `provides`. -/
def namesMatch (needle : Option CStr) (pkgName : CStr) (provides : List (Option CStr)) : Option Bool :=
  match needle with
  | none => none
  | some s => if s = pkgName then some true else oneOf s provides

/-- Some dependency of the list asks for the package. -/
def anyMatch (pkgName : CStr) (provides : List (Option CStr)) : List DepConstraint → Option Bool
  | [] => some false
  | dep :: deps =>
    match namesMatch dep.name pkgName provides with
    | none => none
    | some true => some true
    | some false => anyMatch pkgName provides deps

def dependentsLoop (pkgName : CStr) (provides : List (Option CStr)) : List Package → Option (List CStr)
  | [] => some []
  | p :: ps =>
    match p.metadata.name with
    | none => dependentsLoop pkgName provides ps
    | some name =>
      if name = pkgName then dependentsLoop pkgName provides ps
      else
        match anyMatch pkgName provides p.metadata.dependencies with
        | none => none
        | some found =>
          (dependentsLoop pkgName provides ps).map fun result => if found then name :: result else result

def dbGetDependents (db : Db) (pkgName : CStr) : Option (List CStr) :=
  let provides := ((dbGet db pkgName).map (·.metadata.provides)).getD []
  dependentsLoop pkgName provides (dbList db)

/-! ## Flags and removal -/

/-- Read a record, change a flag and write it back, with nothing in the journal. -/
def dbUpdate (io : ℕ → Rc) (db : Db) (pkgName : CStr) (change : Package → Package) : Option (Bool × Db) :=
  if db.readonly then some (false, db)
  else
    match dbGet db pkgName with
    | none => some (false, db)
    | some pkg =>
      (dbAdd io { db with suppressJournal := true } (change pkg)).map fun (ok, db) =>
        (ok, { db with suppressJournal := false })

def dbSetHold (io : ℕ → Rc) (db : Db) (pkgName : CStr) (held : Bool) : Option (Bool × Db) :=
  dbUpdate io db pkgName fun pkg => { pkg with held := held }

def dbSetInstalledByHand (io : ℕ → Rc) (db : Db) (pkgName : CStr) (byHand : Bool) : Option (Bool × Db) :=
  dbUpdate io db pkgName fun pkg => { pkg with installedByHand := byHand }

/-- The transaction of `db_remove`. -/
def removeTxn (io : Rc) (db : Db) (pkgName : CStr) : Rc × Db :=
  match io with
  | .success =>
    if !validKey pkgName || pkgName ∈ db.namedDbs then (.failed, db)
    else if db.main.get pkgName = none then (.notFound, db)
    else
      let db := { db with main := db.main.del pkgName }
      if db.filesOpen then
        let db := deleteFileOwnerEntries db pkgName
        (.success, { db with files := db.files.del pkgName })
      else (.success, db)
  | rc => (rc, db)

def dbRemove (io : Rc) (db : Db) (pkgName : CStr) : Bool × Db :=
  if db.readonly then (false, db)
  else
    let version := ((dbGet db pkgName).map (·.metadata.version)).join
    let (rc, db) := removeTxn io db pkgName
    let ok : Bool := rc = .success
    (ok, if db.suppressJournal then db else journalWrite db ⟨.remove, some pkgName, version, ok, true⟩)

/-- The paths a package records. -/
def Package.paths (pkg : Package) : List CStr := pkg.packageFiles.reduceOption

/-- **The databases that can come about**: any sequence of writes on a new one, of
packages with the property `P`, whatever their outcome. -/
inductive Reachable (P : Package → Prop) : Db → Prop
  | new (filesOpen fileOwnerOpen : Bool) : Reachable P (dbOpen filesOpen fileOwnerOpen)
  | add {db db' : Db} {pkg : Package} {ok : Bool} (io : ℕ → Rc) :
      Reachable P db → P pkg → dbAdd io db pkg = some (ok, db') → Reachable P db'
  | remove {db : Db} (io : Rc) (pkgName : CStr) : Reachable P db → Reachable P (dbRemove io db pkgName).2
  | setHold {db db' : Db} {ok : Bool} (io : ℕ → Rc) (pkgName : CStr) (held : Bool) :
      Reachable P db → dbSetHold io db pkgName held = some (ok, db') → Reachable P db'
  | setInstalledByHand {db db' : Db} {ok : Bool} (io : ℕ → Rc) (pkgName : CStr) (byHand : Bool) :
      Reachable P db → dbSetInstalledByHand io db pkgName byHand = some (ok, db') → Reachable P db'

end Apg
