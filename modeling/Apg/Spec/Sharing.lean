import Apg.Lib.Exclusive
import Apg.Spec.Db

/-!
# A database and its processes

`db/db.c`: handles of one database, in any number of processes. `db_open` asks for
the lock on `db.lock`, which `flock` gives or refuses at once, and opens the file
tables; `db_open_readonly` only opens what is there; `db_close` lets the lock go. A
process that ends does so once no script it has started is left, since the scripts
inherit `lock_fd`. The phases of a handle are those of `Exclusive`.

What a handle writes it writes in transactions of the store, each of them one call
here: `db_add` is a `record` and a `journal`, and a process can die between the two.
-/

namespace Apg.Sharing

open Exclusive

/-- What is on the disk. -/
structure Disk where
  main : Table CStr Json := .empty
  files : Table CStr CStr := .empty
  fileOwner : Table CStr CStr := .empty
  journal : List JournalEntry := []
  namedDbs : List CStr := []

/-- `struct db_handle`, once it is through `open_env`. -/
structure Handle where
  readonly : Bool := false
  /-- The transaction that opens the tables has been made. -/
  opened : Bool := false
  filesOpen : Bool := false
  fileOwnerOpen : Bool := false

/-- The database as a handle sees it. `suppress` is `suppress_journal`. -/
def Handle.view (h : Handle) (d : Disk) (suppress : Bool := true) : Db where
  main := d.main
  files := d.files
  fileOwner := d.fileOwner
  journal := d.journal
  namedDbs := d.namedDbs
  filesOpen := h.filesOpen
  fileOwnerOpen := h.fileOwnerOpen
  readonly := h.readonly
  suppressJournal := suppress

/-- What a write to the view leaves on the disk. -/
def diskOf (db : Db) : Disk := ⟨db.main, db.files, db.fileOwner, db.journal, db.namedDbs⟩

/-- `mdb_dbi_open` of a named table, with `MDB_CREATE` or without. A record of that
name is in the way. -/
def openNamed (create io : Bool) (n : CStr) (d : Disk) : Bool × Disk :=
  if n ∈ d.namedDbs then (io, d)
  else if create && io && d.main.get n = none then (true, { d with namedDbs := d.namedDbs ++ [n] })
  else (false, d)

/-- What a handle does in one transaction, with the outcomes from outside. -/
inductive DbCall
  | openTables (files fileOwner : Bool)
  | record (io : ℕ → Rc) (pkg : Package)
  | erase (io : Rc) (pkgName : CStr)
  | setHold (io : ℕ → Rc) (pkgName : CStr) (held : Bool)
  | setInstalledByHand (io : ℕ → Rc) (pkgName : CStr) (byHand : Bool)
  | journal (entry : JournalEntry)

/-- The transaction of a call, on an open handle. -/
def DbCall.run : DbCall → Db → Option (Bool × Db)
  | .openTables _ _, _ => none
  | .record io pkg, db => dbAdd io db pkg
  | .erase io pkgName, db => some (dbRemove io db pkgName)
  | .setHold io pkgName held, db => dbSetHold io db pkgName held
  | .setInstalledByHand io pkgName byHand, db => dbSetInstalledByHand io db pkgName byHand
  | .journal entry, db =>
    -- `mdb_txn_begin` refuses to write
    if db.readonly then some (false, db) else some (decide (db.main.get (cstr "journal") = none), journalWrite db entry)

/-- The two transactions of `db_open` and `db_open_readonly` that open the file tables. -/
def openFileTables (files fileOwner : Bool) (h : Handle) (d : Disk) : Handle × Disk :=
  let (f, d) := openNamed (!h.readonly) files (cstr "files") d
  let (o, d) := openNamed (!h.readonly) fileOwner (cstr "file_owner") d
  ({ h with opened := true, filesOpen := f, fileOwnerOpen := o }, d)

/-- The answer, the handle and the disk after a call. The tables are opened once, before
anything else. -/
def DbCall.act (c : DbCall) (h : Handle) (d : Disk) : Option (Bool × Handle × Disk) :=
  match h.opened, c with
  | false, .openTables files fileOwner => some (true, openFileTables files fileOwner h d)
  | false, _ => none
  | true, c => (c.run (h.view d)).map fun r => (r.1, h, diskOf r.2)

/-- **The database, to whoever opens it.** -/
def database : Object Disk Handle DbCall Bool where
  fresh := {}
  onlooker := { readonly := true }
  act := DbCall.act

/-- The calls that open both file tables, and record lists without a newline. -/
def DbCall.Plain : DbCall → Prop
  | .openTables files fileOwner => files = true ∧ fileOwner = true
  | .record _ pkg => ∀ path ∈ pkg.paths, .newline ∉ path
  | _ => True

end Apg.Sharing
