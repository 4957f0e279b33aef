import Apg.Lib.BigEndian
import Apg.Spec.Db

/-!
# The journal

`db/journal.c`: a table of texts under keys of twelve bytes, the second and the
value of a counter that every process starts at `0`. `Db.journal` notes the calls that
are made; here is what the code makes of them.

The clock and the outcome of the store come from outside with each call. For the
properties, an entry of the table carries the number of the call that wrote it.
-/

namespace Apg.Journal

/-- `time_t`. -/
abbrev TimeT := {t : ℤ // -2 ^ 63 ≤ t ∧ t < 2 ^ 63}

/-- One call of `journal_write`, with what it meets outside: the time, and whether
the table can be opened, the entry be put and the transaction be committed. -/
structure JournalCall where
  op : JournalOp
  pkgName : Option CStr
  pkgVersion : Option CStr
  ok : Bool
  uid : UInt32
  explicitOp : Bool
  time : TimeT
  opens : Bool := true
  put : Bool := true
  commit : Bool := true

/-- `struct journal_entry`. -/
structure ReadEntry extends JournalEntry where
  timestamp : ℤ
  uid : ℕ
  deriving DecidableEq

/-! ## Writing -/

/-- Eight bytes of the time and four of the counter. -/
def packKey (ts : TimeT) (seq : ℕ) : List ℕ :=
  BigEndian.bytes 8 (ts.val % 2 ^ 64).toNat ++ BigEndian.bytes 4 seq

/-- The separator of the fields. -/
def bar : CChar := ⟨124, by decide⟩

def opToStr : JournalOp → CStr
  | .install => cstr "install"
  | .rollback => cstr "rollback"
  | .remove => cstr "remove"

def statusToStr (ok : Bool) : CStr := if ok then cstr "ok" else cstr "failed"

/-- What `snprintf` leaves in the buffer of 512 bytes. -/
def journalVal (c : JournalCall) : CStr :=
  (opToStr c.op ++ bar :: c.pkgName.getD (cstr "-") ++ bar :: c.pkgVersion.getD (cstr "-") ++ bar :: statusToStr c.ok ++
    bar :: cstr (toString c.uid.toNat) ++ bar :: cstr (if c.explicitOp then "1" else "0")).take 511

/-- The table, the counter of the process, and how many calls have returned `true`. -/
structure JournalState where
  table : Table (List ℕ) (CStr × ℕ) := .empty
  seqCounter : ℕ := 0
  calls : ℕ := 0

def journalWrite (s : JournalState) (c : JournalCall) : Bool × JournalState :=
  if !c.opens then (false, s)
  else
    let key := packKey c.time s.seqCounter
    let s₁ := { s with seqCounter := (s.seqCounter + 1) % 2 ^ 32 }
    if !c.put then (false, s₁)
    else
      -- the outcome of the commit is not looked at
      (true, { s₁ with
        table := if c.commit then s.table.put key (journalVal c, s.calls) else s.table
        calls := s.calls + 1 })

/-- A process: its counter starts at `0`. -/
def runProcess (s : JournalState) (calls : List JournalCall) : JournalState :=
  calls.foldl (fun s c => (journalWrite s c).2) { s with seqCounter := 0 }

/-- The call that writes an entry, with nothing in its way. -/
def callOf (uid : UInt32) (time : TimeT) (e : JournalEntry) : JournalCall where
  op := e.op
  pkgName := e.pkgName
  pkgVersion := e.pkgVersion
  ok := e.ok
  uid := uid
  explicitOp := e.explicitOp
  time := time

/-- The calls noted in `Db.journal`, one after the other; `clock` tells the time of each by its
number. -/
def writeEntries (uid : UInt32) (clock : ℕ → TimeT) : JournalState → List JournalEntry → JournalState
  | s, [] => s
  | s, e :: es => writeEntries uid clock (journalWrite s (callOf uid (clock s.calls) e)).2 es

/-- **Any number of processes, one after the other.** -/
def runProcesses (processes : List (List JournalCall)) : JournalState := processes.foldl runProcess {}

/-! ## Reading -/

def unpackTs (key : List ℕ) : ℤ :=
  let t := BigEndian.value (key.take 8)
  if t < 2 ^ 63 then t else t - 2 ^ 64

/-- The text cut at its first separators, at most `n` of them; `field` is what was
read of the current field. -/
def splitFields : ℕ → CStr → CStr → List CStr
  | _, field, [] => [field]
  | 0, field, s => [field ++ s]
  | n + 1, field, c :: s =>
    if c = bar then field :: splitFields n [] s else splitFields (n + 1) (field ++ [c]) s

/-- `strtoul(s, NULL, 10)`. -/
def strtoul (s : CStr) : ℕ :=
  let (neg, u) := readSign (s.dropWhile CChar.isSpace)
  let v := (digitsVal (u.takeWhile CChar.isDigit)).toNat
  if v > 2 ^ 64 - 1 then 2 ^ 64 - 1 else if neg then (2 ^ 64 - v) % 2 ^ 64 else v

def opOfStr (field : CStr) : JournalOp :=
  if field = cstr "install" then .install else if field = cstr "rollback" then .rollback else .remove

/-- A field that is `-` stands for no string. -/
def strOfField (field : CStr) : Option CStr := if field = cstr "-" then none else some field

/-- The turn of the loop of `journal_read_all` for one entry of the table; `none` is an
entry that is passed over. -/
def readEntry (key : List ℕ) (val : CStr) : Option ReadEntry :=
  if key.length < 12 then none
  else
    match splitFields 5 [] val with
    | f₀ :: f₁ :: f₂ :: f₃ :: rest => some
      { op := opOfStr f₀
        pkgName := strOfField f₁
        pkgVersion := strOfField f₂
        ok := f₃ = cstr "ok"
        uid := ((rest[0]?.map strtoul).getD 0) % 2 ^ 32
        explicitOp := (rest[1]?.bind (·.head?)) = some ⟨49, by decide⟩
        timestamp := unpackTs key }
    | _ => none

/-- `journal_read_all`, with the numbers of the calls that wrote the entries. -/
def journalReadAll (s : JournalState) : List (ReadEntry × ℕ) :=
  s.table.entries.filterMap fun e => (readEntry e.1 e.2.1).map (·, e.2.2)

end Apg.Journal
