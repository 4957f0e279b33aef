import Apg.Spec.CStr

/-!
# Versions and dependency constraints

`version/version.c`: comparing version strings, and parsing and printing the
constraints of a package's dependency list.
-/

namespace Apg

/-- `ver_op_t`. -/
inductive VerOp
  | any | eq | neq | lt | le | gt | ge
  deriving DecidableEq, Repr

/-- `struct dep_constraint`; `none` is a `NULL` pointer. -/
structure DepConstraint where
  name : Option CStr
  op : VerOp
  version : Option CStr
  deriving DecidableEq

/-- The characters `trim_strndup` drops at both ends. -/
def isBlank (c : CChar) : Bool := c = .blank || c = .tab

/-- `trim_strndup` (and `trim_strdup`): the string without leading and trailing
blanks and tabs. -/
def trimStrdup (s : CStr) : CStr := (s.dropWhile isBlank).rdropWhile isBlank

/-- The operator table of `dep_constraint_parse`, in the order it is searched. -/
def ops : List (CStr × VerOp) :=
  [(cstr ">=", .ge), (cstr "<=", .le), (cstr "==", .eq), (cstr "!=", .neq), (cstr ">", .gt), (cstr "<", .lt)]

/-- The first operator of the table that occurs in `s`, with the offset of its
first occurrence. -/
def findOp (s : CStr) : List (CStr × VerOp) → Option (ℕ × CStr × VerOp)
  | [] => none
  | (sym, op) :: rest =>
    match strstr s sym with
    | some i => some (i, sym, op)
    | none => findOp s rest

def depConstraintParse : Option CStr → DepConstraint
  | none => ⟨none, .any, none⟩
  | some s =>
    match findOp s ops with
    | none => ⟨some (trimStrdup s), .any, none⟩
    | some (i, sym, op) => ⟨some (trimStrdup (s.take i)), op, some (trimStrdup (s.drop (i + sym.length)))⟩

/-- `op_strs`. The entry of `VER_OP_ANY` is never read. -/
def opStr : VerOp → CStr
  | .any => cstr "?"
  | .eq => cstr "=="
  | .neq => cstr "!="
  | .lt => cstr "<"
  | .le => cstr "<="
  | .gt => cstr ">"
  | .ge => cstr ">="

def depConstraintToStr (c : DepConstraint) : Option CStr :=
  match c.name with
  | none => none
  | some name =>
    if c.op = .any then some name
    else match c.version with
      | none => some name
      | some version => some (name ++ .blank :: opStr c.op ++ .blank :: version)

/-- The epoch of a version and what follows it: `strtol` of the whole string and
the part after the first colon, if there is a colon. -/
def splitEpoch (s : CStr) : ℤ × CStr :=
  match strchrNext s .colon with
  | some t => ((strtol s).1, t)
  | none => (0, s)

def skipDots (s : CStr) : CStr := s.dropWhile (· = .dot)

/-- The loop of `ver_compare`. Every turn that goes on consumes a character, so
the lengths of the two strings are enough fuel. -/
def verLoop : ℕ → CStr → CStr → ℤ
  | 0, _, _ => 0
  | n + 1, a, b =>
    let a := skipDots a
    let b := skipDots b
    let (va, ae) := strtol a
    let (vb, be) := strtol b
    -- no number on either side: the next characters decide
    if ae = a ∧ be = b then
      match a, b with
      | [], [] => 0
      | [], y :: _ => -(y.val : ℤ)
      | x :: _, [] => x.val
      | x :: a', y :: b' => if x ≠ y then (x.val : ℤ) - y.val else verLoop n a' b'
    -- a side that is not a number counts as 0 and is left where it is
    else if va ≠ vb then (if va > vb then 1 else -1)
    else verLoop n ae be

def verCompare : Option CStr → Option CStr → ℤ
  | none, none => 0
  | none, some _ => -1
  | some _, none => 1
  | some a, some b =>
    let (ea, a) := splitEpoch a
    let (eb, b) := splitEpoch b
    if ea ≠ eb then (if ea > eb then 1 else -1)
    else verLoop (a.length + b.length + 1) a b

def verSatisfies (pkgVersion : Option CStr) (op : VerOp) (constraintVersion : Option CStr) : Bool :=
  if op = .any then true
  else if pkgVersion = none ∨ constraintVersion = none then false
  else
    let cmp := verCompare pkgVersion constraintVersion
    match op with
    | .any => true
    | .eq => cmp = 0
    | .neq => cmp ≠ 0
    | .lt => cmp < 0
    | .le => cmp ≤ 0
    | .gt => cmp > 0
    | .ge => cmp ≥ 0

end Apg
