import Mathlib

/-!
# C strings

A C string is the list of its bytes before the terminator, so a byte of it is
never `0`. The end of the list is the terminator: `*s` is the head of the list,
and `s++` drops it.
-/

namespace Apg

/-- A byte of a C string: an `unsigned char` other than the terminator. -/
abbrev CChar := {n : ℕ // 0 < n ∧ n < 256}

abbrev CStr := List CChar

instance : LawfulBEq CStr := inferInstance

/-- A string literal of the source. -/
def cstr (s : String) : CStr :=
  s.toList.filterMap fun c => if h : 0 < c.toNat ∧ c.toNat < 256 then some ⟨c.toNat, h⟩ else none

namespace CChar

def tab : CChar := ⟨9, by decide⟩
def newline : CChar := ⟨10, by decide⟩
def blank : CChar := ⟨32, by decide⟩
def plus : CChar := ⟨43, by decide⟩
def minus : CChar := ⟨45, by decide⟩
def dot : CChar := ⟨46, by decide⟩
def colon : CChar := ⟨58, by decide⟩

/-- `isspace` in the C locale. -/
def isSpace (c : CChar) : Bool := c.val = 32 || (9 ≤ c.val && c.val ≤ 13)

def isDigit (c : CChar) : Bool := 48 ≤ c.val && c.val ≤ 57

end CChar

/-- `LONG_MAX` on the 64-bit targets of the library. -/
def longMax : ℤ := 2 ^ 63 - 1

def longMin : ℤ := -2 ^ 63

/-- The value of a run of digits, most significant first. -/
def digitsVal (ds : CStr) : ℤ := ds.foldl (fun v c => 10 * v + ((c.val : ℤ) - 48)) 0

/-- The sign `strtol` reads, and what follows it. -/
def readSign : CStr → Bool × CStr
  | [] => (false, [])
  | c :: s => if c = .minus then (true, s) else if c = .plus then (false, s) else (false, c :: s)

/-- `strtol(s, &end, 10)`: blanks, an optional sign and decimal digits, saturated
at the bounds of `long`. The second component is `end`; without a digit nothing
is converted and `end` is `s`. -/
def strtol (s : CStr) : ℤ × CStr :=
  let (neg, u) := readSign (s.dropWhile CChar.isSpace)
  let ds := u.takeWhile CChar.isDigit
  if ds = [] then (0, s)
  else (max longMin (min longMax (if neg then -digitsVal ds else digitsVal ds)), u.dropWhile CChar.isDigit)

/-- `strchr(s, c)`, as the string after the found character. -/
def strchrNext (s : CStr) (c : CChar) : Option CStr :=
  match s.dropWhile (· ≠ c) with
  | [] => none
  | _ :: t => some t

/-- `strstr(s, pat)`, as the offset of the first occurrence. -/
def strstr : CStr → CStr → Option ℕ
  | [], pat => if pat = [] then some 0 else none
  | c :: s, pat => if pat.isPrefixOf (c :: s) then some 0 else (strstr s pat).map (· + 1)

end Apg
