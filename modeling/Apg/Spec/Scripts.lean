import Apg.Lib.Chroot
import Apg.Spec.Install

/-!
# Running scripts

`run_script` and what it calls in `install/scripts.c`: a script is looked for by its normalised
name, copied into the root unless it is there already, and given to a shell whose top directory
is the root.

What the shell makes of a script is told by `ScriptIo`, and so are the calls that the system
refuses; what a script does to the files is left out. Permissions are those of the superuser.
`ran` is not part of the code: it notes the top directory and the text of the script that the
shell was given.
-/

namespace Apg

open Posix

/-- What is outside the model when a script is run. -/
structure ScriptIo where
  pid : ℕ := 1
  /-- `g_script_seq` after it is counted up. -/
  seq : ℕ := 1
  opendir : Bool := true
  copy : CopyIo := {}
  fault : Fault := .none
  /-- `pipe` and `fork`. -/
  fork : Bool := true
  /-- `unshare` succeeds, or is not permitted. -/
  unshare : Bool := true
  chroot : Bool := true
  exec : Bool := true
  /-- The shell ends with status 0, given the files it sees and the script. -/
  shell : Host → Bytes → Bool

end Apg
