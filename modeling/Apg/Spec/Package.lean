import Apg.Spec.Version

/-!
# Packages

`include/apg/package.h`. A string pointer is `Option CStr`, and the entries of a
`str_list` are pointers too: JSON arrays with entries that are no strings give
lists with `NULL` in them.
-/

namespace Apg

/-- An address of a package or of its metadata. -/
abbrev Ptr := UInt64

/-- `struct package_metadata`. -/
structure Metadata where
  name : Option CStr := none
  version : Option CStr := none
  type : Option CStr := none
  architecture : Option CStr := none
  description : Option CStr := none
  maintainer : Option CStr := none
  license : Option CStr := none
  homepage : Option CStr := none
  tags : List (Option CStr) := []
  dependencies : List DepConstraint := []
  conflicts : List (Option CStr) := []
  provides : List (Option CStr) := []
  replaces : List (Option CStr) := []
  conf : List (Option CStr) := []
  deriving DecidableEq

/-- `struct package`. -/
structure Package where
  metadata : Metadata := {}
  pkgPath : Option CStr := none
  packageFiles : List (Option CStr) := []
  installedByHand : Bool := false
  held : Bool := false
  deriving DecidableEq

/-- The package objects of the process, by address. -/
abbrev Heap := Ptr → Package

end Apg
