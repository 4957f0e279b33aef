import Apg.Spec.Package

/-!
# Package records as JSON documents

`json.c`. The text of a document is left to the JSON library, which reads back
the document it wrote; a document is the tree of its values. Its strings are
UTF-8 text that may hold a zero byte, where the C string taken from it ends.
-/

namespace Apg

/-- A byte of a JSON string. -/
abbrev JChar := Fin 256

abbrev JStr := List JChar

inductive Json
  | null
  | bool (b : Bool)
  | num (text : JStr)
  | str (s : JStr)
  | arr (items : List Json)
  | obj (fields : List (JStr × Json))

/-- A C string as a JSON string. -/
def jstr (s : CStr) : JStr := s.map fun c => ⟨c.val, c.property.2⟩

/-- The C string at the start of a JSON string. -/
def cstrOf : JStr → CStr
  | [] => []
  | c :: s => if h : 0 < c.val then ⟨c.val, h, c.isLt⟩ :: cstrOf s else []

/-- `yyjson_obj_get`: the first field with the key. -/
def objGet (key : String) : Json → Option Json
  | .obj fields => fields.lookup (jstr (cstr key))
  | _ => none

/-- A string field; anything else counts as absent. -/
def getStr : Option Json → Option CStr
  | some (.str s) => some (cstrOf s)
  | _ => none

def getBool : Option Json → Bool
  | some (.bool b) => b
  | _ => false

def parseStrArray : Option Json → List (Option CStr)
  | some (.arr items) => items.map fun j => getStr (some j)
  | _ => []

def parseDepArray : Option Json → List DepConstraint
  | some (.arr items) => items.map fun j => depConstraintParse (getStr (some j))
  | _ => []

def parseMetadataFromRoot (root : Json) : Metadata where
  name := getStr (objGet "name" root)
  version := getStr (objGet "version" root)
  type := getStr (objGet "type" root)
  architecture := getStr (objGet "architecture" root)
  description := getStr (objGet "description" root)
  maintainer := getStr (objGet "maintainer" root)
  license := getStr (objGet "license" root)
  homepage := getStr (objGet "homepage" root)
  tags := parseStrArray (objGet "tags" root)
  dependencies := parseDepArray (objGet "dependencies" root)
  conflicts := parseStrArray (objGet "conflicts" root)
  provides := parseStrArray (objGet "provides" root)
  replaces := parseStrArray (objGet "replaces" root)
  conf := parseStrArray (objGet "conf" root)

def Json.isObj : Json → Bool
  | .obj _ => true
  | _ => false

/-- `package_metadata_from_json`, on the document of its text. -/
def packageMetadataFromJson (root : Json) : Option Metadata :=
  if root.isObj then some (parseMetadataFromRoot root) else none

/-- An empty path is read as none. -/
def nonEmpty (s : Option CStr) : Option CStr := if s = some [] then none else s

def packageFromJson (root : Json) : Option Package :=
  if root.isObj then
    some {
      metadata := parseMetadataFromRoot root
      installedByHand := getBool (objGet "installed_by_hand" root)
      held := getBool (objGet "held" root)
      pkgPath := nonEmpty (getStr (objGet "pkg_path" root)) }
  else none

/-- A string with the text that stands for `NULL`. -/
def addStr (key : String) (s : Option CStr) (absent : String) : JStr × Json :=
  (jstr (cstr key), .str (jstr (s.getD (cstr absent))))

/-- `NULL` entries are left out. -/
def addStrArray (key : String) (list : List (Option CStr)) : JStr × Json :=
  (jstr (cstr key), .arr (list.reduceOption.map fun s => .str (jstr s)))

/-- Constraints without a name are left out. -/
def addDepArray (key : String) (list : List DepConstraint) : JStr × Json :=
  (jstr (cstr key), .arr ((list.filterMap depConstraintToStr).map fun s => .str (jstr s)))

def packageToJson (pkg : Package) : Json :=
  let m := pkg.metadata
  .obj [
    addStr "name" m.name "",
    addStr "version" m.version "",
    addStr "type" m.type "misc",
    addStr "architecture" m.architecture "",
    addStr "description" m.description "",
    addStr "maintainer" m.maintainer "",
    addStr "license" m.license "",
    addStr "homepage" m.homepage "",
    (jstr (cstr "installed_by_hand"), .bool pkg.installedByHand),
    (jstr (cstr "held"), .bool pkg.held),
    addStr "pkg_path" pkg.pkgPath "",
    addStrArray "tags" m.tags,
    addDepArray "dependencies" m.dependencies,
    addStrArray "conflicts" m.conflicts,
    addStrArray "provides" m.provides,
    addStrArray "replaces" m.replaces,
    addStrArray "conf" m.conf]

end Apg
