import Apg.Spec.Transaction

/-!
# `trans_prepare`

`transaction/prepare.c`, phase by phase: the graph of everything queued and
installed, the install steps, the conflicts, the upgrade steps, the removals, the
files. A phase can end the whole call with an error; what it pushed until then
stays in the transaction.

As in the graph, `none` is a `NULL` string handed to `strcmp`. The threads that
look for conflicts each write their own task, so they are run one after the
other. What an archive holds comes from outside, as `collect`; the error texts are
left out.
-/

namespace Apg

/-- The name of a queued package, which is never `NULL`. -/
def heapName (mem : Heap) (p : Ptr) : CStr := (mem p).metadata.name.getD []

def heldPush (trans : ApgTrans) (pkgName : CStr) (op : TransOp) : ApgTrans :=
  { trans with heldPkgs := trans.heldPkgs ++ [⟨pkgName, op⟩] }

def planHas (trans : ApgTrans) (name : CStr) : Bool := trans.plan.any fun s => s.pkgName = name

/-- The first package of a queue with the name. -/
def findPkg (mem : Heap) (pkgs : List Ptr) (name : CStr) : Option Ptr :=
  pkgs.find? fun p => (mem p).metadata.name = some name

def isExplicit (mem : Heap) (trans : ApgTrans) (name : CStr) : Bool := (findPkg mem trans.installPkgs name).isSome

def findInstallPkg (mem : Heap) (trans : ApgTrans) (name : CStr) : Option Ptr := findPkg mem trans.installPkgs name

def findCandidatePkg (mem : Heap) (trans : ApgTrans) (name : CStr) : Option Ptr :=
  findPkg mem trans.candidatePkgs name

def planPush (trans : ApgTrans) (op : TransOp) (name : CStr) (version : Option CStr) (explicitReq : Bool)
    (pkg : Option Ptr) : ApgTrans :=
  { trans with plan := trans.plan ++ [⟨op, name, version, explicitReq, pkg⟩] }

def conflictPush (trans : ApgTrans) (pkgName conflictsWith : CStr) : ApgTrans :=
  { trans with conflicts := trans.conflicts ++ [⟨pkgName, conflictsWith⟩] }

/-! ## The graph -/

/-- A record without a name counts as one with an empty name. -/
def installedNames (db : Db) : List CStr := (dbList db).map fun p => p.metadata.name.getD []

def metadataOf (mem : Heap) (pkgs : List Ptr) : List Metadata := pkgs.map fun p => (mem p).metadata

def transGraph (mem : Heap) (db : Db) (trans : ApgTrans) : Option DepGraph := do
  let g ← addNodes false (metadataOf mem trans.installPkgs) depGraphNew
  let g ← addNodes false (metadataOf mem trans.candidatePkgs) g
  let g ← addNodes false (metadataOf mem trans.upgradePkgs) g
  let g ← addNodes true ((dbList db).map (·.metadata)) g
  return trans.providerPrefs.foldl (fun g pref => depGraphPrefer g pref.1 pref.2) g

/-! ## Installs -/

/-- A queued package, with the dependency check off. -/
def pushQueued (mem : Heap) (installed : List CStr) (trans : ApgTrans) (p : Ptr) : ApgTrans :=
  let name := heapName mem p
  if name ∈ installed then trans
  else if planHas trans name then trans
  else planPush trans .install name (mem p).metadata.version true (some p)

/-- A package of the resolved order. -/
def pushNeeded (mem : Heap) (installed : List CStr) (trans : ApgTrans) (name : CStr) : ApgTrans :=
  if name ∈ installed then trans
  else if planHas trans name then trans
  else
    match (findInstallPkg mem trans name).or (findCandidatePkg mem trans name) with
    | none => trans
    | some p => planPush trans .install name (mem p).metadata.version (isExplicit mem trans name) (some p)

def planInstalls (mem : Heap) (installed : List CStr) (g : DepGraph) (trans : ApgTrans) :
    Option (Except TransError ApgTrans) :=
  if trans.installPkgs = [] then some (.ok trans)
  else if trans.skipDependencyCheck then some (.ok (trans.installPkgs.foldl (pushQueued mem installed) trans))
  else
    match depGraphResolveParallel g (trans.installPkgs.map (heapName mem)) with
    | none | some (.error .null) => none
    | some (.error (.fail .cycle _)) => some (.error .cycle)
    | some (.error (.fail .missing _)) | some (.error (.fail .version _)) => some (.error .missingDep)
    | some (.error (.fail _ _)) => some (.error .nomem)
    | some (.ok order) => some (.ok (order.foldl (pushNeeded mem installed) trans))

/-! ## Conflicts -/

/-- The results of the tasks, in their order; an error ends the call. -/
def pushConflicts : List (CStr × Except DepError (List CStr)) → ApgTrans → Except TransError Unit × ApgTrans
  | [], t => (.ok (), t)
  | (_, .error _) :: _, t => (.error .nomem, t)
  | (name, .ok breaks) :: tasks, t => pushConflicts tasks (breaks.foldl (fun t b => conflictPush t name b) t)

/-- The tasks, one per queued package. -/
def findConflicts (g : DepGraph) (installed : List CStr) : List CStr → Option (List (CStr × Except DepError (List CStr)))
  | [] => some []
  | name :: names =>
    match depGraphFindBreaks g name installed with
    | none => none
    | some r => (findConflicts g installed names).map ((name, r) :: ·)

/-! ## Upgrades and removals -/

def pushUpgrade (mem : Heap) (db : Db) (trans : ApgTrans) (p : Ptr) : ApgTrans :=
  let name := heapName mem p
  let installedPkg := dbGet db name
  let isHeld := (installedPkg.map (·.held)).getD false
  let byHand := (installedPkg.map (·.installedByHand)).getD true
  if isHeld then heldPush trans name .upgrade
  else planPush trans .upgrade name (mem p).metadata.version byHand (some p)

/-- The names to be removed: held packages and those that others still need are
recorded and left out. -/
def collectRemovals (db : Db) : List CStr → ApgTrans → List CStr → Option (List CStr × ApgTrans)
  | [], t, removals => some (removals, t)
  | name :: names, t, removals =>
    let isHeld := ((dbGet db name).map (·.held)).getD false
    if isHeld then collectRemovals db names (heldPush t name .remove) removals
    else if t.skipDependentsCheck then collectRemovals db names t (removals ++ [name])
    else
      match dbGetDependents db name with
      | none => none
      | some dependents =>
        -- a dependent that is queued for removal as well does not count
        let kept := dependents.filter fun d => d ∉ t.removeNames
        if kept = [] then collectRemovals db names t (removals ++ [name])
        else collectRemovals db names { t with blockedRemoves := t.blockedRemoves ++ [⟨name, kept⟩] } removals

/-- `depends_on`. -/
def dependsOn (pkg target : Option Package) : Option Bool :=
  match pkg, target with
  | some p, some t =>
    match t.metadata.name with
    | none => some false
    | some name => anyMatch name t.metadata.provides p.metadata.dependencies
  | _, _ => some false

/-- Some package of the list depends on the target. -/
def anyDependsOn (target : Option Package) : List (CStr × Option Package) → Option Bool
  | [] => some false
  | e :: rest =>
    match dependsOn e.2 target with
    | none => none
    | some true => some true
    | some false => anyDependsOn target rest

/-- The first of the names that are left which no other one needs. -/
def pickFree (before : List (CStr × Option Package)) :
    List (CStr × Option Package) → Option (Option (CStr × List (CStr × Option Package)))
  | [] => some none
  | e :: after =>
    match anyDependsOn e.2 (before ++ after) with
    | none => none
    | some false => some (some (e.1, before ++ after))
    | some true => pickFree (before ++ [e]) after

/-- The loop of `push_removals_in_order` over the names not yet emitted: a free
one if there is one, else the first. -/
def removalOrder : ℕ → List (CStr × Option Package) → Option (List CStr)
  | 0, _ => some []
  | _ + 1, [] => some []
  | n + 1, e :: rest =>
    match pickFree [] (e :: rest) with
    | none => none
    | some (some (name, left)) => (removalOrder n left).map (name :: ·)
    | some none => (removalOrder n rest).map (e.1 :: ·)

def pushRemovalsInOrder (db : Db) (trans : ApgTrans) (names : List CStr) : Option ApgTrans :=
  (removalOrder names.length (names.map fun name => (name, dbGet db name))).map fun order =>
    order.foldl (fun trans name => planPush trans .remove name none true none) trans

/-! ## Files -/

/-- The owners of a package's files, if they are not the package itself. -/
def pushFileConflicts (db : Db) (name : CStr) (trans : ApgTrans) : List (Option CStr) → ApgTrans
  | [] => trans
  | none :: files => pushFileConflicts db name trans files
  | some path :: files =>
    match dbOwner db path with
    | none => pushFileConflicts db name trans files
    | some owner =>
      if owner = name then pushFileConflicts db name trans files
      else
        pushFileConflicts db name
          { trans with fileConflicts := trans.fileConflicts ++ [⟨path, name, owner⟩] } files

/-- `package_collect_files` on a package whose files are not known. -/
def collectFiles (collect : Ptr → Option (List CStr)) (mem : Heap) (p : Ptr) : Heap :=
  match (mem p).packageFiles, collect p with
  | [], some files => Function.update mem p { mem p with packageFiles := files.map some }
  | _, _ => mem

def checkFiles (collect : Ptr → Option (List CStr)) (db : Db) : List Ptr → Heap → ApgTrans → Heap × ApgTrans
  | [], mem, t => (mem, t)
  | p :: pkgs, mem, t =>
    match (mem p).metadata.name with
    | none => checkFiles collect db pkgs mem t
    | some name =>
      let mem := collectFiles collect mem p
      checkFiles collect db pkgs mem (pushFileConflicts db name t (mem p).packageFiles)

/-! ## The whole -/

/-- The verdict over everything that was recorded. -/
def verdict (trans : ApgTrans) : TransError × ApgTrans :=
  if trans.heldPkgs ≠ [] then (.held, trans)
  else if trans.fileConflicts ≠ [] then (.fileConflict, trans)
  else if trans.blockedRemoves ≠ [] then (.hasDependents, trans)
  else if trans.conflicts ≠ [] then (.conflict, trans)
  else (.ok, { trans with prepared := true })

/-- `trans_prepare` from the conflicts on. -/
def prepareRest (collect : Ptr → Option (List CStr)) (mem : Heap) (db : Db) (g : DepGraph) (trans : ApgTrans) :
    Option (TransError × Heap × ApgTrans) :=
  match findConflicts g (installedNames db) (trans.installPkgs.map (heapName mem)) with
  | none => none
  | some tasks =>
    match pushConflicts tasks trans with
    | (.error err, t) => some (err, mem, t)
    | (.ok (), t) =>
      let t := t.upgradePkgs.foldl (pushUpgrade mem db) t
      match collectRemovals db t.removeNames t [] with
      | none => none
      | some (removals, t) =>
        match pushRemovalsInOrder db t removals with
        | none => none
        | some t =>
          -- the files of upgrades and of candidates are not looked at
          let (mem, t) := checkFiles collect db t.installPkgs mem t
          let (err, t) := verdict t
          some (err, mem, t)

def transPrepare (collect : Ptr → Option (List CStr)) (mem : Heap) (db : Db) (trans : ApgTrans) :
    Option (TransError × Heap × ApgTrans) :=
  if trans.prepared then some (.ok, mem, trans)
  else
    match transGraph mem db trans with
    | none => none
    | some g =>
      match planInstalls mem (installedNames db) g trans with
      | none => none
      | some (.error err) => some (err, mem, trans)
      | some (.ok t) => prepareRest collect mem db g t

end Apg
