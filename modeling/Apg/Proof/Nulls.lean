import Apg.Proof.Agree
import Apg.Proof.Queries

/-!
# `NULL` strings of accepted metadata

An array with an element that is no string is accepted, and the element becomes a
`NULL`. Each reader of the four lists that packages are resolved by hands it to the hash
or to `strcmp`, where the writers of the lists and the conflict clauses pass over it.

* `nullFree_iff`: **when no reader of a pool of accepted packages meets a `NULL`.**
-/

namespace Apg

/-! ## Pools -/

/-- The graphs that the packages of a pool make, with any preferences. -/
inductive BuiltFrom (pool : List Metadata) : DepGraph → Prop
  | new : BuiltFrom pool depGraphNew
  | add {g g' : DepGraph} {pkg : Metadata} {inst : Bool} {e : DepError} :
      BuiltFrom pool g → pkg ∈ pool → addNode g pkg inst = some (e, g') → BuiltFrom pool g'
  | prefer {g : DepGraph} (aliasName pkgName : CStr) : BuiltFrom pool g → BuiltFrom pool (depGraphPrefer g aliasName pkgName)

/-- **Nothing that reads the packages of a pool meets a `NULL`**: not `dep_graph_add` or
`dep_graph_add_installed`, `dep_graph_resolve` or `dep_graph_find_breaks` on a graph of
packages of the pool, the matching of names in `db_get_dependents`, whatever package of the
pool (or none) has the name, or `dep_graph_resolve_sat` on candidates of the pool. -/
structure NullFree (pool : List Metadata) : Prop where
  add : ∀ g, BuiltFrom pool g → ∀ pkg ∈ pool, depGraphAdd g pkg ≠ none ∧ depGraphAddInstalled g pkg ≠ none
  resolve : ∀ g, BuiltFrom pool g → ∀ name, depGraphResolve g name ≠ some (.error .null)
  findBreaks : ∀ g, BuiltFrom pool g → ∀ name installed, depGraphFindBreaks g name installed ≠ none
  dependents : ∀ pkg ∈ pool, ∀ name provides, (provides = [] ∨ ∃ target ∈ pool, provides = target.provides) →
    anyMatch name provides pkg.dependencies ≠ none
  resolveSat : ∀ (mem : Ptr → Metadata) (candidates roots : List Ptr), (∀ p ∈ candidates, mem p ∈ pool) →
    ∀ budget threadCount sched, depGraphResolveSat mem candidates roots budget threadCount sched ≠ none

variable {pool : List Metadata} {g : DepGraph}

/-- A graph of a pool is a built graph, whose nodes hold packages of the pool. -/
theorem BuiltFrom.spec (h : BuiltFrom pool g) : Built g ∧ ∀ nd ∈ g.nodes, nd.pkg ∈ pool := by
  induction h with
  | new => exact ⟨.new, by simp [depGraphNew]⟩
  | prefer a p _ ih => exact ⟨.prefer a p ih.1, ih.2⟩
  | @add g g' pkg inst e _ hpkg ha ih =>
    obtain ⟨hb, hall⟩ := ih
    refine ⟨?_, ?_⟩
    · cases inst with
      | true => exact .addInstalled hb ha
      | false => exact .add hb ha
    · obtain ⟨-, -, rfl⟩ | ⟨name, idx, -, -, -, rfl⟩ | ⟨name, g₁, -, -, -, h1, h2⟩ := addNode_cases ha
      · exact hall
      · intro nd hnd
        rcases mem_modify hnd with hnd | ⟨nd₀, hi, rfl⟩
        · exact hall nd hnd
        · exact hall nd₀ (List.mem_of_getElem? hi)
      · obtain ⟨⟨hnodes₁, -, -⟩, -⟩ := addProvides_spec _ h1
        obtain ⟨⟨hnodes₂, -, -⟩, -⟩ := addReplaces_spec _ h2
        intro nd hnd
        rw [hnodes₂, hnodes₁] at hnd
        rcases List.mem_append.1 hnd with hnd | hnd
        · exact hall nd hnd
        · rw [List.mem_singleton.1 hnd]
          exact hpkg

/-! ## Without a `NULL` -/

theorem findBreaksLoop_isSome {pkg : Metadata} (h : ∀ name, (breaksWith g pkg name).isSome) : ∀ installed : List CStr,
    (findBreaksLoop g pkg installed).isSome := by
  intro installed
  induction installed with
  | nil => rfl
  | cons name installed ih =>
    obtain ⟨conflict, hc⟩ := Option.isSome_iff_exists.1 (h name)
    unfold findBreaksLoop
    rw [hc]
    simpa using ih

theorem forces_built {mem : Ptr → Metadata} : ∀ (roots : List Ptr) {m : SatModel}, SatBuilt mem m →
    SatBuilt mem (roots.foldl satModelForce m) := by
  intro roots
  induction roots with
  | nil => intro m h; exact h
  | cons root roots ih => intro m h; exact ih (.force root h)

/-- A problem with any roots is decided once its model is there. -/
theorem depGraphResolveSat_ne_none {mem : Ptr → Metadata} {candidates roots : List Ptr}
    (h : ∀ p ∈ candidates, Hashable (mem p)) (budget : ℕ) (threadCount : ℤ) (sched : Schedule threadCount) :
    depGraphResolveSat mem candidates roots budget threadCount sched ≠ none := by
  obtain ⟨cs, hcs⟩ := Option.isSome_iff_exists.1 (candidateSetAddPackages_isSome candidates candidateSetInit h)
  have hbuild : (satModelBuild mem cs candidates satModelInit).isSome :=
    (satModelBuild_isSome candidates satModelInit).2 fun p hp => (h p hp).2.2
  obtain ⟨m, hm⟩ := Option.isSome_iff_exists.1 hbuild
  have hbuilt : SatBuilt mem (roots.foldl satModelForce m) := forces_built roots (.build cs candidates .init hm)
  obtain ⟨r, hr, -⟩ := satSolveParallel_decides mem (satBuilt_ok hbuilt) budget threadCount sched
  unfold depGraphResolveSat selectionModel
  simp only [hcs, hm, Option.map_some, hr]
  split <;> simp

/-- **A pool without `NULL` is read without one.** -/
theorem nullFree_of_noNull (h : ∀ pkg ∈ pool, pkg.NoNull) : NullFree pool := by
  refine ⟨?_, ?_, ?_, ?_, ?_⟩
  · intro g _ pkg hpkg
    have hsome (inst : Bool) : addNode g pkg inst ≠ none :=
      Option.isSome_iff_ne_none.1 (addNode_isSome g (h pkg hpkg) inst)
    exact ⟨hsome false, hsome true⟩
  · intro g hg name hnull
    obtain ⟨hb, hall⟩ := hg.spec
    obtain ⟨root, order, -, -, -, hres⟩ | ⟨e, hres, hcause, -⟩ := depGraphResolve_cases (built_ok hb) name
    · rw [hres] at hnull
      cases hnull
    · rw [hres] at hnull
      obtain rfl : e = .null := by simpa using hnull
      obtain ⟨root, c, -, ⟨i, nd, -, hi, hc⟩, hcn⟩ := hcause
      exact (h nd.pkg (hall nd (List.mem_of_getElem? hi))).dependencies c hc hcn
  · intro g hg name installed
    obtain ⟨hb, hall⟩ := hg.spec
    have hnodes : ∀ nd ∈ g.nodes, nd.pkg.NoNull := fun nd hnd => h nd.pkg (hall nd hnd)
    unfold depGraphFindBreaks
    cases hnd : (depGraphLookup g name).bind (g.nodes[·]?) with
    | none => simp
    | some nd =>
      obtain ⟨i, -, hi⟩ := Option.bind_eq_some_iff.1 hnd
      have hloop := findBreaksLoop_isSome
        (fun name => breaksWith_isSome hnodes (hnodes nd (List.mem_of_getElem? hi)) name) installed
      simpa [Option.isSome_iff_ne_none] using hloop
  · intro pkg hpkg name provides hprovides
    have hnone : none ∉ provides := by
      rcases hprovides with rfl | ⟨target, htarget, rfl⟩
      · simp
      · exact (h target htarget).provides
    obtain ⟨b, hb⟩ : ∃ b, anyMatch name provides pkg.dependencies = some b :=
      anyMatch_isSome hnone (h pkg hpkg).dependencies
    rw [hb]
    simp
  · intro mem candidates roots hmem budget threadCount sched
    refine depGraphResolveSat_ne_none (fun p hp => ?_) budget threadCount sched
    have hp := h (mem p) (hmem p hp)
    exact ⟨hp.name, hp.provides, hp.dependencies⟩

/-! ## With a `NULL` -/

theorem addProvides_none (idx : ℕ) : ∀ {as : List (Option CStr)}, none ∈ as → ∀ g, addProvides idx as g = none := by
  intro as
  induction as with
  | nil => intro h; cases h
  | cons o as ih =>
    intro h g
    cases o with
    | none => rfl
    | some a => exact ih (by simpa using h) _

theorem addReplaces_none (idx : ℕ) : ∀ {as : List (Option CStr)}, none ∈ as → ∀ g, addReplaces idx as g = none := by
  intro as
  induction as with
  | nil => intro h; cases h
  | cons o as ih =>
    intro h g
    cases o with
    | none => rfl
    | some a => exact ih (by simpa using h) _

theorem strListContains_none {s : CStr} : ∀ {list : List (Option CStr)}, none ∈ list → some s ∉ list →
    strListContains (some s) list = none := by
  intro list
  induction list with
  | nil => intro h; cases h
  | cons o list ih =>
    intro h hs
    cases o with
    | none => rfl
    | some x =>
      rw [List.mem_cons, not_or] at hs
      have hx : x ≠ s := fun hx => hs.1 (congrArg some hx.symm)
      simp only [strListContains, if_neg hx]
      exact ih (by simpa using h) hs.2

theorem anyMatch_none {name : CStr} : ∀ {deps : List DepConstraint}, (∃ dep ∈ deps, dep.name = none) →
    (∀ dep ∈ deps, dep.name ≠ some name) → anyMatch name [] deps = none := by
  intro deps
  induction deps with
  | nil => rintro ⟨dep, hdep, -⟩; cases hdep
  | cons dep deps ih =>
    rintro ⟨dep', hdep', hnone⟩ hfresh
    unfold anyMatch
    cases hname : dep.name with
    | none => rfl
    | some n =>
      have hn : n ≠ name := fun hn => hfresh dep List.mem_cons_self (hn ▸ hname)
      have hmatch : namesMatch (some n) name [] = some false := if_neg hn
      rw [hmatch]
      rcases List.mem_cons.1 hdep' with rfl | hdep'
      · rw [hname] at hnone
        cases hnone
      · exact ih ⟨dep', hdep', hnone⟩ fun d hd => hfresh d (List.mem_cons_of_mem _ hd)

/-- There is a name that none of the strings is. -/
theorem exists_fresh (strs : List (Option CStr)) : ∃ name : CStr, some name ∉ strs := by
  have : Nonempty CChar := ⟨.newline⟩
  obtain ⟨name, hname⟩ := Infinite.exists_notMem_finset strs.reduceOption.toFinset
  exact ⟨name, fun h => hname (List.mem_toFinset.2 (List.reduceOption_mem_iff.2 h))⟩

/-- The graph of one package: its aliases were read, and its name leads to it. -/
theorem addNode_new {pkg : Metadata} {name : CStr} (hname : pkg.name = some name) {e : DepError}
    (h : addNode depGraphNew pkg false = some (e, g)) :
    none ∉ pkg.provides ∧ none ∉ pkg.replaces ∧
      ∃ nd, (depGraphLookup g name).bind (g.nodes[·]?) = some nd ∧ nd.pkg = pkg := by
  obtain ⟨hn, -, -⟩ | ⟨_, idx, -, hfind, -, -⟩ | ⟨name', g₁, hn, -, -, h1, h2⟩ := addNode_cases h
  · rw [hname] at hn
    cases hn
  · simp [depGraphFind, depGraphNew] at hfind
  · obtain rfl : name' = name := by
      rw [hname] at hn
      exact (Option.some.inj hn).symm
    obtain ⟨⟨hnodes₁, -, -⟩, -⟩ := addProvides_spec _ h1
    obtain ⟨⟨hnodes₂, -, -⟩, -⟩ := addReplaces_spec _ h2
    refine ⟨fun hnone => ?_, fun hnone => ?_, ⟨name', pkg, false⟩, ?_, rfl⟩
    · rw [addProvides_none _ hnone] at h1
      cases h1
    · rw [addReplaces_none _ hnone] at h2
      cases h2
    · have hnd : g.nodes[0]? = some ⟨name', pkg, false⟩ := by
        rw [hnodes₂, hnodes₁]
        rfl
      rw [depGraphLookup_of_find ((depGraphFind_iff (addNode_ok depGraphNew_ok h)).2 ⟨_, hnd, rfl⟩)]
      exact hnd

/-- **A `NULL` of a pool is met.** -/
theorem noNull_of_nullFree (h : NullFree pool) (hnames : ∀ pkg ∈ pool, pkg.name ≠ none) :
    ∀ pkg ∈ pool, pkg.NoNull := by
  intro pkg hpkg
  obtain ⟨name, hname⟩ := Option.ne_none_iff_exists'.1 (hnames pkg hpkg)
  obtain ⟨⟨e, g⟩, hg⟩ := Option.ne_none_iff_exists'.1 (h.add depGraphNew .new pkg hpkg).1
  obtain ⟨hprovides, hreplaces, nd, hnd, hpkg'⟩ := addNode_new hname hg
  refine ⟨hnames pkg hpkg, ?_, hprovides, hreplaces, ?_⟩
  · intro dep hdep hnone
    obtain ⟨other, hother⟩ := exists_fresh (pkg.dependencies.map (·.name))
    refine h.dependents pkg hpkg other [] (Or.inl rfl) (anyMatch_none ⟨dep, hdep, hnone⟩ fun d hd hd' => hother ?_)
    exact List.mem_map.2 ⟨d, hd, hd'⟩
  · intro hnone
    -- the package's own list is searched for an installed name that is not in it
    obtain ⟨other, hother⟩ := exists_fresh pkg.conflicts
    refine h.findBreaks g (.add .new hpkg hg) name [other] ?_
    unfold depGraphFindBreaks
    rw [hnd]
    simp only [findBreaksLoop, breaksWith, hpkg', strListContains_none hnone hother, orElse]
    rfl

/-! ## Documents -/

/-- The arrays of the document by which packages are resolved have only strings. -/
def Json.StringLists (doc : Json) : Prop :=
  ∀ key ∈ ["dependencies", "conflicts", "provides", "replaces"], ∀ items, objGet key doc = some (.arr items) →
    ∀ j ∈ items, ∃ s, j = .str s

/-- An array with an element that is no string. -/
def HasOther (v : Option Json) : Prop := ∃ items, v = some (.arr items) ∧ ∃ j ∈ items, ¬∃ s, j = .str s

theorem getStr_eq_none (j : Json) : getStr (some j) = none ↔ ¬∃ s, j = .str s := by
  cases j <;> simp [getStr]

theorem none_mem_parseStrArray (v : Option Json) : none ∈ parseStrArray v ↔ HasOther v := by
  unfold parseStrArray HasOther
  split
  · simp [getStr_eq_none]
  · rename_i hv
    simp only [List.not_mem_nil, false_iff]
    rintro ⟨items, rfl, -⟩
    exact hv items rfl

theorem depConstraintParse_name (o : Option CStr) : (depConstraintParse o).name = none ↔ o = none := by
  unfold depConstraintParse
  split
  · simp
  · split <;> simp

theorem nameless_mem_parseDepArray (v : Option Json) : (∃ dep ∈ parseDepArray v, dep.name = none) ↔ HasOther v := by
  unfold parseDepArray HasOther
  split
  · simp [depConstraintParse_name, getStr_eq_none]
  · rename_i hv
    simp only [List.not_mem_nil, false_and, exists_false, false_iff]
    rintro ⟨items, rfl, -⟩
    exact hv items rfl

theorem noNull_iff_stringLists {doc : Json} {pkg : Metadata} (h : packageMetadataFromJson doc = some pkg)
    (hname : pkg.name ≠ none) : pkg.NoNull ↔ doc.StringLists := by
  obtain rfl : parseMetadataFromRoot doc = pkg := by
    unfold packageMetadataFromJson at h
    split at h
    · exact Option.some.inj h
    · cases h
  have hlists : doc.StringLists ↔ ∀ key ∈ ["dependencies", "conflicts", "provides", "replaces"],
      ¬HasOther (objGet key doc) := by
    refine forall₂_congr fun key _ => ?_
    unfold HasOther
    push Not
    exact Iff.rfl
  rw [hlists]
  simp only [List.forall_mem_cons, List.not_mem_nil, false_imp_iff, implies_true, and_true]
  constructor
  · intro hn
    refine ⟨fun h => ?_, fun h => ?_, fun h => ?_, fun h => ?_⟩
    · obtain ⟨dep, hdep, hnone⟩ := (nameless_mem_parseDepArray _).2 h
      exact hn.dependencies dep hdep hnone
    · exact hn.conflicts ((none_mem_parseStrArray _).2 h)
    · exact hn.provides ((none_mem_parseStrArray _).2 h)
    · exact hn.replaces ((none_mem_parseStrArray _).2 h)
  · rintro ⟨hdeps, hconflicts, hprovides, hreplaces⟩
    refine ⟨hname, fun dep hdep hnone => ?_, fun h => ?_, fun h => ?_, fun h => ?_⟩
    · exact hdeps ((nameless_mem_parseDepArray _).1 ⟨dep, hdep, hnone⟩)
    · exact hprovides ((none_mem_parseStrArray _).1 h)
    · exact hreplaces ((none_mem_parseStrArray _).1 h)
    · exact hconflicts ((none_mem_parseStrArray _).1 h)

/-- **Accepted metadata is safe to resolve** exactly when the four arrays of every document
of the pool have only strings. -/
theorem nullFree_iff {docs : List Json}
    (hdocs : ∀ doc ∈ docs, ∃ pkg, packageMetadataFromJson doc = some pkg ∧ pkg.name ≠ none) :
    NullFree (docs.filterMap packageMetadataFromJson) ↔ ∀ doc ∈ docs, doc.StringLists := by
  have hnames : ∀ pkg ∈ docs.filterMap packageMetadataFromJson, pkg.name ≠ none := by
    intro pkg hpkg
    obtain ⟨doc, hdoc, h⟩ := List.mem_filterMap.1 hpkg
    obtain ⟨pkg', h', hname⟩ := hdocs doc hdoc
    rw [h, Option.some.injEq] at h'
    exact h' ▸ hname
  constructor
  · intro hfree doc hdoc
    obtain ⟨pkg, h, hname⟩ := hdocs doc hdoc
    exact (noNull_iff_stringLists h hname).1
      (noNull_of_nullFree hfree hnames pkg (List.mem_filterMap.2 ⟨doc, hdoc, h⟩))
  · intro hlists
    refine nullFree_of_noNull fun pkg hpkg => ?_
    obtain ⟨doc, hdoc, h⟩ := List.mem_filterMap.1 hpkg
    exact (noNull_iff_stringLists h (hnames pkg hpkg)).2 (hlists doc hdoc)

/-- A document with the given name and `provides`. -/
def namedDoc (name : CStr) (provides : List Json) : Json :=
  .obj [(jstr (cstr "name"), .str (jstr name)), (jstr (cstr "provides"), .arr provides)]

theorem namedDoc_fields (name : CStr) (provides : List Json) :
    objGet "name" (namedDoc name provides) = some (.str (jstr name)) ∧
      objGet "provides" (namedDoc name provides) = some (.arr provides) ∧
      objGet "dependencies" (namedDoc name provides) = none ∧
      objGet "conflicts" (namedDoc name provides) = none ∧ objGet "replaces" (namedDoc name provides) = none :=
  ⟨rfl, rfl, rfl, rfl, rfl⟩

/-- Two packages that provide the same name. -/
theorem nullFree_shells :
    NullFree ([namedDoc (cstr "dash") [.str (jstr (cstr "sh"))], namedDoc (cstr "zsh") [.str (jstr (cstr "sh"))]].filterMap
      packageMetadataFromJson) := by
  have hlists : ∀ name, (namedDoc name [.str (jstr (cstr "sh"))]).StringLists := by
    intro name key hkey items hitems
    obtain ⟨-, h2, h3, h4, h5⟩ := namedDoc_fields name [.str (jstr (cstr "sh"))]
    simp only [List.mem_cons, List.not_mem_nil, or_false] at hkey
    rcases hkey with rfl | rfl | rfl | rfl
    · rw [h3] at hitems; cases hitems
    · rw [h4] at hitems; cases hitems
    · rw [h2] at hitems
      obtain rfl : [.str (jstr (cstr "sh"))] = items := by simpa using hitems
      intro j hj
      exact ⟨_, List.mem_singleton.1 hj⟩
    · rw [h5] at hitems; cases hitems
  refine (nullFree_iff ?_).2 ?_
  · intro doc hdoc
    simp only [List.mem_cons, List.not_mem_nil, or_false] at hdoc
    rcases hdoc with rfl | rfl
    · exact ⟨_, rfl, by simp [parseMetadataFromRoot, namedDoc_fields, getStr]⟩
    · exact ⟨_, rfl, by simp [parseMetadataFromRoot, namedDoc_fields, getStr]⟩
  · intro doc hdoc
    simp only [List.mem_cons, List.not_mem_nil, or_false] at hdoc
    rcases hdoc with rfl | rfl
    · exact hlists _
    · exact hlists _

/-- A package that provides `null` is accepted, and cannot be added to a graph. -/
theorem nullFree_null :
    ∃ pkg, packageMetadataFromJson (namedDoc (cstr "dash") [.null]) = some pkg ∧ pkg.name = some (cstr "dash") ∧
      depGraphAdd depGraphNew pkg = none := by
  refine ⟨_, rfl, by decide, ?_⟩
  decide

end Apg
