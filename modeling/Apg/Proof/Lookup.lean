import Apg.Proof.Graph

/-!
# Lookups from the history of a graph

What a lookup finds after a run of additions and preferences, said of the run alone:
the packages in the order in which their names were first added (`historyNodes`), the
last preference, and the marks.

* `depGraphLookup_history`: **a lookup follows the history, whatever the order of the calls.**
-/

namespace Apg

/-! ## Histories -/

/-- A call that changes a graph. -/
inductive GraphOp
  | add (pkg : Metadata)
  | addInstalled (pkg : Metadata)
  | prefer (aliasName pkgName : CStr)

def GraphOp.run (g : DepGraph) : GraphOp → Option DepGraph
  | .add pkg => (depGraphAdd g pkg).map Prod.snd
  | .addInstalled pkg => (depGraphAddInstalled g pkg).map Prod.snd
  | .prefer aliasName pkgName => some (depGraphPrefer g aliasName pkgName)

/-- The graph after a run of calls on a new one, unless a string is `NULL`. -/
def graphAfter (ops : List GraphOp) : Option DepGraph := ops.foldlM GraphOp.run depGraphNew

/-- The package that is added, and whether it is marked as installed. -/
def GraphOp.added : GraphOp → Option (Metadata × Bool)
  | .add pkg => some (pkg, false)
  | .addInstalled pkg => some (pkg, true)
  | .prefer _ _ => none

/-- The package that is preferred for the name. -/
def GraphOp.preferred (name : CStr) : GraphOp → Option CStr
  | .prefer aliasName pkgName => if aliasName = name then some pkgName else none
  | _ => none

/-- The names of the additions, in the order in which they were first added. -/
def addedNames (adds : List (Metadata × Bool)) : List CStr := (adds.filterMap (·.1.name)).eraseDups

def firstAdded (adds : List (Metadata × Bool)) (name : CStr) : Option Metadata :=
  (adds.find? (·.1.name = some name)).map Prod.fst

def everInstalled (adds : List (Metadata × Bool)) (name : CStr) : Bool := adds.any fun x => x.2 && x.1.name = some name

/-- One node for each name, with the package first added under it. -/
def nodesOfAdds (adds : List (Metadata × Bool)) : List DepNode :=
  (addedNames adds).filterMap fun name => (firstAdded adds name).map fun pkg => ⟨name, pkg, everInstalled adds name⟩

def historyNodes (ops : List GraphOp) : List DepNode := nodesOfAdds (ops.filterMap GraphOp.added)

def lastPreferred (ops : List GraphOp) (name : CStr) : Option CStr := ops.reverse.findSome? (GraphOp.preferred name)

instance (p : Metadata) (a : CStr) : Decidable (p.Declares a) :=
  inferInstanceAs (Decidable (some a ∈ p.provides ∨ some a ∈ p.replaces))

/-- The node of exactly that name. -/
def nodeNamed (nodes : List DepNode) (name : CStr) : Option ℕ := nodes.findIdx? (·.name = name)

/-- The earliest node that provides or replaces the name among the installed ones, or else
the earliest one. -/
def earliestProvider (nodes : List DepNode) (name : CStr) : Option ℕ :=
  (nodes.findIdx? fun nd => decide (nd.pkg.Declares name) && nd.installed).or
    (nodes.findIdx? fun nd => decide (nd.pkg.Declares name))

/-- **What a lookup is to find.** -/
def historyLookup (ops : List GraphOp) (name : CStr) : Option ℕ :=
  (nodeNamed (historyNodes ops) name).or
    (((lastPreferred ops name).bind (nodeNamed (historyNodes ops))).or (earliestProvider (historyNodes ops) name))

/-! ## The nodes of a history -/

theorem firstAdded_concat (adds : List (Metadata × Bool)) (x : Metadata × Bool) (name : CStr) :
    firstAdded (adds ++ [x]) name = (firstAdded adds name).or (if x.1.name = some name then some x.1 else none) := by
  unfold firstAdded
  rw [List.find?_append]
  cases adds.find? (·.1.name = some name) with
  | some y => rfl
  | none =>
    by_cases hx : x.1.name = some name
    · simp [hx]
    · simp [hx]

theorem everInstalled_concat (adds : List (Metadata × Bool)) (x : Metadata × Bool) (name : CStr) :
    everInstalled (adds ++ [x]) name = (everInstalled adds name || (x.2 && x.1.name = some name)) := by
  unfold everInstalled
  rw [List.any_append, List.any_cons, List.any_nil, Bool.or_false]

theorem mem_addedNames (adds : List (Metadata × Bool)) (name : CStr) :
    name ∈ addedNames adds ↔ ∃ x ∈ adds, x.1.name = some name := by
  unfold addedNames
  rw [List.mem_eraseDups, List.mem_filterMap]

theorem firstAdded_eq_none (adds : List (Metadata × Bool)) (name : CStr) :
    firstAdded adds name = none ↔ name ∉ addedNames adds := by
  unfold firstAdded
  rw [Option.map_eq_none_iff, List.find?_eq_none, mem_addedNames, not_exists]
  simp only [decide_eq_true_eq, not_and]

theorem everInstalled_of_notMem {adds : List (Metadata × Bool)} {name : CStr} (h : name ∉ addedNames adds) :
    everInstalled adds name = false := by
  unfold everInstalled
  rw [List.any_eq_false]
  intro x hx hmark
  simp only [Bool.and_eq_true, decide_eq_true_eq] at hmark
  exact h ((mem_addedNames adds name).2 ⟨x, hx, hmark.2⟩)

theorem addedNames_concat (adds : List (Metadata × Bool)) {x : Metadata × Bool} {name : CStr} (hx : x.1.name = some name) :
    addedNames (adds ++ [x]) = if name ∈ addedNames adds then addedNames adds else addedNames adds ++ [name] := by
  have hone : [x].filterMap (·.1.name) = [name] := by simp [hx]
  unfold addedNames
  rw [List.filterMap_append, hone, eraseDups_concat]
  simp only [List.mem_eraseDups]

/-- An addition without a name changes nothing. -/
theorem nodesOfAdds_nameless {adds : List (Metadata × Bool)} {x : Metadata × Bool} (hx : x.1.name = none) :
    nodesOfAdds (adds ++ [x]) = nodesOfAdds adds := by
  have hnames : addedNames (adds ++ [x]) = addedNames adds := by
    have hone : [x].filterMap (·.1.name) = [] := by simp [hx]
    unfold addedNames
    rw [List.filterMap_append, hone, List.append_nil]
  unfold nodesOfAdds
  simp only [hnames, firstAdded_concat, everInstalled_concat, hx, reduceCtorEq, if_false, Option.or_none, decide_false,
    Bool.and_false, Bool.or_false]

/-- An addition under a known name can only mark its node. -/
theorem nodesOfAdds_known {adds : List (Metadata × Bool)} {x : Metadata × Bool} {name : CStr}
    (hx : x.1.name = some name) (hknown : name ∈ addedNames adds) :
    nodesOfAdds (adds ++ [x]) =
      (nodesOfAdds adds).map fun nd => if nd.name = name then { nd with installed := nd.installed || x.2 } else nd := by
  unfold nodesOfAdds
  rw [addedNames_concat adds hx, if_pos hknown, List.map_filterMap]
  refine List.filterMap_congr fun n hn => ?_
  obtain ⟨pkg, hpkg⟩ := Option.ne_none_iff_exists'.1 (mt (firstAdded_eq_none adds n).1 (not_not.2 hn))
  rw [firstAdded_concat, everInstalled_concat, hpkg, hx]
  by_cases hname : n = name
  · simp [hname]
  · simp [hname, Ne.symm hname]

/-- An addition under a new name appends its node. -/
theorem nodesOfAdds_fresh {adds : List (Metadata × Bool)} {x : Metadata × Bool} {name : CStr}
    (hx : x.1.name = some name) (hfresh : name ∉ addedNames adds) :
    nodesOfAdds (adds ++ [x]) = nodesOfAdds adds ++ [⟨name, x.1, x.2⟩] := by
  unfold nodesOfAdds
  rw [addedNames_concat adds hx, if_neg hfresh, List.filterMap_append]
  congr 1
  · refine List.filterMap_congr fun n hn => ?_
    have hname : name ≠ n := fun h => hfresh (h ▸ hn)
    simp [firstAdded_concat, everInstalled_concat, hx, hname]
  · simp [firstAdded_concat, everInstalled_concat, hx, (firstAdded_eq_none adds name).2 hfresh,
      everInstalled_of_notMem hfresh]

theorem mem_nodesOfAdds {adds : List (Metadata × Bool)} {nd : DepNode} (h : nd ∈ nodesOfAdds adds) :
    nd.name ∈ addedNames adds ∧ firstAdded adds nd.name = some nd.pkg := by
  obtain ⟨name, hname, h⟩ := List.mem_filterMap.1 h
  obtain ⟨pkg, hpkg, rfl⟩ := Option.map_eq_some_iff.1 h
  exact ⟨hname, hpkg⟩

/-! ## Providers -/

variable {g g' : DepGraph}

/-- The providers that are registered for a name. -/
def providersOf (g : DepGraph) (aliasName : CStr) : List ℕ :=
  (((strMapGet g.aliasMap aliasName).bind (g.aliasGroups[·]?)).map (·.providers)).getD []

theorem aliasTarget_eq (g : DepGraph) (name : CStr) : aliasTarget g name = pickProvider g (providersOf g name) := by
  unfold aliasTarget providersOf
  cases hmap : strMapGet g.aliasMap name with
  | none => rfl
  | some idx =>
    simp only [Option.bind_some]
    cases g.aliasGroups[idx]? <;> rfl

/-- The index of the groups, which every new alias keeps. -/
structure GroupIndex (g : DepGraph) : Prop where
  map : g.aliasMap.OK
  index : Indexes g.aliasMap (g.aliasGroups.map (·.aliasName))

theorem addAlias_index (h : GroupIndex g) (a : CStr) (i : ℕ) : GroupIndex (addAlias g a i) := by
  unfold addAlias
  split
  · rename_i j hj
    refine ⟨h.map, ?_⟩
    have hnames := map_modify_eq (f := AliasGroup.aliasName)
      (u := fun a => { a with providers := a.providers ++ [i] }) (fun _ => rfl) g.aliasGroups j
    simp only
    rw [hnames]
    exact h.index
  · rename_i hnone
    exact ⟨strMapSet_ok h.map _ _, by simpa using indexes_concat h.map h.index hnone⟩

/-- **A new alias appends the node to the providers of its name.** -/
theorem addAlias_providers (h : GroupIndex g) (a b : CStr) (i : ℕ) :
    providersOf (addAlias g a i) b = if b = a then providersOf g a ++ [i] else providersOf g b := by
  unfold addAlias
  cases ha : strMapGet g.aliasMap a with
  | some j =>
    obtain ⟨gr, hgr, -⟩ : ∃ gr, g.aliasGroups[j]? = some gr ∧ gr.aliasName = a := by
      have := (h.index a j).1 ha
      rwa [List.getElem?_map, Option.map_eq_some_iff] at this
    unfold providersOf
    simp only
    by_cases hb : b = a
    · subst hb
      simp [ha, hgr]
    · rw [if_neg hb]
      cases hk : strMapGet g.aliasMap b with
      | none => rfl
      | some k =>
        -- another name has another group
        have hjk : j ≠ k := by
          rintro rfl
          have h1 := (h.index a j).1 ha
          have h2 := (h.index b j).1 hk
          rw [h1, Option.some.injEq] at h2
          exact hb h2.symm
        simp [hjk]
  | none =>
    unfold providersOf
    simp only [strMapGet_set h.map]
    by_cases hb : b = a
    · subst hb
      simp [ha]
    · rw [if_neg hb, if_neg hb]
      cases hk : strMapGet g.aliasMap b with
      | none => rfl
      | some k =>
        have hlt : k < g.aliasGroups.length := by
          have := (List.getElem?_eq_some_iff.1 ((h.index b k).1 hk)).1
          rwa [List.length_map] at this
        simp [List.getElem?_append_left hlt]

theorem addProvides_providers {idx : ℕ} : ∀ (as : List (Option CStr)) {g g' : DepGraph},
    addProvides idx as g = some g' → GroupIndex g →
      GroupIndex g' ∧ ∀ b, providersOf g' b = providersOf g b ++ List.replicate (as.count (some b)) idx := by
  intro as
  induction as with
  | nil =>
    intro g g' h hg
    obtain rfl : g = g' := Option.some.inj h
    exact ⟨hg, by simp⟩
  | cons o as ih =>
    intro g g' h hg
    cases o with
    | none => cases h
    | some a =>
      obtain ⟨hg', hall⟩ := ih h (addAlias_index hg a idx)
      refine ⟨hg', fun b => ?_⟩
      rw [hall, addAlias_providers hg]
      by_cases hb : b = a
      · subst hb
        rw [if_pos rfl, List.count_cons_self, List.append_assoc, List.replicate_succ]
        rfl
      · rw [if_neg hb, List.count_cons_of_ne (by simpa using Ne.symm hb)]

theorem addReplaces_providers {idx : ℕ} : ∀ (as : List (Option CStr)) {g g' : DepGraph},
    addReplaces idx as g = some g' → GroupIndex g →
      GroupIndex g' ∧ ∀ b, providersOf g' b = providersOf g b ++
        List.replicate (if depGraphFind g b = none then as.count (some b) else 0) idx := by
  intro as
  induction as with
  | nil =>
    intro g g' h hg
    obtain rfl : g = g' := Option.some.inj h
    exact ⟨hg, by simp⟩
  | cons o as ih =>
    intro g g' h hg
    cases o with
    | none => cases h
    | some a =>
      unfold addReplaces at h
      by_cases ha : depGraphFind g a = none
      · rw [if_pos ha] at h
        obtain ⟨hg', hall⟩ := ih h (addAlias_index hg a idx)
        refine ⟨hg', fun b => ?_⟩
        have hfind : depGraphFind (addAlias g a idx) b = depGraphFind g b := by
          unfold depGraphFind
          rw [addAlias_nodeMap]
        rw [hall, addAlias_providers hg, hfind]
        by_cases hb : b = a
        · subst hb
          rw [if_pos rfl, if_pos ha, if_pos ha, List.count_cons_self, List.append_assoc, List.replicate_succ]
          rfl
        · rw [if_neg hb, List.count_cons_of_ne (by simpa using Ne.symm hb)]
      · rw [if_neg ha] at h
        obtain ⟨hg', hall⟩ := ih h hg
        refine ⟨hg', fun b => ?_⟩
        rw [hall]
        by_cases hb : b = a
        · subst hb
          rw [if_neg ha, if_neg ha]
        · rw [List.count_cons_of_ne (by simpa using Ne.symm hb)]

/-- The providers of a name stand in the order of their nodes, and are all the nodes that
declare it, as long as no node has the name itself. -/
structure ProvidersOK (g : DepGraph) : Prop where
  sorted : ∀ a, (providersOf g a).Pairwise (· ≤ ·)
  declared : ∀ a, depGraphFind g a = none → ∀ i, i ∈ providersOf g a ↔ ∃ nd, g.nodes[i]? = some nd ∧ nd.pkg.Declares a

/-- Every provider is a node. -/
theorem GraphOK.provider_lt (h : GraphOK g) {a : CStr} {i : ℕ} (hi : i ∈ providersOf g a) : i < g.nodes.length := by
  unfold providersOf at hi
  cases hgr : (strMapGet g.aliasMap a).bind (g.aliasGroups[·]?) with
  | none =>
    rw [hgr] at hi
    cases hi
  | some gr =>
    rw [hgr] at hi
    obtain ⟨j, -, hj⟩ := Option.bind_eq_some_iff.1 hgr
    obtain ⟨nd, hnd, -⟩ := h.declared gr (List.mem_of_getElem? hj) i hi
    exact (List.getElem?_eq_some_iff.1 hnd).1

theorem providersOK_new : ProvidersOK depGraphNew := by
  have hnone : ∀ a, providersOf depGraphNew a = [] := by
    intro a
    simp [providersOf, depGraphNew]
  refine ⟨fun a => by rw [hnone]; exact List.Pairwise.nil, fun a _ i => ?_⟩
  rw [hnone]
  simp [depGraphNew]

/-- **An addition keeps the order of the providers.** -/
theorem addNode_providers {pkg : Metadata} {inst : Bool} {e : DepError} (hg : GraphOK g) (hp : ProvidersOK g)
    (h : addNode g pkg inst = some (e, g')) : ProvidersOK g' := by
  obtain ⟨-, -, rfl⟩ | ⟨name, idx, -, -, -, rfl⟩ | ⟨name, g₁, -, hf, -, h1, h2⟩ := addNode_cases h
  · exact hp
  · -- a mark does not touch the packages
    refine ⟨hp.sorted, fun a ha i => (hp.declared a ha i).trans ?_⟩
    simp only [List.getElem?_modify]
    cases hnd : g.nodes[i]? with
    | none => simp
    | some nd => by_cases hi : idx = i <;> simp [hi]
  · set g₀ : DepGraph := { g with
      nodes := g.nodes ++ [⟨name, pkg, inst⟩]
      nodeMap := strMapSet g.nodeMap name g.nodes.length } with hg₀
    obtain ⟨⟨hnodes₁, hmap₁, -⟩, -⟩ := addProvides_spec _ h1
    obtain ⟨⟨hnodes₂, hmap₂, -⟩, -⟩ := addReplaces_spec _ h2
    obtain ⟨hindex₁, hprov₁⟩ := addProvides_providers _ h1 (⟨hg.aliasMap, hg.group⟩ : GroupIndex g₀)
    obtain ⟨-, hprov₂⟩ := addReplaces_providers _ h2 hindex₁
    have hall : ∀ b, providersOf g' b = providersOf g b ++ List.replicate
        (pkg.provides.count (some b) + if depGraphFind g₁ b = none then pkg.replaces.count (some b) else 0)
        g.nodes.length := by
      intro b
      rw [hprov₂, hprov₁, List.append_assoc, List.replicate_append_replicate]
      rfl
    refine ⟨fun b => ?_, fun b hb i => ?_⟩
    · rw [hall, List.pairwise_append]
      refine ⟨hp.sorted b, List.pairwise_replicate.2 (Or.inr le_rfl), fun i hi j hj => ?_⟩
      rw [List.eq_of_mem_replicate hj]
      exact (hg.provider_lt hi).le
    · have hfind : depGraphFind g₁ b = none := by
        unfold depGraphFind at hb ⊢
        rwa [← hmap₂]
      have hold : depGraphFind g b = none := by
        unfold depGraphFind at hfind ⊢
        rw [hmap₁, hg₀, strMapGet_set hg.nodeMap] at hfind
        split at hfind
        · cases hfind
        · exact hfind
      have hcount : pkg.provides.count (some b) + pkg.replaces.count (some b) ≠ 0 ↔ pkg.Declares b := by
        unfold Metadata.Declares
        rw [← List.count_pos_iff, ← List.count_pos_iff]
        omega
      rw [hall, if_pos hfind, List.mem_append, List.mem_replicate, hp.declared b hold, hnodes₂, hnodes₁, hcount]
      simp only [hg₀, getElem?_concat_iff]
      constructor
      · rintro (⟨nd, hnd, hdecl⟩ | ⟨hdecl, rfl⟩)
        · exact ⟨nd, Or.inl hnd, hdecl⟩
        · exact ⟨_, Or.inr ⟨rfl, rfl⟩, hdecl⟩
      · rintro ⟨nd, hnd | ⟨rfl, rfl⟩, hdecl⟩
        · exact Or.inl ⟨nd, hnd, hdecl⟩
        · exact Or.inr ⟨hdecl, rfl⟩

/-! ## Runs -/

theorem lookup_cons_if (a p b : CStr) (prefs : List (CStr × CStr)) :
    ((a, p) :: prefs).lookup b = if b = a then some p else prefs.lookup b := by
  rw [List.lookup_cons]
  by_cases hb : b = a
  · simp [hb]
  · rw [if_neg hb, beq_eq_false_iff_ne.2 hb]

theorem setPref_lookup (a p b : CStr) (prefs : List (CStr × CStr)) :
    (setPref a p prefs).lookup b = if b = a then some p else prefs.lookup b := by
  induction prefs with
  | nil => exact lookup_cons_if a p b []
  | cons pref prefs ih =>
    obtain ⟨a', p'⟩ := pref
    rw [setPref]
    by_cases ha : a' = a
    · subst ha
      rw [if_pos rfl, lookup_cons_if, lookup_cons_if]
      by_cases hb : b = a'
      · rw [if_pos hb, if_pos hb]
      · rw [if_neg hb, if_neg hb, if_neg hb]
    · rw [if_neg ha, lookup_cons_if, lookup_cons_if, ih]
      by_cases hb : b = a'
      · rw [if_pos hb, if_pos hb, if_neg (hb ▸ ha)]
      · rw [if_neg hb, if_neg hb]

theorem lastPreferred_concat (ops : List GraphOp) (op : GraphOp) (name : CStr) :
    lastPreferred (ops ++ [op]) name = (op.preferred name).or (lastPreferred ops name) := by
  unfold lastPreferred
  rw [List.reverse_concat, List.findSome?_cons]
  cases op.preferred name <;> rfl

theorem historyNodes_concat_none {op : GraphOp} (h : op.added = none) (ops : List GraphOp) :
    historyNodes (ops ++ [op]) = historyNodes ops := by
  have hone : [op].filterMap GraphOp.added = [] := by simp [h]
  unfold historyNodes
  rw [List.filterMap_append, hone, List.append_nil]

theorem historyNodes_concat {op : GraphOp} {x : Metadata × Bool} (h : op.added = some x) (ops : List GraphOp) :
    historyNodes (ops ++ [op]) = nodesOfAdds (ops.filterMap GraphOp.added ++ [x]) := by
  have hone : [op].filterMap GraphOp.added = [x] := by simp [h]
  unfold historyNodes
  rw [List.filterMap_append, hone]

theorem Indexes.nodup {m : StrMap} {keys : List CStr} (h : Indexes m keys) : keys.Nodup := by
  refine List.nodup_iff_injective_getElem.2 fun i j hij => ?_
  simp only at hij
  have hi := (h _ i).2 (List.getElem?_eq_getElem i.2)
  have hj := (h _ j).2 (List.getElem?_eq_getElem j.2)
  rw [hij, hj, Option.some.injEq] at hi
  exact Fin.ext hi.symm

/-- Where `f` tells the elements apart, changing one place is changing the element with its value. -/
theorem modify_eq_map {α β : Type*} [DecidableEq β] {f : α → β} {l : List α} (hl : (l.map f).Nodup) {i : ℕ} {x : α}
    (hi : l[i]? = some x) (u : α → α) : l.modify i u = l.map fun y => if f y = f x then u y else y := by
  refine List.ext_getElem? fun k => ?_
  rw [List.getElem?_modify, List.getElem?_map]
  cases hk : l[k]? with
  | none => rfl
  | some y =>
    have hiff : f y = f x ↔ i = k := by
      constructor
      · intro hxy
        have h1 : (l.map f)[i]? = some (f x) := by rw [List.getElem?_map, hi]; rfl
        have h2 : (l.map f)[k]? = some (f x) := by rw [List.getElem?_map, hk, ← hxy]; rfl
        exact (List.getElem?_inj (List.getElem?_eq_some_iff.1 h1).1 hl).1 (h1.trans h2.symm)
      · rintro rfl
        rw [hk, Option.some.injEq] at hi
        rw [hi]
    simp [hiff]

/-- **What every run keeps**: the nodes and the preferences are those of the history. -/
structure Follows (ops : List GraphOp) (g : DepGraph) : Prop where
  ok : GraphOK g
  providers : ProvidersOK g
  nodes : g.nodes = historyNodes ops
  prefs : ∀ a, g.prefs.lookup a = lastPreferred ops a

/-- An addition appends or marks the node that the history says. -/
theorem Follows.add {ops : List GraphOp} (h : Follows ops g) {op : GraphOp} {pkg : Metadata} {inst : Bool} {e : DepError}
    (hop : op.added = some (pkg, inst)) (hpref : ∀ name, op.preferred name = none)
    (ha : addNode g pkg inst = some (e, g')) : Follows (ops ++ [op]) g' := by
  have hprefs : g'.prefs = g.prefs ∧ g'.nodes = historyNodes (ops ++ [op]) := by
    rw [historyNodes_concat hop]
    obtain ⟨hn, -, rfl⟩ | ⟨name, idx, hn, hf, -, rfl⟩ | ⟨name, g₁, hn, hf, -, h1, h2⟩ := addNode_cases ha
    · exact ⟨rfl, by rw [h.nodes, nodesOfAdds_nameless hn]; rfl⟩
    · refine ⟨rfl, ?_⟩
      obtain ⟨nd, hnd, rfl⟩ := (depGraphFind_iff h.ok).1 hf
      have hknown : nd.name ∈ addedNames (ops.filterMap GraphOp.added) := by
        have := List.mem_of_getElem? hnd
        rw [h.nodes] at this
        exact (mem_nodesOfAdds this).1
      rw [nodesOfAdds_known hn hknown]
      simp only
      rw [modify_eq_map h.ok.find.nodup hnd, h.nodes]
      rfl
    · obtain ⟨⟨hnodes₁, -, hprefs₁⟩, -⟩ := addProvides_spec _ h1
      obtain ⟨⟨hnodes₂, -, hprefs₂⟩, -⟩ := addReplaces_spec _ h2
      refine ⟨hprefs₂.trans hprefs₁, ?_⟩
      have hfresh : name ∉ addedNames (ops.filterMap GraphOp.added) := by
        intro hmem
        obtain ⟨first, hfirst⟩ := Option.ne_none_iff_exists'.1 (mt (firstAdded_eq_none _ name).1 (not_not.2 hmem))
        have hnd : ⟨name, first, everInstalled (ops.filterMap GraphOp.added) name⟩ ∈ g.nodes := by
          rw [h.nodes]
          exact List.mem_filterMap.2 ⟨name, hmem, by rw [hfirst]; rfl⟩
        obtain ⟨i, hi⟩ := List.getElem?_of_mem hnd
        rw [(depGraphFind_iff h.ok).2 ⟨_, hi, rfl⟩] at hf
        cases hf
      rw [nodesOfAdds_fresh hn hfresh, hnodes₂, hnodes₁, h.nodes]
      rfl
  refine ⟨addNode_ok h.ok ha, addNode_providers h.ok h.providers ha, hprefs.2, fun a => ?_⟩
  rw [hprefs.1, h.prefs, lastPreferred_concat, hpref, Option.none_or]

theorem graphAfter_concat (ops : List GraphOp) (op : GraphOp) :
    graphAfter (ops ++ [op]) = (graphAfter ops).bind op.run := by
  unfold graphAfter
  rw [List.foldlM_append]
  simp

theorem graphAfter_follows {ops : List GraphOp} {g : DepGraph} (h : graphAfter ops = some g) : Follows ops g := by
  induction ops using List.reverseRecOn generalizing g with
  | nil =>
    obtain rfl : depGraphNew = g := Option.some.inj h
    exact ⟨depGraphNew_ok, providersOK_new, rfl, fun a => rfl⟩
  | append_singleton ops op ih =>
    rw [graphAfter_concat] at h
    obtain ⟨g₀, h0, hop⟩ := Option.bind_eq_some_iff.1 h
    have h0 := ih h0
    cases op with
    | add pkg =>
      obtain ⟨⟨e, g'⟩, ha, rfl⟩ := Option.map_eq_some_iff.1 hop
      exact h0.add rfl (fun _ => rfl) ha
    | addInstalled pkg =>
      obtain ⟨⟨e, g'⟩, ha, rfl⟩ := Option.map_eq_some_iff.1 hop
      exact h0.add rfl (fun _ => rfl) ha
    | prefer aliasName pkgName =>
      obtain rfl := Option.some.inj hop
      refine ⟨depGraphPrefer_ok h0.ok aliasName pkgName, ⟨h0.providers.sorted, h0.providers.declared⟩, ?_, fun a => ?_⟩
      · rw [historyNodes_concat_none rfl]
        exact h0.nodes
      · rw [lastPreferred_concat, ← h0.prefs]
        unfold depGraphPrefer GraphOp.preferred
        simp only
        rw [setPref_lookup]
        by_cases ha : a = aliasName
        · subst ha
          simp
        · simp [ha, Ne.symm ha]

/-! ## Lookups -/

/-- A search through the sorted positions of the elements with `P` is a search through the elements. -/
theorem find?_positions {α : Type*} {l : List α} {P R : α → Bool} {Q : ℕ → Bool} {ps : List ℕ}
    (hsorted : ps.Pairwise (· ≤ ·)) (hmem : ∀ i, i ∈ ps ↔ ∃ x, l[i]? = some x ∧ P x = true)
    (hQ : ∀ i x, l[i]? = some x → Q i = R x) : ps.find? Q = l.findIdx? fun x => P x && R x := by
  have hhas : ∀ i, i ∈ ps ∧ Q i = true ↔ ∃ x, l[i]? = some x ∧ (P x && R x) = true := by
    intro i
    rw [hmem]
    constructor
    · rintro ⟨⟨x, hx, hP⟩, hq⟩
      exact ⟨x, hx, by rw [hP, ← hQ i x hx, hq]; rfl⟩
    · rintro ⟨x, hx, hPR⟩
      rw [Bool.and_eq_true] at hPR
      exact ⟨⟨x, hx, hPR.1⟩, (hQ i x hx).trans hPR.2⟩
  cases hfind : l.findIdx? fun x => P x && R x with
  | none =>
    rw [List.find?_eq_none]
    intro i hi hq
    obtain ⟨x, hx, hPR⟩ := (hhas i).1 ⟨hi, hq⟩
    have := List.findIdx?_eq_none_iff.1 hfind x (List.mem_of_getElem? hx)
    rw [hPR] at this
    cases this
  | some i =>
    obtain ⟨hlt, hPR, hbefore⟩ := List.findIdx?_eq_some_iff_getElem.1 hfind
    obtain ⟨hi, hq⟩ := (hhas i).2 ⟨l[i], List.getElem?_eq_getElem hlt, hPR⟩
    obtain ⟨k, hk⟩ := Option.isSome_iff_exists.1 (List.find?_isSome.2 ⟨i, hi, hq⟩)
    -- the position that is found first is the least one
    obtain ⟨hqk, as, bs, hsplit, hnot⟩ := List.find?_eq_some_iff_append.1 hk
    have hki : k ≤ i := by
      rw [hsplit] at hi hsorted
      rcases List.mem_append.1 hi with hi | hi
      · have := hnot i hi
        rw [hq] at this
        cases this
      · rcases List.mem_cons.1 hi with rfl | hi
        · exact le_rfl
        · exact List.rel_of_pairwise_cons (List.pairwise_append.1 hsorted).2.1 hi
    have hik : i ≤ k := by
      obtain ⟨x, hx, hPRk⟩ := (hhas k).1 ⟨by rw [hsplit]; simp, hqk⟩
      by_contra hlt'
      obtain ⟨hk', rfl⟩ := List.getElem?_eq_some_iff.1 hx
      exact hbefore k (not_le.1 hlt') hPRk
    rw [hk, le_antisymm hki hik]

variable {ops : List GraphOp}

theorem Follows.find (h : Follows ops g) (name : CStr) : depGraphFind g name = nodeNamed (historyNodes ops) name := by
  unfold nodeNamed
  rw [← h.nodes]
  cases hfind : depGraphFind g name with
  | none =>
    symm
    rw [List.findIdx?_eq_none_iff]
    intro nd hnd
    obtain ⟨i, hi⟩ := List.getElem?_of_mem hnd
    by_contra hname
    rw [(depGraphFind_iff h.ok).2 ⟨nd, hi, by simpa using hname⟩] at hfind
    cases hfind
  | some i =>
    symm
    obtain ⟨nd, hnd, hname⟩ := (depGraphFind_iff h.ok).1 hfind
    obtain ⟨hlt, hget⟩ := List.getElem?_eq_some_iff.1 hnd
    rw [List.findIdx?_eq_some_iff_getElem]
    refine ⟨hlt, by simpa [hget] using hname, fun j hj hj' => ?_⟩
    have hj'' := (depGraphFind_iff h.ok).2 ⟨_, List.getElem?_eq_getElem (hj.trans hlt), by simpa using hj'⟩
    rw [hfind, Option.some.injEq] at hj''
    omega

theorem Follows.provider (h : Follows ops g) {name : CStr} (hnone : depGraphFind g name = none) :
    aliasTarget g name = earliestProvider (historyNodes ops) name := by
  have hmem : ∀ i, i ∈ providersOf g name ↔ ∃ nd, g.nodes[i]? = some nd ∧ decide (nd.pkg.Declares name) = true := by
    simpa using h.providers.declared name hnone
  have hinstalled : ∀ i nd, g.nodes[i]? = some nd → nodeInstalled g i = nd.installed := by
    intro i nd hnd
    unfold nodeInstalled
    rw [hnd]
    rfl
  have hfirst : (providersOf g name).head? = g.nodes.findIdx? fun nd => decide (nd.pkg.Declares name) := by
    have := find?_positions (R := fun _ => true) (Q := fun _ => true) (h.providers.sorted name) hmem fun _ _ _ => rfl
    cases hps : providersOf g name <;> simpa [hps] using this
  rw [aliasTarget_eq]
  unfold pickProvider earliestProvider
  rw [find?_positions (h.providers.sorted name) hmem hinstalled, hfirst, h.nodes]

/-- **Provider lookup follows the history**: in the graph after any run of additions and
preferences each name has one node, with the package of its first addition, and a lookup
finds the node of the name, or else that of the last preference, or else the earliest
provider, an installed one before others. -/
theorem depGraphLookup_history {ops : List GraphOp} {g : DepGraph} (h : graphAfter ops = some g) :
    g.nodes = historyNodes ops ∧ (g.nodes.map (·.name)).Nodup ∧
      (∀ nd ∈ g.nodes, firstAdded (ops.filterMap GraphOp.added) nd.name = some nd.pkg) ∧
      ∀ name, depGraphLookup g name = historyLookup ops name := by
  have hf := graphAfter_follows h
  have hfirst : ∀ nd ∈ g.nodes, firstAdded (ops.filterMap GraphOp.added) nd.name = some nd.pkg := by
    intro nd hnd
    rw [hf.nodes] at hnd
    exact (mem_nodesOfAdds hnd).2
  refine ⟨hf.nodes, hf.ok.find.nodup, hfirst, fun name => ?_⟩
  have hpref : prefTarget g name = (lastPreferred ops name).bind (nodeNamed (historyNodes ops)) := by
    unfold prefTarget
    rw [hf.prefs, funext hf.find]
  unfold depGraphLookup historyLookup
  rw [← hf.find, ← hpref]
  cases hfind : depGraphFind g name with
  | some i => rfl
  | none =>
    rw [Option.none_or, ← hf.provider hfind]
    cases prefTarget g name <;> rfl

/-- Two packages for one name, the second of which is marked later; a preference for a package
that is not there is passed over. -/
def mailers : List GraphOp :=
  [.add { name := some (cstr "exim"), provides := [some (cstr "mta")] },
    .add { name := some (cstr "postfix"), replaces := [some (cstr "mta")] },
    .prefer (cstr "mta") (cstr "sendmail"),
    .addInstalled { name := some (cstr "postfix") }]

/-- The marked one is found. -/
theorem depGraphLookup_history_mailers :
    ∃ g, graphAfter mailers = some g ∧ depGraphLookup g (cstr "mta") = historyLookup mailers (cstr "mta") ∧
      historyLookup mailers (cstr "mta") = some 1 := by
  have hrun : (graphAfter mailers).isSome := by decide
  obtain ⟨g, hg⟩ := Option.isSome_iff_exists.1 hrun
  exact ⟨g, hg, (depGraphLookup_history hg).2.2.2 (cstr "mta"), by decide⟩

end Apg
