import Apg.Proof.StrMap
import Apg.Spec.Graph

/-!
# What a dependency graph holds

`GraphOK` is the invariant of every built graph (`built_ok`): the two maps index
the nodes and the alias groups, and every provider of an alias declares it.

* `depGraphLookup_some`: **a lookup lands on a node that answers to the name**,
  by its own name, by a preference or by an alias it declares.
-/

namespace Apg

/-- The package declares the name as an alias. -/
def Metadata.Declares (p : Metadata) (a : CStr) : Prop := some a ∈ p.provides ∨ some a ∈ p.replaces

/-- The invariant of a built graph. -/
structure GraphOK (g : DepGraph) : Prop where
  nodeMap : g.nodeMap.OK
  aliasMap : g.aliasMap.OK
  find : Indexes g.nodeMap (g.nodes.map (·.name))
  group : Indexes g.aliasMap (g.aliasGroups.map (·.aliasName))
  named : ∀ nd ∈ g.nodes, nd.pkg.name = some nd.name
  declared : ∀ gr ∈ g.aliasGroups, ∀ i ∈ gr.providers,
    ∃ nd, g.nodes[i]? = some nd ∧ nd.pkg.Declares gr.aliasName

variable {g g' : DepGraph}

theorem depGraphNew_ok : GraphOK depGraphNew :=
  ⟨strMapInit_ok, strMapInit_ok, indexes_init, indexes_init, by simp [depGraphNew], by simp [depGraphNew]⟩

theorem depGraphPrefer_ok (h : GraphOK g) (a p : CStr) : GraphOK (depGraphPrefer g a p) :=
  ⟨h.nodeMap, h.aliasMap, h.find, h.group, h.named, h.declared⟩

theorem mem_modify {α : Type*} {u : α → α} {l : List α} {i : ℕ} {y : α} (h : y ∈ l.modify i u) :
    y ∈ l ∨ ∃ x, l[i]? = some x ∧ y = u x := by
  obtain ⟨k, hk⟩ := List.mem_iff_getElem?.1 h
  rw [List.getElem?_modify] at hk
  obtain ⟨x, hx, hxy⟩ := Option.map_eq_some_iff.1 hk
  by_cases hik : i = k
  · subst hik
    rw [if_pos rfl] at hxy
    exact Or.inr ⟨x, hx, hxy.symm⟩
  · rw [if_neg hik] at hxy
    have hxy' : x = y := hxy
    rw [← hxy']
    exact Or.inl (List.mem_of_getElem? hx)

/-! ## Aliases -/

@[simp] theorem addAlias_nodes (a : CStr) (i : ℕ) : (addAlias g a i).nodes = g.nodes := by
  unfold addAlias; split <;> rfl

@[simp] theorem addAlias_nodeMap (a : CStr) (i : ℕ) : (addAlias g a i).nodeMap = g.nodeMap := by
  unfold addAlias; split <;> rfl

@[simp] theorem addAlias_prefs (a : CStr) (i : ℕ) : (addAlias g a i).prefs = g.prefs := by
  unfold addAlias; split <;> rfl

theorem addAlias_ok (h : GraphOK g) {a : CStr} {i : ℕ}
    (hi : ∃ nd, g.nodes[i]? = some nd ∧ nd.pkg.Declares a) : GraphOK (addAlias g a i) := by
  unfold addAlias
  split
  · rename_i j ha
    refine ⟨h.nodeMap, h.aliasMap, h.find, ?_, h.named, ?_⟩
    · -- appending a provider renames no group
      have hnames := map_modify_eq (f := AliasGroup.aliasName)
        (u := fun a => { a with providers := a.providers ++ [i] }) (fun _ => rfl) g.aliasGroups j
      simp only
      rw [hnames]; exact h.group
    · intro gr hgr x hx
      rcases mem_modify hgr with hgr | ⟨gr₀, hj, rfl⟩
      · exact h.declared gr hgr x hx
      · rcases List.mem_append.1 hx with hx | hx
        · exact h.declared gr₀ (List.mem_of_getElem? hj) x hx
        -- the group that got the new provider is that of `a`
        · have hname : gr₀.aliasName = a := by
            have := (h.group a j).1 ha
            simpa [hj] using this
          rw [List.mem_singleton.1 hx, hname]; exact hi
  · rename_i ha
    refine ⟨h.nodeMap, strMapSet_ok h.aliasMap _ _, h.find, ?_, h.named, ?_⟩
    · have := indexes_concat h.aliasMap h.group ha
      simpa using this
    · intro gr hgr x hx
      rcases List.mem_append.1 hgr with hgr | hgr
      · exact h.declared gr hgr x hx
      · rw [List.mem_singleton.1 hgr] at hx ⊢
        rw [List.mem_singleton.1 hx]; exact hi

/-- What registering aliases leaves alone. -/
def SameNodes (g g' : DepGraph) : Prop := g'.nodes = g.nodes ∧ g'.nodeMap = g.nodeMap ∧ g'.prefs = g.prefs

/-- What registering the aliases `as` of node `idx` does. -/
def Registers (idx : ℕ) (as : List (Option CStr)) (g g' : DepGraph) : Prop :=
  SameNodes g g' ∧
    (GraphOK g → (∃ nd, g.nodes[idx]? = some nd ∧ ∀ a, some a ∈ as → nd.pkg.Declares a) → GraphOK g')

theorem addAlias_registers (g : DepGraph) (a : CStr) (idx : ℕ) : Registers idx [some a] g (addAlias g a idx) := by
  refine ⟨⟨addAlias_nodes a idx, addAlias_nodeMap a idx, addAlias_prefs a idx⟩, ?_⟩
  rintro hg ⟨nd, hnd, hall⟩
  exact addAlias_ok hg ⟨nd, hnd, hall a (by simp)⟩

theorem Registers.cons {idx : ℕ} {a : CStr} {as : List (Option CStr)} {g₁ g₂ g₃ : DepGraph}
    (h : Registers idx [some a] g₁ g₂) (h' : Registers idx as g₂ g₃) : Registers idx (some a :: as) g₁ g₃ := by
  obtain ⟨⟨h1, h2, h3⟩, hok⟩ := h
  obtain ⟨⟨k1, k2, k3⟩, hok'⟩ := h'
  refine ⟨⟨k1.trans h1, k2.trans h2, k3.trans h3⟩, ?_⟩
  rintro hg ⟨nd, hnd, hall⟩
  have hfirst : GraphOK g₂ :=
    hok hg ⟨nd, hnd, fun b hb => hall b (List.mem_cons.2 (Or.inl (List.mem_singleton.1 hb)))⟩
  exact hok' hfirst ⟨nd, h1 ▸ hnd, fun b hb => hall b (List.mem_cons_of_mem _ hb)⟩

theorem addProvides_spec {idx : ℕ} : ∀ (as : List (Option CStr)) {g g' : DepGraph},
    addProvides idx as g = some g' → Registers idx as g g' := by
  intro as
  induction as with
  | nil =>
    intro g g' h
    simp only [addProvides, Option.some.injEq] at h
    subst h
    exact ⟨⟨rfl, rfl, rfl⟩, fun h _ => h⟩
  | cons o as ih =>
    intro g g' h
    cases o with
    | none => simp [addProvides] at h
    | some a => exact (addAlias_registers g a idx).cons (ih h)

theorem addReplaces_spec {idx : ℕ} : ∀ (as : List (Option CStr)) {g g' : DepGraph},
    addReplaces idx as g = some g' → Registers idx as g g' := by
  intro as
  induction as with
  | nil =>
    intro g g' h
    simp only [addReplaces, Option.some.injEq] at h
    subst h
    exact ⟨⟨rfl, rfl, rfl⟩, fun h _ => h⟩
  | cons o as ih =>
    intro g g' h
    cases o with
    | none => simp [addReplaces] at h
    | some a =>
      have hrest := ih h
      -- the alias is skipped where a node has its name
      split at hrest
      · exact (addAlias_registers g a idx).cons hrest
      · exact Registers.cons ⟨⟨rfl, rfl, rfl⟩, fun h _ => h⟩ hrest

/-! ## Nodes -/

/-- What `add_node` can do: fail without a name, mark a known node as installed,
or append a new node and register its aliases. -/
theorem addNode_cases {pkg : Metadata} {inst : Bool} {e : DepError} (h : addNode g pkg inst = some (e, g')) :
    (pkg.name = none ∧ e = .nomem ∧ g' = g) ∨
    (∃ name idx, pkg.name = some name ∧ depGraphFind g name = some idx ∧ e = .ok ∧
      g' = { g with nodes := g.nodes.modify idx fun n => { n with installed := n.installed || inst } }) ∨
    (∃ name g₁, pkg.name = some name ∧ depGraphFind g name = none ∧ e = .ok ∧
      addProvides g.nodes.length pkg.provides
        { g with nodes := g.nodes ++ [⟨name, pkg, inst⟩]
                 nodeMap := strMapSet g.nodeMap name g.nodes.length } = some g₁ ∧
      addReplaces g.nodes.length pkg.replaces g₁ = some g') := by
  unfold addNode at h
  cases hn : pkg.name with
  | none =>
    rw [hn] at h
    simp only [Option.some.injEq, Prod.mk.injEq] at h
    exact Or.inl ⟨rfl, h.1.symm, h.2.symm⟩
  | some name =>
    rw [hn] at h
    simp only at h
    cases hf : depGraphFind g name with
    | some idx =>
      refine Or.inr (Or.inl ⟨name, idx, rfl, hf, ?_⟩)
      rw [hf] at h
      cases inst with
      | true =>
        simp only [if_true, Option.some.injEq, Prod.mk.injEq] at h
        exact ⟨h.1.symm, by simp [← h.2]⟩
      | false =>
        simp only [Bool.false_eq_true, if_false, Option.some.injEq, Prod.mk.injEq] at h
        refine ⟨h.1.symm, ?_⟩
        -- without the flag the node stays as it is
        have hid : (fun n : DepNode => { n with installed := n.installed || false }) = id := by
          funext n; simp
        rw [hid, List.modify_id]; exact h.2.symm
    | none =>
      refine Or.inr (Or.inr ⟨name, ?_⟩)
      rw [hf] at h
      simp only [Option.map_eq_some_iff, Option.bind_eq_some_iff, Prod.mk.injEq] at h
      obtain ⟨g₂, ⟨g₁, h1, h2⟩, rfl, rfl⟩ := h
      exact ⟨g₁, rfl, hf, rfl, h1, h2⟩

/-- The graph with one more node, before its aliases are registered. -/
theorem append_ok (h : GraphOK g) {pkg : Metadata} {name : CStr} (inst : Bool) (hn : pkg.name = some name)
    (hf : depGraphFind g name = none) :
    GraphOK { g with nodes := g.nodes ++ [⟨name, pkg, inst⟩]
                     nodeMap := strMapSet g.nodeMap name g.nodes.length } := by
  refine ⟨strMapSet_ok h.nodeMap _ _, h.aliasMap, ?_, h.group, ?_, ?_⟩
  · have := indexes_concat h.nodeMap h.find hf
    simpa using this
  · intro nd hnd
    rcases List.mem_append.1 hnd with hnd | hnd
    · exact h.named nd hnd
    · rw [List.mem_singleton.1 hnd]; exact hn
  · intro gr hgr i hi
    obtain ⟨nd, h1, h2⟩ := h.declared gr hgr i hi
    exact ⟨nd, (getElem?_concat_iff _ _ _ _).2 (Or.inl h1), h2⟩

theorem mark_ok (h : GraphOK g) (idx : ℕ) (inst : Bool) :
    GraphOK { g with nodes := g.nodes.modify idx fun n => { n with installed := n.installed || inst } } := by
  refine ⟨h.nodeMap, h.aliasMap, ?_, h.group, ?_, ?_⟩
  · have hnames := map_modify_eq (f := DepNode.name)
      (u := fun n => { n with installed := n.installed || inst }) (fun _ => rfl) g.nodes idx
    simp only
    rw [hnames]; exact h.find
  · intro nd hnd
    rcases mem_modify hnd with hnd | ⟨nd₀, hi, rfl⟩
    · exact h.named nd hnd
    · exact h.named nd₀ (List.mem_of_getElem? hi)
  · intro gr hgr i hi
    obtain ⟨nd, h1, h2⟩ := h.declared gr hgr i hi
    by_cases hidx : idx = i
    · subst hidx; exact ⟨{ nd with installed := nd.installed || inst }, by simp [h1], h2⟩
    · exact ⟨nd, by simp [hidx, h1], h2⟩

theorem addNode_ok (h : GraphOK g) {pkg : Metadata} {inst : Bool} {e : DepError}
    (ha : addNode g pkg inst = some (e, g')) : GraphOK g' := by
  obtain ⟨-, -, rfl⟩ | ⟨name, idx, -, -, -, rfl⟩ | ⟨name, g₁, hn, hf, -, h1, h2⟩ := addNode_cases ha
  · exact h
  · exact mark_ok h idx inst
  · obtain ⟨⟨hnodes, -, -⟩, hok⟩ := addProvides_spec _ h1
    obtain ⟨-, hok'⟩ := addReplaces_spec _ h2
    have hnew : (g.nodes ++ [⟨name, pkg, inst⟩])[g.nodes.length]? = some ⟨name, pkg, inst⟩ := by simp
    refine hok' (hok (append_ok h inst hn hf) ⟨_, hnew, fun a ha => Or.inl ha⟩) ?_
    rw [hnodes]
    exact ⟨_, hnew, fun a ha => Or.inr ha⟩

theorem built_ok (h : Built g) : GraphOK g := by
  induction h with
  | new => exact depGraphNew_ok
  | add _ ha ih => exact addNode_ok ih ha
  | addInstalled _ ha ih => exact addNode_ok ih ha
  | prefer a p _ ih => exact depGraphPrefer_ok ih a p

theorem addNodes_built {inst : Bool} : ∀ (pkgs : List Metadata) {g g' : DepGraph}, Built g →
    addNodes inst pkgs g = some g' → Built g' := by
  intro pkgs
  induction pkgs with
  | nil =>
    intro g g' hb h
    simp only [addNodes, Option.some.injEq] at h
    rw [← h]; exact hb
  | cons pkg pkgs ih =>
    intro g g' hb h
    simp only [addNodes] at h
    split at h
    · exact absurd h (by simp)
    · rename_i e g₁ h1
      refine ih ?_ h
      cases inst with
      | true => exact Built.addInstalled hb h1
      | false => exact Built.add hb h1

/-! ## Lookup -/

theorem depGraphFind_iff (h : GraphOK g) {name : CStr} {i : ℕ} :
    depGraphFind g name = some i ↔ ∃ nd, g.nodes[i]? = some nd ∧ nd.name = name := by
  refine (h.find name i).trans ?_
  rw [List.getElem?_map, Option.map_eq_some_iff]

theorem pickProvider_mem {ps : List ℕ} {i : ℕ} (h : pickProvider g ps = some i) : i ∈ ps := by
  unfold pickProvider at h
  rcases Option.or_eq_some_iff.1 h with h | ⟨-, h⟩
  · exact List.mem_of_find?_eq_some h
  · exact List.mem_of_mem_head? h

/-- **A lookup lands on a node that answers to the name**: the node of that name,
the preferred package for it, or a node that declares it as an alias. -/
theorem depGraphLookup_some (h : GraphOK g) {name : CStr} {i : ℕ} (hl : depGraphLookup g name = some i) :
    ∃ nd, g.nodes[i]? = some nd ∧
      (nd.name = name ∨ depGraphFind g name = none ∧
        (g.prefs.lookup name = some nd.name ∨ nd.pkg.Declares name)) := by
  unfold depGraphLookup at hl
  cases hf : depGraphFind g name with
  | some j =>
    rw [hf] at hl
    simp only [Option.some.injEq] at hl
    subst hl
    obtain ⟨nd, h1, h2⟩ := (depGraphFind_iff h).1 hf
    exact ⟨nd, h1, Or.inl h2⟩
  | none =>
    rw [hf] at hl
    simp only at hl
    split at hl
    · rename_i j hp
      simp only [Option.some.injEq] at hl
      subst hl
      obtain ⟨p, hp1, hp2⟩ := Option.bind_eq_some_iff.1 hp
      obtain ⟨nd, h1, h2⟩ := (depGraphFind_iff h).1 hp2
      exact ⟨nd, h1, Or.inr ⟨rfl, Or.inl (by rw [hp1, h2])⟩⟩
    · unfold aliasTarget at hl
      split at hl
      · exact absurd hl (by simp)
      · rename_i j hj
        obtain ⟨gr, hgr, hpick⟩ := Option.bind_eq_some_iff.1 hl
        obtain ⟨nd, h1, h2⟩ := h.declared gr (List.mem_of_getElem? hgr) i (pickProvider_mem hpick)
        have hname : gr.aliasName = name := by
          have := (h.group name j).1 hj
          simpa [hgr] using this
        exact ⟨nd, h1, Or.inr ⟨rfl, Or.inr (hname ▸ h2)⟩⟩

theorem depGraphLookup_of_find {name : CStr} {i : ℕ} (hf : depGraphFind g name = some i) :
    depGraphLookup g name = some i := by
  unfold depGraphLookup; rw [hf]

theorem depGraphLookup_lt (h : GraphOK g) {name : CStr} {i : ℕ} (hl : depGraphLookup g name = some i) :
    i < g.nodes.length := by
  obtain ⟨nd, hnd, -⟩ := depGraphLookup_some h hl
  exact (List.getElem?_eq_some_iff.1 hnd).1

/-! ## Whose metadata a node has -/

/-- The nodes are the packages of the list, each name with the first package that
has it. -/
def NodesOf (g : DepGraph) (pkgs : List Metadata) : Prop :=
  ∀ n m, (∃ nd ∈ g.nodes, nd.name = n ∧ nd.pkg = m) ↔ pkgs.find? (fun p => p.name = some n) = some m

theorem nodesOf_new : NodesOf depGraphNew [] := by
  intro n m
  simp [depGraphNew]

/-- Marking a node changes nobody's metadata. -/
theorem mem_mark {inst : Bool} {idx : ℕ} {n : CStr} {m : Metadata} :
    (∃ nd ∈ g.nodes.modify idx (fun nd => { nd with installed := nd.installed || inst }), nd.name = n ∧ nd.pkg = m) ↔
      ∃ nd ∈ g.nodes, nd.name = n ∧ nd.pkg = m := by
  have hmap := map_modify_eq (f := fun nd : DepNode => (nd.name, nd.pkg))
    (u := fun nd => { nd with installed := nd.installed || inst }) (fun _ => rfl) g.nodes idx
  have hmem : ∀ l : List DepNode, (∃ nd ∈ l, nd.name = n ∧ nd.pkg = m) ↔ (n, m) ∈ l.map fun nd => (nd.name, nd.pkg) := by
    intro l
    simp [List.mem_map]
  rw [hmem, hmem, hmap]

/-- A later package of a name is not looked at, and one without a name is no
node. -/
theorem addNode_nodesOf (hg : GraphOK g) {pkgs : List Metadata} (h : NodesOf g pkgs) {pkg : Metadata} {inst : Bool}
    {e : DepError} (ha : addNode g pkg inst = some (e, g')) : NodesOf g' (pkgs ++ [pkg]) := by
  intro n m
  rw [List.find?_append]
  obtain ⟨hn, -, rfl⟩ | ⟨name, idx, hn, hf, -, rfl⟩ | ⟨name, g₁, hn, hf, -, h1, h2⟩ := addNode_cases ha
  · rw [h n m]
    simp [hn]
  · rw [mem_mark, h n m]
    by_cases hname : name = n
    · -- the name is taken
      obtain ⟨nd, hnd, hndn⟩ := (depGraphFind_iff hg).1 hf
      have := (h n nd.pkg).1 ⟨nd, List.mem_of_getElem? hnd, hndn.trans hname, rfl⟩
      simp [this]
    · simp [hn, hname]
  · obtain ⟨⟨hnodes, -, -⟩, -⟩ := addProvides_spec _ h1
    obtain ⟨⟨hnodes', -, -⟩, -⟩ := addReplaces_spec _ h2
    rw [hnodes', hnodes]
    simp only [List.mem_append, List.mem_singleton]
    by_cases hname : name = n
    · subst hname
      -- a package of that name would already have made a node
      have hnew : pkgs.find? (fun p => p.name = some name) = none := by
        by_contra hsome
        obtain ⟨m', hm'⟩ := Option.ne_none_iff_exists'.1 hsome
        obtain ⟨nd, hnd, hndn, -⟩ := (h name m').2 hm'
        obtain ⟨i, hi⟩ := List.getElem?_of_mem hnd
        rw [(depGraphFind_iff hg).2 ⟨nd, hi, hndn⟩] at hf
        exact absurd hf (by simp)
      have hold : ¬∃ nd ∈ g.nodes, nd.name = name ∧ nd.pkg = m := by
        rw [h name m, hnew]; simp
      rw [hnew]
      simp only [Option.none_or, List.find?_cons, hn, decide_true, Option.some.injEq]
      constructor
      · rintro ⟨nd, hnd | rfl, h3, h4⟩
        · exact absurd ⟨nd, hnd, h3, h4⟩ hold
        · exact h4
      · rintro rfl
        exact ⟨_, Or.inr rfl, rfl, rfl⟩
    · have hskip : ([pkg].find? fun p => p.name = some n) = none := by simp [hn, hname]
      rw [hskip, Option.or_none, ← h n m]
      constructor
      · rintro ⟨nd, hnd | rfl, h3, h4⟩
        · exact ⟨nd, hnd, h3, h4⟩
        · exact absurd h3 hname
      · rintro ⟨nd, hnd, h3, h4⟩
        exact ⟨nd, Or.inl hnd, h3, h4⟩

theorem addNodes_nodesOf {inst : Bool} : ∀ (pkgs : List Metadata) {g g' : DepGraph} {before : List Metadata},
    GraphOK g → NodesOf g before → addNodes inst pkgs g = some g' → NodesOf g' (before ++ pkgs) := by
  intro pkgs
  induction pkgs with
  | nil =>
    intro g g' before _ h ha
    simp only [addNodes, Option.some.injEq] at ha
    rw [← ha, List.append_nil]; exact h
  | cons pkg pkgs ih =>
    intro g g' before hg h ha
    simp only [addNodes] at ha
    split at ha
    · exact absurd ha (by simp)
    · rename_i e g₁ h1
      have := ih (addNode_ok hg h1) (addNode_nodesOf hg h h1) ha
      rwa [List.append_assoc, List.singleton_append] at this

end Apg
