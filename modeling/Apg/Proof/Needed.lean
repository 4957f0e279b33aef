import Apg.Proof.Prepare
import Apg.Proof.Shared

/-!
# The install steps of a plan

With the dependency check on, the install steps are the resolved order, less the
names that are installed and those that are queued as upgrades only
(`PrepareOK.installs_eq`).

* `transPrepare_installs_needed`: **the install steps are what the queued packages
  need**, each with the package the resolver saw under its name.
* `transPrepare_dependenciesFirst_iff`: **when the steps stand behind those that
  deliver what they depend on**: the upgrades are behind all installs, so no
  package installed may depend on one that is upgraded.
-/

namespace Apg

open Relation

variable {mem mem' : Heap} {db : Db} {trans t : ApgTrans} {g : DepGraph} {order : List CStr}
  {installs : List TransStep} {removals : List CStr}

/-! ## The steps, name by name -/

/-- The step of a name of the resolved order. -/
def neededStep (mem : Heap) (installed : List CStr) (trans : ApgTrans) (name : CStr) : Option TransStep :=
  if name ∈ installed then none
  else (firstQueued mem trans name).map fun p =>
    ⟨.install, name, (mem p).metadata.version, isExplicit mem trans name, some p⟩

theorem neededStep_name {installed : List CStr} {name : CStr} {step : TransStep}
    (h : neededStep mem installed trans name = some step) : step.pkgName = name := by
  unfold neededStep at h
  split at h
  · exact absurd h (by simp)
  · obtain ⟨p, -, rfl⟩ := Option.map_eq_some_iff.1 h
    rfl

theorem pushNeeded_eq {installed : List CStr} {name : CStr} (h : planHas trans name = false) :
    pushNeeded mem installed trans name =
      { trans with plan := trans.plan ++ (neededStep mem installed trans name).toList } := by
  unfold pushNeeded neededStep
  split
  · simp
  · rw [if_neg (by simp [h])]
    unfold firstQueued
    cases (findInstallPkg mem trans name).or (findCandidatePkg mem trans name) with
    | none => simp
    | some p => rfl

/-- Names that are all different never meet a step of their own. -/
theorem foldl_pushNeeded_eq (installed : List CStr) : ∀ (order : List CStr) (trans : ApgTrans), order.Nodup →
    (∀ n ∈ order, planHas trans n = false) →
    order.foldl (pushNeeded mem installed) trans =
      { trans with plan := trans.plan ++ order.filterMap (neededStep mem installed trans) } := by
  intro order
  induction order with
  | nil => intro trans _ _; simp
  | cons name order ih =>
    intro trans hnd hplan
    obtain ⟨hnot, hnd'⟩ := List.nodup_cons.1 hnd
    rw [List.foldl_cons, pushNeeded_eq (hplan name List.mem_cons_self)]
    have hrest : ∀ n ∈ order,
        planHas { trans with plan := trans.plan ++ (neededStep mem installed trans name).toList } n = false := by
      intro n hn
      rw [Bool.eq_false_iff, Ne, planHas_push]
      rintro (hhas | ⟨step, hstep, hsn⟩)
      · rw [hplan n (List.mem_cons_of_mem _ hn)] at hhas
        exact absurd hhas (by simp)
      · have hname := neededStep_name (Option.mem_toList.1 hstep)
        exact hnot (hname ▸ hsn ▸ hn)
    rw [ih _ hnd' hrest, List.append_assoc]
    have hcons : (name :: order).filterMap (neededStep mem installed trans) =
        (neededStep mem installed trans name).toList ++ order.filterMap (neededStep mem installed trans) := by
      rw [List.filterMap_cons]
      cases neededStep mem installed trans name with
      | none => rfl
      | some step => rfl
    rw [hcons]
    rfl

/-- **The install steps are the resolved order, name by name**, and that order is
topological. -/
theorem PrepareOK.installs_eq (hf : Fresh mem trans) (hskip : trans.skipDependencyCheck = false)
    (hp : PrepareOK mem db trans g order installs removals mem' t) :
    ∃ idxs, IsUnionOrder g (trans.installPkgs.map (heapName mem)) idxs ∧ (idxs.map (nodeName g)).Nodup ∧
      installs = (idxs.map (nodeName g)).filterMap (neededStep mem (installedNames db) trans) := by
  have hg := built_ok (transGraph_spec hp.graph).1
  have hresolved := hp.resolved hskip
  rcases resolve_both hg (trans.installPkgs.map (heapName mem)) with ⟨idxs, hpar, -, hunion⟩ | ⟨e, e', hpar, -⟩
  swap
  · rw [hresolved] at hpar
    exact absurd hpar (by simp)
  rw [hresolved, Option.some.injEq, Except.ok.injEq] at hpar
  have hnd : (idxs.map (nodeName g)).Nodup := by
    refine nodeName_nodup hg hunion.nodup ?_
    intro i hi
    obtain ⟨name, -, root, hl, hreach⟩ := (hunion.mem i).1 hi
    exact reach_lt hg hl hreach
  refine ⟨idxs, hunion, hnd, ?_⟩
  have hplanned := hp.planned
  unfold planInstalls at hplanned
  by_cases hnil : trans.installPkgs = []
  · -- nothing is queued, nothing is resolved
    rw [if_pos hnil, Option.some.injEq, Except.ok.injEq] at hplanned
    have hempty : order = [] := by
      rw [hnil] at hresolved
      simpa [depGraphResolveParallel] using hresolved.symm
    rw [← hpar, hempty]
    have := congrArg ApgTrans.plan hplanned
    rw [hf.plan] at this
    exact this.symm
  · rw [if_neg hnil, if_neg (by simp [hskip]), hresolved] at hplanned
    simp only [Option.some.injEq, Except.ok.injEq] at hplanned
    rw [hpar, foldl_pushNeeded_eq _ _ _ hnd (by simp [planHas, hf.plan])] at hplanned
    have := congrArg ApgTrans.plan hplanned
    rw [hf.plan] at this
    exact this.symm

/-! ## What is needed -/

/-- The install steps of a plan. -/
def installsOf (plan : List TransStep) : List TransStep := plan.filter fun s => s.op = .install

theorem PrepareOK.installsOf_plan (hp : PrepareOK mem db trans g order installs removals mem' t) :
    installsOf t.plan = installs := by
  have hinst : installsOf installs = installs := by
    refine List.filter_eq_self.2 fun s hs => ?_
    simpa using (hp.steps.sound s hs).1
  have hups : installsOf (trans.upgradePkgs.map (upgradeStep mem db)) = [] := by
    unfold installsOf
    rw [List.filter_eq_nil_iff]
    intro s hs
    obtain ⟨p, -, rfl⟩ := List.mem_map.1 hs
    simp [upgradeStep]
  have hrms : installsOf (removals.map removeStep) = [] := by
    unfold installsOf
    rw [List.filter_eq_nil_iff]
    intro s hs
    obtain ⟨n, -, rfl⟩ := List.mem_map.1 hs
    simp [removeStep]
  unfold installsOf at hinst hups hrms ⊢
  rw [hp.plan, List.filter_append, List.filter_append, hinst, hups, hrms, List.append_nil, List.append_nil]

theorem firstQueued_eq_find (n : CStr) :
    firstQueued mem trans n = findPkg mem (trans.installPkgs ++ trans.candidatePkgs) n := by
  unfold firstQueued findInstallPkg findCandidatePkg findPkg
  rw [List.find?_append]

theorem findPkg_isSome_iff {pkgs : List Ptr} {n : CStr} :
    (findPkg mem pkgs n).isSome ↔ ∃ p ∈ pkgs, (mem p).metadata.name = some n := by
  unfold findPkg
  simp [List.find?_isSome]

/-- **The install part of a plan is what the queued packages need.** The names of its
steps, each there once, are those in the closure of a queued package that are not
installed and have been queued for installation or as a candidate. A step has the
package that comes first under its name in the queues, which is the one the graph was
built from, and is explicit exactly if a queued installation has the name. -/
theorem transPrepare_installs_needed {collect : Ptr → Option (List CStr)} (hq : Queued mem trans)
    (hdb : Reachable (fun _ => True) db) (hskip : trans.skipDependencyCheck = false)
    (h : transPrepare collect mem db trans = some (.ok, mem', t)) :
    ∃ g, transGraph mem db trans = some g ∧ ((installsOf t.plan).map (·.pkgName)).Nodup ∧
      (∀ n, n ∈ (installsOf t.plan).map (·.pkgName) ↔
        NeededFrom g (trans.installPkgs.map (heapName mem)) n ∧ dbGet db n = none ∧
          ∃ p ∈ trans.installPkgs ++ trans.candidatePkgs, (mem p).metadata.name = some n) ∧
      ∀ step ∈ installsOf t.plan,
        (∃ p nd, step.pkg = some p ∧
          findPkg mem (trans.installPkgs ++ trans.candidatePkgs ++ trans.upgradePkgs) step.pkgName = some p ∧
          nd ∈ g.nodes ∧ nd.name = step.pkgName ∧ nd.pkg = (mem p).metadata) ∧
        (step.explicitOp = true ↔ ∃ p ∈ trans.installPkgs, (mem p).metadata.name = some step.pkgName) := by
  have hf := queued_fresh hq
  have hr := reachable_recordsOK hdb
  obtain ⟨g, order, installs, removals, hp⟩ := transPrepare_ok hf h
  obtain ⟨idxs, hunion, hnd, hinstalls⟩ := hp.installs_eq hf hskip
  have hg := built_ok (transGraph_spec hp.graph).1
  rw [hp.installsOf_plan]
  refine ⟨g, hp.graph, ?_, ?_, ?_⟩
  · -- the names are a part of the resolved order
    rw [hinstalls]
    refine List.Pairwise.map _ (fun _ _ hne => hne) ?_
    refine List.Pairwise.filterMap _ ?_ hnd
    intro n n' hne step hstep step' hstep' heq
    rw [neededStep_name hstep, neededStep_name hstep'] at heq
    exact hne heq
  · intro n
    have hwant : Wanted mem trans g n ↔ NeededFrom g (trans.installPkgs.map (heapName mem)) n := by
      unfold Wanted
      rw [if_neg (by simp [hskip])]
    have hrec : recorded db n = none ↔ dbGet db n = none := by simp [recorded]
    rw [← hwant, ← hrec, ← findPkg_isSome_iff, ← firstQueued_eq_find, List.mem_map]
    constructor
    · rintro ⟨step, hs, rfl⟩
      obtain ⟨-, -, -, p, -, hpkg⟩ := hp.steps.sound step hs
      obtain ⟨h1, h2, h3⟩ := (installs_iff hf hr hp _ p).1 ⟨step, hs, rfl, hpkg⟩
      exact ⟨h1, h2, by simp [h3]⟩
    · rintro ⟨h1, h2, h3⟩
      obtain ⟨p, hp3⟩ := Option.isSome_iff_exists.1 h3
      obtain ⟨step, hs, hn, -⟩ := (installs_iff hf hr hp n p).2 ⟨h1, h2, hp3⟩
      exact ⟨step, hs, hn⟩
  · intro step hs
    rw [hinstalls, List.mem_filterMap] at hs
    obtain ⟨n, hn, hstep⟩ := hs
    obtain ⟨i, hi, rfl⟩ := List.mem_map.1 hn
    unfold neededStep at hstep
    split at hstep
    · exact absurd hstep (by simp)
    obtain ⟨p, hfirst, rfl⟩ := Option.map_eq_some_iff.1 hstep
    obtain ⟨name, -, root, hl, hreach⟩ := (hunion.mem i).1 hi
    have hlt := reach_lt hg hl hreach
    have hname : nodeName g i = g.nodes[i].name := by simp [nodeName, hlt]
    refine ⟨⟨p, g.nodes[i], rfl, ?_, List.getElem_mem hlt, hname.symm, ?_⟩, ?_⟩
    · show findPkg mem (trans.installPkgs ++ trans.candidatePkgs ++ trans.upgradePkgs) (nodeName g i) = some p
      rw [firstQueued_eq_find] at hfirst
      unfold findPkg at hfirst ⊢
      rw [List.find?_append, hfirst, Option.some_or]
    · exact firstQueued_node (transGraph_spec hp.graph).2 (List.getElem_mem hlt) (hname ▸ hfirst)
    · show isExplicit mem trans (nodeName g i) = true ↔ _
      unfold isExplicit
      exact findPkg_isSome_iff

/-- `a` is queued, and the candidate `b` comes into the plan because `a` needs it. -/
theorem transPrepare_installs_needed_candidate :
    ∃ trans mem' t g, Queued needsB trans ∧
      transPrepare (fun _ => none) needsB (dbOpen true true) trans = some (.ok, mem', t) ∧
      transGraph needsB (dbOpen true true) trans = some g ∧
      t.plan.map (·.pkgName) = [cstr "b", cstr "a"] ∧ NeededFrom g (trans.installPkgs.map (heapName needsB)) (cstr "b") := by
  have hq : Queued needsB { installPkgs := [1], candidatePkgs := [2] } :=
    Queued.candidate 2 (Queued.install 1 Queued.new)
  have hrun : (transPrepare (fun _ => none) needsB (dbOpen true true) { installPkgs := [1], candidatePkgs := [2] }).map
      (fun r => (r.1, r.2.2.plan.map fun s => (s.pkgName, s.op))) =
        some (.ok, [(cstr "b", .install), (cstr "a", .install)]) := by decide
  obtain ⟨⟨err, mem', t⟩, h, hres⟩ := Option.map_eq_some_iff.1 hrun
  simp only [Prod.mk.injEq] at hres
  obtain ⟨rfl, hplan⟩ := hres
  obtain ⟨g, hg, -, hneeded, -⟩ := transPrepare_installs_needed hq (Reachable.new true true) rfl h
  have hnames : t.plan.map (·.pkgName) = [cstr "b", cstr "a"] := by
    simpa [Function.comp_def] using congrArg (List.map Prod.fst) hplan
  refine ⟨_, mem', t, g, hq, h, hg, hnames, ((hneeded (cstr "b")).1 ?_).1⟩
  have hb : (cstr "b", TransOp.install) ∈ t.plan.map fun s => (s.pkgName, s.op) := by rw [hplan]; simp
  obtain ⟨s, hs, hsb⟩ := List.mem_map.1 hb
  rw [Prod.mk.injEq] at hsb
  exact List.mem_map.2 ⟨s, List.mem_filter.2 ⟨hs, by simp [hsb.2]⟩, hsb.1⟩

/-! ## Dependencies first -/

/-- The package that `s` installs has a dependency which the resolver takes to the
package that `s'` delivers. -/
def NeedsStep (mem : Heap) (g : DepGraph) (s s' : TransStep) : Prop :=
  s.op = .install ∧ s'.op ≠ .remove ∧ ∃ p c k nd, s.pkg = some p ∧ c ∈ (mem p).metadata.dependencies ∧
    c.LeadsTo g k ∧ g.nodes[k]? = some nd ∧ nd.name = s'.pkgName

/-- **A package is installed after the other steps that deliver what it needs.** -/
def DependenciesFirst (mem : Heap) (g : DepGraph) (plan : List TransStep) : Prop :=
  ∀ (i j : ℕ) (s s' : TransStep), plan[i]? = some s → plan[j]? = some s' → i ≠ j → NeedsStep mem g s s' → j < i

/-- No node of a topological order depends on a later one. -/
theorem IsUnionOrder.pairwise {names : List CStr} {idxs : List ℕ} (h : IsUnionOrder g names idxs) :
    idxs.Pairwise fun a b => ¬DependsOn g a b := by
  rw [List.pairwise_iff_getElem]
  intro i j hi hj hij hdep
  obtain ⟨l₁, l₂, he, hbefore⟩ := h.after idxs[i] (List.getElem_mem hi)
  obtain ⟨k, hk, hkj⟩ := List.getElem_of_mem (hbefore _ hdep)
  -- the earlier one splits the list at its own place, the later one lies before that
  have hplace : idxs[l₁.length]? = idxs[i]? := by
    rw [List.getElem?_eq_getElem hi]
    generalize idxs[i] = a at he
    rw [he]
    simp
  have hlater : idxs[k]? = idxs[j]? := by
    rw [List.getElem?_eq_getElem hj, ← hkj, he, List.getElem?_append_left hk, List.getElem?_eq_getElem hk]
  have h1 := (List.getElem?_inj hi h.nodup).1 hplace.symm
  have h2 := (List.getElem?_inj hj h.nodup).1 hlater.symm
  omega

/-- No install step needs a later one. -/
theorem PrepareOK.installs_pairwise (hf : Fresh mem trans) (hskip : trans.skipDependencyCheck = false)
    (hp : PrepareOK mem db trans g order installs removals mem' t) :
    installs.Pairwise fun s s' => ¬NeedsStep mem' g s s' := by
  obtain ⟨idxs, hunion, -, hinstalls⟩ := hp.installs_eq hf hskip
  obtain ⟨hb, hnodes⟩ := transGraph_spec hp.graph
  have hg := built_ok hb
  have hlt : ∀ i ∈ idxs, i < g.nodes.length := by
    intro i hi
    obtain ⟨name, -, root, hl, hreach⟩ := (hunion.mem i).1 hi
    exact reach_lt hg hl hreach
  rw [hinstalls, List.filterMap_map, List.pairwise_filterMap]
  refine hunion.pairwise.imp_of_mem ?_
  intro a b ha hbmem hnot s hs s' hs' hneeds
  obtain ⟨-, -, p, c, k, nd, hpkg, hc, hleads, hnode, hname⟩ := hneeds
  have hlta := hlt a ha
  refine hnot ⟨g.nodes[a], List.getElem?_eq_getElem hlta, c, ?_, ?_⟩
  · -- the step has the package of the node
    have hna : nodeName g a = g.nodes[a].name := by simp [nodeName, hlta]
    simp only [Function.comp_apply, neededStep] at hs
    split at hs
    · exact absurd hs (by simp)
    obtain ⟨q, hq, rfl⟩ := Option.map_eq_some_iff.1 hs
    rw [Option.some.injEq] at hpkg
    subst hpkg
    rw [firstQueued_node hnodes (List.getElem_mem hlta) (hna ▸ hq), ← hp.metadata]
    exact hc
  · -- and the node it leads to is that of the other step
    have hk : k < g.nodes.length := (List.getElem?_eq_some_iff.1 hnode).1
    have hkb : nodeName g k = nodeName g b := by
      have hs'b := neededStep_name hs'
      rw [← hs'b, ← hname]
      simp [nodeName, hnode]
    rw [← nodeName_inj hg hk (hlt b hbmem) hkb]
    exact hleads

/-- A place of the plan is one of the installs, or holds an upgrade or a removal. -/
theorem PrepareOK.step_cases (hp : PrepareOK mem db trans g order installs removals mem' t) {i : ℕ} {s : TransStep}
    (hi : t.plan[i]? = some s) :
    installs[i]? = some s ∨ (∃ q ∈ trans.upgradePkgs, s = upgradeStep mem db q) ∨ s.op = .remove := by
  rw [hp.plan, List.append_assoc] at hi
  by_cases hlt : i < installs.length
  · rw [List.getElem?_append_left hlt] at hi
    exact Or.inl hi
  · right
    rw [List.getElem?_append_right (by omega)] at hi
    rcases List.mem_append.1 (List.mem_of_getElem? hi) with hm | hm
    · obtain ⟨q, hq, rfl⟩ := List.mem_map.1 hm
      exact Or.inl ⟨q, hq, rfl⟩
    · obtain ⟨n, -, rfl⟩ := List.mem_map.1 hm
      exact Or.inr rfl

/-- **When the steps of a plan stand behind those that deliver what they need**: no
package that is installed depends on one that is queued for an upgrade. -/
theorem transPrepare_dependenciesFirst_iff {collect : Ptr → Option (List CStr)} (hq : Queued mem trans)
    (hdb : Reachable (fun _ => True) db) (hskip : trans.skipDependencyCheck = false)
    (hg : transGraph mem db trans = some g) (h : transPrepare collect mem db trans = some (.ok, mem', t)) :
    DependenciesFirst mem' g t.plan ↔
      ∀ n p, PulledAt mem db trans g n p → ∀ c ∈ (mem p).metadata.dependencies, ∀ k nd, c.LeadsTo g k →
        g.nodes[k]? = some nd → nd.name ∉ trans.upgradePkgs.map (heapName mem) := by
  have hf := queued_fresh hq
  have hr := reachable_recordsOK hdb
  obtain ⟨g', order, installs, removals, hp⟩ := transPrepare_ok hf h
  have hgg := hp.graph
  rw [hg, Option.some.injEq] at hgg
  subst hgg
  constructor
  · intro hfirst n p hpull c hc k nd hleads hnode hup
    obtain ⟨step, hs, -, hpkg⟩ := (installs_iff hf hr hp n p).2 hpull
    obtain ⟨q, hqmem, hqname⟩ := List.mem_map.1 hup
    obtain ⟨i, hi⟩ := List.mem_iff_getElem?.1 hs
    obtain ⟨j, hj⟩ := List.mem_iff_getElem?.1 (List.mem_map_of_mem (f := upgradeStep mem db) hqmem)
    -- the upgrade stands behind all installs
    have hlt : i < installs.length := (List.getElem?_eq_some_iff.1 hi).1
    have hltj : j < (trans.upgradePkgs.map (upgradeStep mem db)).length := (List.getElem?_eq_some_iff.1 hj).1
    rw [DependenciesFirst, hp.plan, List.append_assoc] at hfirst
    have hbefore := hfirst i (installs.length + j) step (upgradeStep mem db q)
      (by rw [List.getElem?_append_left hlt]; exact hi)
      (by rw [List.getElem?_append_right (by omega), Nat.add_sub_cancel_left, List.getElem?_append_left hltj]; exact hj)
      (by omega)
      ⟨(hp.steps.sound step hs).1, by simp [upgradeStep], p, c, k, nd, hpkg, by rw [hp.metadata]; exact hc, hleads, hnode,
        by rw [← hqname]; rfl⟩
    omega
  · intro hcond i j s s' hi hj hne hneeds
    obtain ⟨hop, hop', p, c, k, nd, hpkg, hc, hleads, hnode, hname⟩ := id hneeds
    obtain hi | ⟨q, -, rfl⟩ | hrm := hp.step_cases hi
    · obtain hj | ⟨q, hqmem, rfl⟩ | hrm := hp.step_cases hj
      · by_contra hnot
        obtain ⟨hilt, hsi⟩ := List.getElem?_eq_some_iff.1 hi
        obtain ⟨hjlt, hsj⟩ := List.getElem?_eq_some_iff.1 hj
        refine List.pairwise_iff_getElem.1 (hp.installs_pairwise hf hskip) i j hilt hjlt (by omega) ?_
        rw [hsi, hsj]
        exact hneeds
      · -- it would need an upgrade
        have hpull := (installs_iff hf hr hp _ p).1 ⟨s, List.mem_of_getElem? hi, rfl, hpkg⟩
        refine absurd ?_ (hcond _ p hpull c (by rw [← hp.metadata]; exact hc) k nd hleads hnode)
        rw [hname]
        exact List.mem_map_of_mem hqmem
      · exact absurd hrm hop'
    · exact absurd hop (by simp [upgradeStep])
    · rw [hrm] at hop
      exact absurd hop (by simp)

/-- `a` needs `b`, and nothing is upgraded. -/
theorem transPrepare_dependenciesFirst_candidate :
    ∃ trans mem' t g, Queued needsB trans ∧ transGraph needsB (dbOpen true true) trans = some g ∧
      transPrepare (fun _ => none) needsB (dbOpen true true) trans = some (.ok, mem', t) ∧
      t.plan.map (·.pkgName) = [cstr "b", cstr "a"] ∧ DependenciesFirst mem' g t.plan := by
  have hq : Queued needsB { installPkgs := [1], candidatePkgs := [2] } :=
    Queued.candidate 2 (Queued.install 1 Queued.new)
  have hrun : (transPrepare (fun _ => none) needsB (dbOpen true true) { installPkgs := [1], candidatePkgs := [2] }).map
      (fun r => (r.1, r.2.2.plan.map (·.pkgName))) = some (.ok, [cstr "b", cstr "a"]) := by decide
  obtain ⟨⟨err, mem', t⟩, h, hres⟩ := Option.map_eq_some_iff.1 hrun
  simp only [Prod.mk.injEq] at hres
  obtain ⟨rfl, hplan⟩ := hres
  obtain ⟨g, order, installs, removals, hp⟩ := transPrepare_ok (queued_fresh hq) h
  refine ⟨_, mem', t, g, hq, hp.graph, h, hplan, ?_⟩
  refine (transPrepare_dependenciesFirst_iff hq (Reachable.new true true) rfl hp.graph h).2 ?_
  rintro n p - c - k nd - -
  simp

/-- `a` needs `b`, which is installed and upgraded in the same transaction: `a` is
installed first. -/
theorem transPrepare_dependenciesFirst_upgraded :
    ∃ db trans mem' t g, Reachable (fun _ => True) db ∧ Queued needsB trans ∧ trans.skipDependencyCheck = false ∧
      transGraph needsB db trans = some g ∧
      transPrepare (fun _ => none) needsB db trans = some (.ok, mem', t) ∧
      t.plan = [⟨.install, cstr "a", none, true, some 1⟩, ⟨.upgrade, cstr "b", none, false, some 2⟩] ∧
      ¬DependenciesFirst mem' g t.plan := by
  have hq : Queued needsB { installPkgs := [1], upgradePkgs := [2] } := Queued.upgrade 2 (Queued.install 1 Queued.new)
  have hrun : ((dbAdd (fun _ => .success) (dbOpen true true) (bare "b" [])).bind fun r =>
      (transGraph needsB r.2 { installPkgs := [1], upgradePkgs := [2] }).bind fun g =>
        (transPrepare (fun _ => none) needsB r.2 { installPkgs := [1], upgradePkgs := [2] }).map
          fun s => ((r.1, s.1), s.2.2.plan, (depGraphLookup g (cstr "b")).map (nodeName g))) =
      some ((true, .ok), [⟨.install, cstr "a", none, true, some 1⟩, ⟨.upgrade, cstr "b", none, false, some 2⟩],
        some (cstr "b")) := by decide
  obtain ⟨⟨ok, db⟩, hadd, hrest⟩ := Option.bind_eq_some_iff.1 hrun
  obtain ⟨g, hg, hprep⟩ := Option.bind_eq_some_iff.1 hrest
  obtain ⟨⟨err, mem', t⟩, h, hres⟩ := Option.map_eq_some_iff.1 hprep
  simp only [Prod.mk.injEq] at hres
  obtain ⟨⟨rfl, rfl⟩, hplan, hlookup⟩ := hres
  obtain ⟨k, hk, hkname⟩ := Option.map_eq_some_iff.1 hlookup
  obtain ⟨g', order, installs, removals, hp⟩ := transPrepare_ok (queued_fresh hq) h
  have hlt : k < g.nodes.length := depGraphLookup_lt (built_ok (transGraph_spec hg).1) hk
  refine ⟨db, _, mem', t, g, Reachable.add _ (Reachable.new true true) trivial hadd, hq, rfl, hg, h, hplan, ?_⟩
  intro hfirst
  rw [hplan] at hfirst
  have hneeds : NeedsStep mem' g ⟨.install, cstr "a", none, true, some 1⟩ ⟨.upgrade, cstr "b", none, false, some 2⟩ := by
    refine ⟨rfl, by simp, 1, ⟨some (cstr "b"), .any, none⟩, k, g.nodes[k], rfl, ?_, ⟨cstr "b", rfl, hk⟩,
      List.getElem?_eq_getElem hlt, ?_⟩
    · rw [hp.metadata]
      simp [needsB]
    · rw [← hkname]
      simp [nodeName, hlt]
  have := hfirst 0 1 _ _ rfl rfl (by omega) hneeds
  omega

end Apg
