import Apg.Proof.Db
import Apg.Proof.Phases

/-!
# `trans_prepare` and dependencies

The packages that are there after a prepared plan are known from the queue and
the database alone (`applyPlanAs_iff`): the last upgrade of a name, else its record,
else what the resolver pulls in, less the removals. The resolver looks at the
first package of a name instead, so what it picked can be lost.

* `transPrepare_dependencySound_iff`: **a prepared plan is sound exactly when
  every dependency whose pick is lost has another provider.**
-/

namespace Apg

variable {mem : Heap} {db : Db} {trans : ApgTrans}

/-! ## Steps and the set of packages -/

section

variable {α : Type*} {shows : Package → α}

theorem applyPlanAs_append (plan plan' : List TransStep) (s : CStr → Option α) :
    applyPlanAs shows mem (plan ++ plan') s = applyPlanAs shows mem plan' (applyPlanAs shows mem plan s) :=
  List.foldl_append

/-- A name no step is about keeps its package. -/
theorem applyPlanAs_other {n : CStr} : ∀ {plan : List TransStep} {s : CStr → Option α},
    (∀ step ∈ plan, step.pkgName ≠ n) → applyPlanAs shows mem plan s n = s n := by
  intro plan
  induction plan with
  | nil => intro s _; rfl
  | cons step plan ih =>
    intro s h
    have hstep : n ≠ step.pkgName := fun hn => h step List.mem_cons_self hn.symm
    have hrest := ih (s := Function.update s step.pkgName (stepAs shows mem step))
      fun st hst => h st (List.mem_cons_of_mem _ hst)
    unfold applyPlanAs at hrest ⊢
    rw [List.foldl_cons, hrest, Function.update_of_ne hstep]

/-- A name whose steps all leave the same has that, if there are any. -/
theorem applyPlanAs_same {n : CStr} {r : Option α} : ∀ {plan : List TransStep} {s : CStr → Option α},
    (∀ step ∈ plan, step.pkgName = n → stepAs shows mem step = r) → (∃ step ∈ plan, step.pkgName = n) →
    applyPlanAs shows mem plan s n = r := by
  intro plan
  induction plan with
  | nil => intro s _ h; simp at h
  | cons step plan ih =>
    intro s h hex
    have hrest : ∀ st ∈ plan, st.pkgName = n → stepAs shows mem st = r :=
      fun st hst => h st (List.mem_cons_of_mem _ hst)
    by_cases hlater : ∃ st ∈ plan, st.pkgName = n
    · exact ih hrest hlater
    · have hn : step.pkgName = n := by
        obtain ⟨st, hst, hstn⟩ := hex
        rcases List.mem_cons.1 hst with rfl | hst
        · exact hstn
        · exact absurd ⟨st, hst, hstn⟩ hlater
      have hstep : applyPlanAs shows mem (step :: plan) s =
        applyPlanAs shows mem plan (Function.update s step.pkgName (stepAs shows mem step)) := rfl
      rw [hstep, applyPlanAs_other fun st hst hstn => hlater ⟨st, hst, hstn⟩, ← h step List.mem_cons_self hn, ← hn,
        Function.update_self]

end

/-- The last package queued as an upgrade of the name. -/
def lastUpgrade (mem : Heap) (trans : ApgTrans) (n : CStr) : Option Ptr := findPkg mem trans.upgradePkgs.reverse n

theorem applyPlanAs_upgrades {α : Type*} {shows : Package → α} {mem' : Heap}
    (hsame : ∀ q, shows (mem' q) = shows (mem q)) (s : CStr → Option α) (n : CStr) :
    ∀ {pkgs : List Ptr}, (∀ p ∈ pkgs, (mem p).metadata.name ≠ none) →
    applyPlanAs shows mem' (pkgs.map (upgradeStep mem db)) s n =
      ((findPkg mem pkgs.reverse n).map fun p => shows (mem p)).or (s n) := by
  intro pkgs
  induction pkgs using List.reverseRecOn with
  | nil => intro _; rfl
  | append_singleton pkgs p ih =>
    intro hnamed
    have hname := name_of_ne_none (hnamed p (by simp))
    have hstep : stepAs shows mem' (upgradeStep mem db p) = some (shows (mem p)) := by
      simp [stepAs, upgradeStep, hsame]
    rw [List.map_append, applyPlanAs_append, List.reverse_append]
    simp only [List.map_cons, List.map_nil, List.reverse_singleton, List.singleton_append, findPkg, List.find?_cons]
    by_cases hn : (mem p).metadata.name = some n
    · have hstepn : (upgradeStep mem db p).pkgName = n := by simp [upgradeStep, heapName, hn]
      rw [applyPlanAs_same (r := some (shows (mem p))) (by simpa using fun _ => hstep)
        ⟨_, List.mem_singleton_self _, hstepn⟩]
      simp [hn]
    · have hstepn : (upgradeStep mem db p).pkgName ≠ n := by
        intro h
        exact hn (hname.trans (congrArg some h))
      rw [applyPlanAs_other (by simpa using hstepn), ih fun q hq => hnamed q (List.mem_append_left _ hq)]
      simp [hn, findPkg]

/-! ## Records -/

/-- A record read from the table has the name it is stored under. -/
theorem readRecord_name (h : RecordsOK db) {n : CStr} {j : Json} (hj : db.main.get n = some j) :
    ∃ p, readRecord db j = some p ∧ p.metadata.name = some n := by
  obtain ⟨p, hname, -, rfl⟩ := h n j hj
  obtain ⟨q, -, hqn, hread⟩ := readRecord_toJson hname db
  exact ⟨_, hread, hqn⟩

theorem find_records {n : CStr} : ∀ {es : List (CStr × Json)},
    (∀ e ∈ es, ∃ p, readRecord db e.2 = some p ∧ p.metadata.name = some e.1) →
    ((es.filterMap fun e => readRecord db e.2).map (·.metadata)).find? (fun m => m.name = some n) =
      (((es.find? fun e => e.1 = n).map Prod.snd).bind (readRecord db)).map (·.metadata) := by
  intro es
  induction es with
  | nil => intro _; rfl
  | cons e es ih =>
    intro h
    obtain ⟨p, hp, hname⟩ := h e List.mem_cons_self
    have hrest := ih fun e' he' => h e' (List.mem_cons_of_mem _ he')
    have hlist : ((e :: es).filterMap fun e => readRecord db e.2) = p :: es.filterMap fun e => readRecord db e.2 :=
      List.filterMap_cons_some hp
    rw [hlist, List.map_cons, List.find?_cons, List.find?_cons, hname]
    by_cases hn : e.1 = n
    · simp [hn, hp]
    · simp [hn, hrest]

/-- **The package of a name is found in the listing.** -/
theorem find_dbList (h : RecordsOK db) (n : CStr) :
    ((dbList db).map (·.metadata)).find? (fun m => m.name = some n) = recorded db n := by
  unfold dbList recorded dbGet
  rw [Table.get_eq_find]
  refine find_records ?_
  intro e he
  exact readRecord_name h ((Table.get_eq_some _).2 he)

theorem dbList_named (h : RecordsOK db) : ∀ p ∈ dbList db, p.metadata.name ≠ none := by
  intro p hp
  obtain ⟨e, he, hread⟩ := List.mem_filterMap.1 hp
  obtain ⟨q, hq, hqn⟩ := readRecord_name h ((Table.get_eq_some _).2 he)
  rw [hread, Option.some.injEq] at hq
  rw [hq, hqn]
  simp

theorem mem_installedNames (h : RecordsOK db) (n : CStr) : n ∈ installedNames db ↔ recorded db n ≠ none := by
  rw [← find_dbList h, Ne, List.find?_eq_none]
  have hnamed := dbList_named h
  unfold installedNames
  simp only [List.mem_map, not_forall, forall_exists_index, and_imp, forall_apply_eq_imp_iff₂, decide_eq_true_eq,
    not_not, exists_prop]
  constructor
  · rintro ⟨p, hp, rfl⟩
    obtain ⟨n, hn⟩ := Option.ne_none_iff_exists'.1 (hnamed p hp)
    exact ⟨p, hp, by simp [hn]⟩
  · rintro ⟨p, hp, hn⟩
    exact ⟨p, hp, by simp [hn]⟩

/-! ## What is there after the plan -/

/-- The name is asked for: it is queued, or the resolver needs it. -/
def Wanted (mem : Heap) (trans : ApgTrans) (g : DepGraph) (n : CStr) : Prop :=
  if trans.skipDependencyCheck then n ∈ trans.installPkgs.map (heapName mem)
  else NeededFrom g (trans.installPkgs.map (heapName mem)) n

/-- The package is delivered by an install step. -/
def Pulled (mem : Heap) (db : Db) (trans : ApgTrans) (g : DepGraph) (n : CStr) (m : Metadata) : Prop :=
  Wanted mem trans g n ∧ recorded db n = none ∧ ∃ p, firstQueued mem trans n = some p ∧ (mem p).metadata = m

/-- The package is there in the end: the last upgrade of the name, else its
record, else what is pulled in, unless it is removed. -/
def Survives (mem : Heap) (db : Db) (trans : ApgTrans) (g : DepGraph) (n : CStr) (m : Metadata) : Prop :=
  n ∉ trans.removeNames ∧
    match lastUpgrade mem trans n with
    | some p => (mem p).metadata = m
    | none => recorded db n = some m ∨ Pulled mem db trans g n m

/-- The address of the package that is delivered by an install step. -/
def PulledAt (mem : Heap) (db : Db) (trans : ApgTrans) (g : DepGraph) (n : CStr) (p : Ptr) : Prop :=
  Wanted mem trans g n ∧ recorded db n = none ∧ firstQueued mem trans n = some p

/-- What the package that is there in the end shows. -/
def SurvivesAs {α : Type*} (shows : Package → α) (mem : Heap) (db : Db) (trans : ApgTrans) (g : DepGraph) (n : CStr)
    (a : α) : Prop :=
  n ∉ trans.removeNames ∧
    match lastUpgrade mem trans n with
    | some p => shows (mem p) = a
    | none => recordedAs shows db n = some a ∨ ∃ p, PulledAt mem db trans g n p ∧ shows (mem p) = a

theorem pulled_iff {g : DepGraph} {n : CStr} {m : Metadata} :
    Pulled mem db trans g n m ↔ ∃ p, PulledAt mem db trans g n p ∧ (mem p).metadata = m := by
  constructor
  · rintro ⟨hwant, hnot, p, hq, hm⟩
    exact ⟨p, ⟨hwant, hnot, hq⟩, hm⟩
  · rintro ⟨p, ⟨hwant, hnot, hq⟩, hm⟩
    exact ⟨hwant, hnot, p, hq, hm⟩

theorem survives_iff {g : DepGraph} {n : CStr} {m : Metadata} :
    Survives mem db trans g n m ↔ SurvivesAs (·.metadata) mem db trans g n m := by
  unfold Survives SurvivesAs
  rw [pulled_iff]
  rfl

section

variable {g : DepGraph} {order : List CStr} {installs : List TransStep} {removals : List CStr} {mem' : Heap}
  {t : ApgTrans} {α : Type*} {shows : Package → α}

theorem wanted_iff (hp : PrepareOK mem db trans g order installs removals mem' t) (n : CStr) :
    n ∈ wantedNames mem trans order ↔ Wanted mem trans g n := by
  unfold wantedNames Wanted
  cases hskip : trans.skipDependencyCheck with
  | true => simp
  | false =>
    have hg := built_ok (transGraph_spec hp.graph).1
    simpa using (depGraphResolveParallel_ok hg (hp.resolved hskip)).2 n

/-- **The install steps deliver exactly the packages pulled in.** -/
theorem installs_iff (hf : Fresh mem trans) (hr : RecordsOK db)
    (hp : PrepareOK mem db trans g order installs removals mem' t) (n : CStr) (p : Ptr) :
    (∃ step ∈ installs, step.pkgName = n ∧ step.pkg = some p) ↔ PulledAt mem db trans g n p := by
  constructor
  · rintro ⟨step, hs, rfl, hpkg⟩
    obtain ⟨-, hwant, hnot, q, hq, hpkg'⟩ := hp.steps.sound step hs
    rw [mem_installedNames hr, not_not] at hnot
    have hpq : p = q := Option.some.inj (hpkg.symm.trans hpkg')
    exact ⟨(wanted_iff hp _).1 hwant, hnot, hpq ▸ hq⟩
  · rintro ⟨hwant, hnot, hq⟩
    have hnot' : n ∉ installedNames db := by rw [mem_installedNames hr, not_not]; exact hnot
    rcases hp.steps.complete n ((wanted_iff hp n).2 hwant) hnot' p hq with h | ⟨step, hs, hn⟩
    · simp [planHas, hf.plan] at h
    · obtain ⟨-, -, -, q, hq', hpkg⟩ := hp.steps.sound step hs
      rw [hn, hq, Option.some.injEq] at hq'
      exact ⟨step, hs, hn, hq' ▸ hpkg⟩

/-- A package that is pulled in has its step. -/
theorem pulled_step (hf : Fresh mem trans) (hr : RecordsOK db)
    (hp : PrepareOK mem db trans g order installs removals mem' t) {n : CStr} {m : Metadata}
    (h : Pulled mem db trans g n m) :
    ∃ step p, step ∈ t.plan ∧ step.op = .install ∧ step.pkg = some p ∧ step.pkgName = n ∧ (mem' p).metadata = m := by
  obtain ⟨p, hpull, hm⟩ := pulled_iff.1 h
  obtain ⟨step, hs, hn, hpkg⟩ := (installs_iff hf hr hp n p).2 hpull
  refine ⟨step, p, ?_, (hp.steps.sound step hs).1, hpkg, hn, (hp.metadata p).trans hm⟩
  rw [hp.plan]; simp [hs]

/-- An install step delivers a package that is pulled in. -/
theorem step_pulled (hf : Fresh mem trans) (hr : RecordsOK db)
    (hp : PrepareOK mem db trans g order installs removals mem' t) {step : TransStep} (hplan : step ∈ t.plan)
    (hop : step.op = .install) {p : Ptr} (hpkg : step.pkg = some p) :
    Pulled mem db trans g step.pkgName (mem' p).metadata := by
  have hs : step ∈ installs := by
    rw [hp.plan, List.mem_append, List.mem_append] at hplan
    rcases hplan with (hs | hs) | hs
    · exact hs
    · obtain ⟨q, -, rfl⟩ := List.mem_map.1 hs
      exact absurd hop (by simp [upgradeStep])
    · obtain ⟨q, -, rfl⟩ := List.mem_map.1 hs
      exact absurd hop (by simp [removeStep])
  exact pulled_iff.2 ⟨p, (installs_iff hf hr hp _ _).1 ⟨step, hs, rfl, hpkg⟩, (hp.metadata p).symm⟩

/-- What the install steps leave. -/
theorem applyPlanAs_installs (hf : Fresh mem trans) (hr : RecordsOK db)
    (hp : PrepareOK mem db trans g order installs removals mem' t) (hsame : ∀ q, shows (mem' q) = shows (mem q))
    (n : CStr) (a : α) :
    applyPlanAs shows mem' installs (recordedAs shows db) n = some a ↔
      recordedAs shows db n = some a ∨ ∃ p, PulledAt mem db trans g n p ∧ shows (mem p) = a := by
  by_cases hex : ∃ step ∈ installs, step.pkgName = n
  · obtain ⟨step, hs, hn⟩ := hex
    obtain ⟨-, -, -, p, hq, hpkg⟩ := hp.steps.sound step hs
    have hpull := (installs_iff hf hr hp n p).1 ⟨step, hs, hn, hpkg⟩
    -- two steps of one name deliver the same package
    have hall : ∀ st ∈ installs, st.pkgName = n → stepAs shows mem' st = some (shows (mem p)) := by
      intro st hst hstn
      obtain ⟨hop', -, -, p', hq', hpkg'⟩ := hp.steps.sound st hst
      rw [hstn, ← hn, hq, Option.some.injEq] at hq'
      simp [stepAs, hop', hpkg', ← hq', hsame]
    have hnone : recordedAs shows db n = none := by
      have hrec := hpull.2.1
      unfold recorded at hrec
      unfold recordedAs
      rw [Option.map_eq_none_iff] at hrec ⊢
      exact hrec
    rw [applyPlanAs_same hall ⟨step, hs, hn⟩, hnone]
    constructor
    · intro h
      exact Or.inr ⟨p, hpull, Option.some.inj h⟩
    · rintro (h | ⟨q, hq', ha⟩)
      · exact absurd h (by simp)
      · have hpq : p = q := Option.some.inj (hpull.2.2.symm.trans hq'.2.2)
        rw [hpq, ha]
  · rw [applyPlanAs_other fun st hst hstn => hex ⟨st, hst, hstn⟩]
    constructor
    · exact Or.inl
    · rintro (h | ⟨p, hpull, -⟩)
      · exact h
      · obtain ⟨st, hst, hstn, -⟩ := (installs_iff hf hr hp n p).2 hpull
        exact absurd ⟨st, hst, hstn⟩ hex

/-- **What is there after a prepared plan**, from the queue and the database. -/
theorem applyPlanAs_iff (hf : Fresh mem trans) (hr : RecordsOK db)
    (hp : PrepareOK mem db trans g order installs removals mem' t) (hsame : ∀ q, shows (mem' q) = shows (mem q))
    (n : CStr) (a : α) :
    applyPlanAs shows mem' t.plan (recordedAs shows db) n = some a ↔ SurvivesAs shows mem db trans g n a := by
  have hrm : ∀ step ∈ removals.map removeStep, step.pkgName = n → stepAs shows mem' step = none := by
    intro step hs _
    obtain ⟨k, -, rfl⟩ := List.mem_map.1 hs
    rfl
  unfold SurvivesAs
  rw [hp.plan, applyPlanAs_append]
  -- the last block that speaks of the name decides
  by_cases hin : n ∈ trans.removeNames
  · rw [applyPlanAs_same hrm ⟨removeStep n, List.mem_map_of_mem (hp.removed.mem_iff.2 hin), rfl⟩]
    simp [hin]
  · rw [applyPlanAs_other]
    · rw [applyPlanAs_append, applyPlanAs_upgrades hsame _ _ fun p hpk => hf.named p (Or.inr (Or.inr hpk))]
      have hlast : findPkg mem trans.upgradePkgs.reverse n = lastUpgrade mem trans n := rfl
      rw [hlast]
      cases lastUpgrade mem trans n with
      | some p => simp [hin]
      | none =>
        rw [Option.map_none, Option.none_or, applyPlanAs_installs hf hr hp hsame]
        simp [hin]
    · rintro step hs rfl
      obtain ⟨k, hk, rfl⟩ := List.mem_map.1 hs
      exact hin (hp.removed.mem_iff.1 hk)

theorem applyPlan_iff (hf : Fresh mem trans) (hr : RecordsOK db)
    (hp : PrepareOK mem db trans g order installs removals mem' t) (n : CStr) (m : Metadata) :
    applyPlan mem' t.plan (recorded db) n = some m ↔ Survives mem db trans g n m := by
  rw [survives_iff]
  exact applyPlanAs_iff hf hr hp hp.metadata n m

end

/-! ## Lost picks -/

/-- The node the resolver picked for a dependency is not there in the end as the
resolver saw it, or does not go by the name asked for: its name is removed, or
stands for another package, or a preference led to it. -/
def Lost (mem : Heap) (db : Db) (trans : ApgTrans) (c : DepConstraint) (nd : DepNode) : Prop :=
  nd.name ∈ trans.removeNames ∨
    (∃ p, lastUpgrade mem trans nd.name = some p ∧ (mem p).metadata ≠ nd.pkg) ∨
    (lastUpgrade mem trans nd.name = none ∧ ∃ m, recorded db nd.name = some m ∧ m ≠ nd.pkg) ∨
    ¬∃ n, c.name = some n ∧ nd.pkg.GoesBy n

theorem lastUpgrade_eq_none {n : CStr} (h : lastUpgrade mem trans n = none) :
    (metadataOf mem trans.upgradePkgs).find? (fun m => m.name = some n) = none := by
  unfold lastUpgrade findPkg at h
  rw [List.find?_eq_none] at h ⊢
  intro m hm
  obtain ⟨p, hp, rfl⟩ := List.mem_map.1 hm
  exact h p (List.mem_reverse.2 hp)

theorem find_metadataOf (n : CStr) (pkgs : List Ptr) :
    (metadataOf mem pkgs).find? (fun m => m.name = some n) = (findPkg mem pkgs n).map fun p => (mem p).metadata := by
  unfold metadataOf findPkg
  rw [List.find?_map]
  rfl

/-- A pick that is not lost is there in the end. -/
theorem survives_of_not_lost {g : DepGraph} (hr : RecordsOK db) (hnodes : NodesOf g (pool mem db trans))
    {c : DepConstraint} {nd : DepNode} (hnd : nd ∈ g.nodes) (hwant : Wanted mem trans g nd.name)
    (h : ¬Lost mem db trans c nd) : Survives mem db trans g nd.name nd.pkg := by
  unfold Lost at h
  simp only [not_or, not_exists, not_and, not_not] at h
  obtain ⟨h1, h2, h3, -⟩ := h
  refine ⟨h1, ?_⟩
  cases hlast : lastUpgrade mem trans nd.name with
  | some p => exact h2 p hlast
  | none =>
    cases hrec : recorded db nd.name with
    | some m => exact Or.inl (congrArg some (h3 hlast m hrec))
    | none =>
      -- then the node is that of a queued install or candidate
      have hfind := (hnodes nd.name nd.pkg).1 ⟨nd, hnd, rfl, rfl⟩
      unfold pool at hfind
      rw [List.find?_append, List.find?_append, List.find?_append, find_dbList hr, hrec, lastUpgrade_eq_none hlast,
        Option.or_none, Option.or_none, find_metadataOf, find_metadataOf, ← Option.map_or] at hfind
      obtain ⟨p, hp, hpm⟩ := Option.map_eq_some_iff.1 hfind
      exact Or.inr ⟨hwant, hrec, p, hp, hpm⟩

/-- The package of a step is the first one queued under its name, the one whose
metadata the graph has. -/
theorem firstQueued_node {g : DepGraph} (hnodes : NodesOf g (pool mem db trans)) {nd : DepNode} (hnd : nd ∈ g.nodes) {p : Ptr}
    (hp : firstQueued mem trans nd.name = some p) : nd.pkg = (mem p).metadata := by
  have hfind := (hnodes nd.name nd.pkg).1 ⟨nd, hnd, rfl, rfl⟩
  have hqueued : (firstQueued mem trans nd.name).map (fun p => (mem p).metadata) = some (mem p).metadata := by
    rw [hp]; rfl
  unfold firstQueued findInstallPkg findCandidatePkg at hqueued
  rw [Option.map_or, ← find_metadataOf, ← find_metadataOf, ← List.find?_append] at hqueued
  unfold pool at hfind
  rw [List.find?_append, List.find?_append, hqueued, Option.some_or, Option.some_or, Option.some.injEq] at hfind
  exact hfind.symm

/-- The node of a package that is pulled in has its metadata. -/
theorem pulled_node {g : DepGraph} (hnodes : NodesOf g (pool mem db trans)) {n : CStr} {m : Metadata}
    (h : Pulled mem db trans g n m) {nd : DepNode} (hnd : nd ∈ g.nodes) (hn : nd.name = n) : nd.pkg = m := by
  obtain ⟨-, -, p, hp, rfl⟩ := h
  exact firstQueued_node hnodes hnd (hn ▸ hp)

/-- **What the resolver established for a package that is pulled in**: each of its
dependencies has a pick, which is wanted too and has a version it accepts. -/
theorem pulled_pick {g : DepGraph} {order : List CStr} {installs : List TransStep} {removals : List CStr} {mem' : Heap}
    {t : ApgTrans} (hp : PrepareOK mem db trans g order installs removals mem' t)
    (hskip : trans.skipDependencyCheck = false) {n : CStr} {m : Metadata} (h : Pulled mem db trans g n m)
    {c : DepConstraint} (hc : c ∈ m.dependencies) :
    ∃ j nd, c.LeadsTo g j ∧ g.nodes[j]? = some nd ∧ Wanted mem trans g nd.name ∧
      verSatisfies nd.pkg.version c.op c.version = true := by
  obtain ⟨hb, hnodes⟩ := transGraph_spec hp.graph
  have hg := built_ok hb
  obtain ⟨hsound, -⟩ := depGraphResolveParallel_ok hg (hp.resolved hskip)
  have hwant := h.1
  unfold Wanted at hwant
  rw [if_neg (by simp [hskip])] at hwant
  obtain ⟨name, hname, root, i, hl, hreach, hi⟩ := hwant
  have hlt := reach_lt hg hl hreach
  have hnode : g.nodes[i]? = some g.nodes[i] := List.getElem?_eq_getElem hlt
  have hmem := List.mem_of_getElem? hnode
  have hpkg : (g.nodes[i]).pkg = m := pulled_node hnodes h hmem (by simpa [nodeName, hlt] using hi)
  -- the queued package the search started from is sound
  obtain ⟨root', hl', hs⟩ := hsound name hname
  rw [hl, Option.some.injEq] at hl'
  subst hl'
  -- the dependency is one of a reachable node
  have hdep : ReachableDep g root c := ⟨i, _, hreach, hnode, hpkg ▸ hc⟩
  obtain ⟨j, hj⟩ := hs.leads c hdep
  obtain ⟨name', hn', hlj⟩ := hj
  have hltj := depGraphLookup_lt hg hlj
  have hnodej : g.nodes[j]? = some g.nodes[j] := List.getElem?_eq_getElem hltj
  have hleads : c.LeadsTo g j := ⟨name', hn', hlj⟩
  refine ⟨j, g.nodes[j], hleads, hnodej, ?_, hs.accepts c hdep j _ hleads hnodej⟩
  unfold Wanted
  rw [if_neg (by simp [hskip])]
  exact ⟨name, hname, root, j, hl, hreach.tail ⟨_, hnode, c, hpkg ▸ hc, hleads⟩, by simp [nodeName, hltj]⟩

/-- **When a prepared plan is sound**: every dependency of a package it delivers
is met by the resolver's pick, or, where that pick is lost, by another package
that is there in the end. -/
theorem transPrepare_dependencySound_iff {collect : Ptr → Option (List CStr)} {mem' : Heap} {t : ApgTrans}
    {g : DepGraph} (hq : Queued mem trans) (hdb : Reachable (fun _ => True) db)
    (hskip : trans.skipDependencyCheck = false) (hg : transGraph mem db trans = some g)
    (h : transPrepare collect mem db trans = some (.ok, mem', t)) :
    DependencySound mem' (recorded db) t.plan ↔
      ∀ n m, Pulled mem db trans g n m → ∀ c ∈ m.dependencies, ∀ j nd, c.LeadsTo g j → g.nodes[j]? = some nd →
        Lost mem db trans c nd → ∃ n' m', Survives mem db trans g n' m' ∧ m'.Satisfies c := by
  have hf := queued_fresh hq
  have hr := reachable_recordsOK hdb
  obtain ⟨g', order, installs, removals, hp⟩ := transPrepare_ok hf h
  have hgg := hp.graph
  rw [hg, Option.some.injEq] at hgg
  subst hgg
  constructor
  · intro hsound n m hpull c hc j nd _ _ _
    obtain ⟨step, p, hs, hop, hpkg, -, hmeta⟩ := pulled_step hf hr hp hpull
    obtain ⟨n', m', hn', hsat⟩ := hsound step hs hop p hpkg c (hmeta ▸ hc)
    exact ⟨n', m', (applyPlan_iff hf hr hp n' m').1 hn', hsat⟩
  · intro hcond step hplan hop p hpkg c hc
    have hpull := step_pulled hf hr hp hplan hop hpkg
    obtain ⟨j, nd, hleads, hnode, hwant, hver⟩ := pulled_pick hp hskip hpull hc
    -- a pick that is not lost is the survivor that is asked for
    have hsurvivor : ∃ n' m', Survives mem db trans g n' m' ∧ m'.Satisfies c := by
      by_cases hlost : Lost mem db trans c nd
      · exact hcond _ _ hpull c hc j nd hleads hnode hlost
      · have hstays := survives_of_not_lost hr (transGraph_spec hp.graph).2 (List.mem_of_getElem? hnode) hwant hlost
        have hgoes : ∃ n, c.name = some n ∧ nd.pkg.GoesBy n := by
          by_contra hno
          exact hlost (Or.inr (Or.inr (Or.inr hno)))
        exact ⟨_, _, hstays, hgoes, hver⟩
    obtain ⟨n', m', hsurv, hsat⟩ := hsurvivor
    exact ⟨n', m', (applyPlan_iff hf hr hp n' m').2 hsurv, hsat⟩

/-! ## Two queues -/

/-- A package `a` that needs `b`, at address 1, and a package `b` everywhere else. -/
def needsB : Heap := fun p =>
  if p = 1 then { metadata := { name := some (cstr "a"), dependencies := [⟨some (cstr "b"), .any, none⟩] } }
  else bare "b" []

/-- `a` is queued, `b` is a candidate. -/
theorem transPrepare_dependencySound_candidate :
    ∃ trans mem' t, Queued needsB trans ∧
      transPrepare (fun _ => none) needsB (dbOpen true true) trans = some (.ok, mem', t) ∧
      t.plan.map (·.pkgName) = [cstr "b", cstr "a"] ∧ DependencySound mem' (recorded (dbOpen true true)) t.plan := by
  have hq : Queued needsB { installPkgs := [1], candidatePkgs := [2] } :=
    Queued.candidate 2 (Queued.install 1 Queued.new)
  have hrun : (transPrepare (fun _ => none) needsB (dbOpen true true) { installPkgs := [1], candidatePkgs := [2] }).map
      (fun r => (r.1, r.2.2.plan.map (·.pkgName))) = some (.ok, [cstr "b", cstr "a"]) := by decide
  have hgraph : (transGraph needsB (dbOpen true true) { installPkgs := [1], candidatePkgs := [2] }).map (·.prefs) =
      some [] := by decide
  obtain ⟨⟨err, mem', t⟩, h, hres⟩ := Option.map_eq_some_iff.1 hrun
  obtain ⟨g, hg, hprefs⟩ := Option.map_eq_some_iff.1 hgraph
  simp only [Prod.mk.injEq] at hres
  obtain ⟨rfl, hplan⟩ := hres
  refine ⟨_, mem', t, hq, h, hplan, ?_⟩
  refine (transPrepare_dependencySound_iff hq (Reachable.new true true) rfl hg h).2 ?_
  rintro n m - c - j nd ⟨name, hname, hl⟩ hnd hlost
  exfalso
  -- nothing is removed, upgraded or recorded, and there are no preferences
  rcases hlost with hlost | ⟨p, hp, -⟩ | ⟨-, m', hm', -⟩ | hlost
  · simp at hlost
  · simp [lastUpgrade, findPkg] at hp
  · simp [recorded, dbGet, dbOpen] at hm'
  · refine hlost ⟨name, hname, ?_⟩
    have hok := built_ok (transGraph_spec hg).1
    obtain ⟨nd', hnd', hwhy⟩ := depGraphLookup_some hok hl
    rw [hnd, Option.some.injEq] at hnd'
    subst hnd'
    rcases hwhy with rfl | ⟨-, hpref | hdecl⟩
    · exact Or.inl (hok.named nd (List.mem_of_getElem? hnd))
    · rw [hprefs] at hpref; simp at hpref
    · exact Or.inr hdecl

/-- `a` is queued, `b` is installed and queued for removal. -/
theorem transPrepare_dependencySound_removed :
    ∃ db trans mem' t, Reachable (fun _ => True) db ∧ Queued needsB trans ∧ trans.skipDependencyCheck = false ∧
      trans.skipDependentsCheck = false ∧ transPrepare (fun _ => none) needsB db trans = some (.ok, mem', t) ∧
      ¬DependencySound mem' (recorded db) t.plan := by
  have hq : Queued needsB { installPkgs := [1], removeNames := [cstr "b"] } :=
    Queued.remove (cstr "b") (Queued.install 1 Queued.new)
  have hrun : ((dbAdd (fun _ => .success) (dbOpen true true) (bare "b" [])).bind fun r =>
      (transPrepare (fun _ => none) needsB r.2 { installPkgs := [1], removeNames := [cstr "b"] }).map
        fun s => (r.1, s.1, s.2.2.plan)) =
      some (true, .ok, [⟨.install, cstr "a", none, true, some 1⟩, ⟨.remove, cstr "b", none, true, none⟩]) := by decide
  obtain ⟨⟨ok, db⟩, hadd, hprep⟩ := Option.bind_eq_some_iff.1 hrun
  obtain ⟨⟨err, mem', t⟩, h, hres⟩ := Option.map_eq_some_iff.1 hprep
  simp only [Prod.mk.injEq] at hres
  obtain ⟨rfl, rfl, hplan⟩ := hres
  refine ⟨db, _, mem', t, Reachable.add _ (Reachable.new true true) trivial hadd, hq, rfl, rfl, h, ?_⟩
  obtain ⟨g, order, installs, removals, hp⟩ := transPrepare_ok (queued_fresh hq) h
  have hmeta : (mem' 1).metadata = (needsB 1).metadata := hp.metadata 1
  intro hsound
  obtain ⟨n, m, hn, ⟨name, hname, hgoes⟩, -⟩ := hsound ⟨.install, cstr "a", none, true, some 1⟩
    (by rw [hplan]; simp) rfl 1 rfl ⟨some (cstr "b"), .any, none⟩ (by rw [hmeta]; simp [needsB])
  rw [Option.some.injEq] at hname
  subst hname
  -- the only package left is `a`
  rw [hplan] at hn
  simp only [applyPlan, List.foldl_cons, List.foldl_nil, applyStep, stepPkg, Option.map_some, hmeta] at hn
  by_cases hb : n = cstr "b"
  · simp [hb] at hn
  rw [Function.update_of_ne hb] at hn
  by_cases ha : n = cstr "a"
  · rw [ha, Function.update_self, Option.some.injEq] at hn
    subst hn
    revert hgoes
    unfold Metadata.GoesBy
    decide
  · rw [Function.update_of_ne ha] at hn
    obtain ⟨-, k, db₁, hk, htxn, hs⟩ | ⟨hfalse, -⟩ := dbAdd_cases hadd
    · have hkb : cstr "b" = k := by simpa [bare] using hk
      have hmain : db.main.get n = none := by
        rw [hs.main, (addTxn_spec htxn).main, Table.get_put, if_neg (hkb ▸ hb)]
        rfl
      simp [recorded, dbGet, hmain] at hn
    · exact absurd hfalse (by simp)

end Apg
