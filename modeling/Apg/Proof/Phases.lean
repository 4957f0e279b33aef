import Apg.Proof.Resolve
import Apg.Spec.Plan

/-!
# The phases of `trans_prepare`

What each phase adds to the transaction, said once: every phase appends to the
plan or to the findings and leaves the queues alone.

* `transPrepare_ok`: **what a successful call has done.**
-/

namespace Apg

variable {mem : Heap} {db : Db} {trans : ApgTrans}

/-- Nothing has been prepared yet, and every queued package has a name. -/
structure Fresh (mem : Heap) (trans : ApgTrans) : Prop where
  named : ∀ p, p ∈ trans.installPkgs ∨ p ∈ trans.candidatePkgs ∨ p ∈ trans.upgradePkgs → (mem p).metadata.name ≠ none
  plan : trans.plan = []
  conflicts : trans.conflicts = []
  blockedRemoves : trans.blockedRemoves = []
  fileConflicts : trans.fileConflicts = []
  heldPkgs : trans.heldPkgs = []
  prepared : trans.prepared = false
  committed : trans.committed = false

/-- Queueing a package keeps a transaction fresh if the package has a name. -/
theorem transQueue_fresh {p : Ptr} {queued : ApgTrans} (h : Fresh mem trans)
    (hq : (mem p).metadata.name ≠ none → Fresh mem queued) : Fresh mem (transQueue mem trans p queued).2 := by
  unfold transQueue
  by_cases hn : (mem p).metadata.name = none
  · rw [if_pos hn]; exact h
  · rw [if_neg hn]; exact hq hn

theorem queued_fresh (h : Queued mem trans) : Fresh mem trans := by
  induction h with
  | new => exact ⟨by simp [transNew], rfl, rfl, rfl, rfl, rfl, rfl, rfl⟩
  | policy _ _ _ _ ih => exact ⟨ih.1, ih.2, ih.3, ih.4, ih.5, ih.6, ih.7, ih.8⟩
  | dryRun _ _ ih => exact ⟨ih.1, ih.2, ih.3, ih.4, ih.5, ih.6, ih.7, ih.8⟩
  | prefer _ _ _ ih => exact ⟨ih.1, ih.2, ih.3, ih.4, ih.5, ih.6, ih.7, ih.8⟩
  | install p _ ih =>
    refine transQueue_fresh ih fun hn => ⟨?_, ih.2, ih.3, ih.4, ih.5, ih.6, ih.7, ih.8⟩
    intro q hq
    simp only [List.mem_append, List.mem_singleton] at hq
    rcases hq with (hq | rfl) | hq | hq
    · exact ih.named q (Or.inl hq)
    · exact hn
    · exact ih.named q (Or.inr (Or.inl hq))
    · exact ih.named q (Or.inr (Or.inr hq))
  | candidate p _ ih =>
    refine transQueue_fresh ih fun hn => ⟨?_, ih.2, ih.3, ih.4, ih.5, ih.6, ih.7, ih.8⟩
    intro q hq
    simp only [List.mem_append, List.mem_singleton] at hq
    rcases hq with hq | (hq | rfl) | hq
    · exact ih.named q (Or.inl hq)
    · exact ih.named q (Or.inr (Or.inl hq))
    · exact hn
    · exact ih.named q (Or.inr (Or.inr hq))
  | upgrade p _ ih =>
    refine transQueue_fresh ih fun hn => ⟨?_, ih.2, ih.3, ih.4, ih.5, ih.6, ih.7, ih.8⟩
    intro q hq
    simp only [List.mem_append, List.mem_singleton] at hq
    rcases hq with hq | hq | hq | rfl
    · exact ih.named q (Or.inl hq)
    · exact ih.named q (Or.inr (Or.inl hq))
    · exact ih.named q (Or.inr (Or.inr hq))
    · exact hn
  | remove _ _ ih => exact ⟨ih.1, ih.2, ih.3, ih.4, ih.5, ih.6, ih.7, ih.8⟩

/-! ## The graph -/

/-- Everything that is added to the graph, in the order of the additions. -/
def pool (mem : Heap) (db : Db) (trans : ApgTrans) : List Metadata :=
  metadataOf mem trans.installPkgs ++ metadataOf mem trans.candidatePkgs ++ metadataOf mem trans.upgradePkgs ++
    (dbList db).map (·.metadata)

theorem foldl_prefer_spec : ∀ (prefs : List (CStr × CStr)) {g : DepGraph}, Built g →
    Built (prefs.foldl (fun g pref => depGraphPrefer g pref.1 pref.2) g) ∧
      (prefs.foldl (fun g pref => depGraphPrefer g pref.1 pref.2) g).nodes = g.nodes := by
  intro prefs
  induction prefs with
  | nil => intro g hb; exact ⟨hb, rfl⟩
  | cons pref prefs ih =>
    intro g hb
    obtain ⟨h1, h2⟩ := ih (Built.prefer pref.1 pref.2 hb)
    exact ⟨h1, h2⟩

theorem transGraph_spec {g : DepGraph} (h : transGraph mem db trans = some g) :
    Built g ∧ NodesOf g (pool mem db trans) := by
  unfold transGraph at h
  obtain ⟨g₁, h1, h⟩ := Option.bind_eq_some_iff.1 h
  obtain ⟨g₂, h2, h⟩ := Option.bind_eq_some_iff.1 h
  obtain ⟨g₃, h3, h⟩ := Option.bind_eq_some_iff.1 h
  obtain ⟨g₄, h4, h⟩ := Option.bind_eq_some_iff.1 h
  simp only [Option.pure_def, Option.some.injEq] at h
  have b1 := addNodes_built _ Built.new h1
  have b2 := addNodes_built _ b1 h2
  have b3 := addNodes_built _ b2 h3
  have b4 := addNodes_built _ b3 h4
  have n1 := addNodes_nodesOf _ depGraphNew_ok nodesOf_new h1
  have n2 := addNodes_nodesOf _ (built_ok b1) n1 h2
  have n3 := addNodes_nodesOf _ (built_ok b2) n2 h3
  have n4 := addNodes_nodesOf _ (built_ok b3) n3 h4
  obtain ⟨hb, hnodes⟩ := foldl_prefer_spec trans.providerPrefs b4
  rw [h] at hb hnodes
  refine ⟨hb, ?_⟩
  unfold NodesOf pool
  rw [hnodes]
  rwa [List.nil_append] at n4

/-! ## Installs -/

/-- The package that an install step of the name delivers. -/
def firstQueued (mem : Heap) (trans : ApgTrans) (name : CStr) : Option Ptr :=
  (findInstallPkg mem trans name).or (findCandidatePkg mem trans name)

/-- The steps deliver the names that are not installed and are queued, each with
the first package queued under it. -/
structure InstallSteps (mem : Heap) (installed : List CStr) (trans : ApgTrans) (names : List CStr)
    (steps : List TransStep) : Prop where
  sound : ∀ step ∈ steps, step.op = .install ∧ step.pkgName ∈ names ∧ step.pkgName ∉ installed ∧
    ∃ p, firstQueued mem trans step.pkgName = some p ∧ step.pkg = some p
  complete : ∀ n ∈ names, n ∉ installed → ∀ p, firstQueued mem trans n = some p →
    planHas trans n ∨ ∃ step ∈ steps, step.pkgName = n

theorem planHas_push {n : CStr} {steps : List TransStep} :
    planHas { trans with plan := trans.plan ++ steps } n = true ↔
      planHas trans n = true ∨ ∃ step ∈ steps, step.pkgName = n := by
  simp [planHas, or_comm]

theorem installSteps_installed {installed : List CStr} {name : CStr} (h : name ∈ installed) :
    InstallSteps mem installed trans [name] [] := by
  refine ⟨by simp, ?_⟩
  intro n hn hnot
  rw [List.mem_singleton.1 hn] at hnot
  exact absurd h hnot

theorem installSteps_planned {installed : List CStr} {name : CStr} (h : planHas trans name = true) :
    InstallSteps mem installed trans [name] [] := by
  refine ⟨by simp, ?_⟩
  intro n hn _ _ _
  rw [List.mem_singleton.1 hn]
  exact Or.inl h

theorem installSteps_one {installed : List CStr} {name : CStr} {version : Option CStr} {explicitReq : Bool} {p : Ptr}
    (hin : name ∉ installed) (hp : firstQueued mem trans name = some p) :
    InstallSteps mem installed trans [name] [⟨.install, name, version, explicitReq, some p⟩] := by
  refine ⟨?_, ?_⟩
  · intro step hstep
    rw [List.mem_singleton.1 hstep]
    exact ⟨rfl, List.mem_singleton_self _, hin, p, hp, rfl⟩
  · intro n hn _ _ _
    rw [List.mem_singleton.1 hn]
    exact Or.inr ⟨_, List.mem_singleton_self _, rfl⟩

theorem pushNeeded_steps (mem : Heap) (installed : List CStr) (trans : ApgTrans) (name : CStr) :
    ∃ steps, pushNeeded mem installed trans name = { trans with plan := trans.plan ++ steps } ∧
      InstallSteps mem installed trans [name] steps := by
  unfold pushNeeded
  by_cases hin : name ∈ installed
  · rw [if_pos hin]
    exact ⟨[], by simp, installSteps_installed hin⟩
  rw [if_neg hin]
  by_cases hplan : planHas trans name = true
  · rw [if_pos hplan]
    exact ⟨[], by simp, installSteps_planned hplan⟩
  rw [if_neg hplan]
  have hfirst : firstQueued mem trans name = (findInstallPkg mem trans name).or (findCandidatePkg mem trans name) := rfl
  rw [← hfirst]
  cases hp : firstQueued mem trans name with
  | none =>
    refine ⟨[], by simp, by simp, ?_⟩
    intro n hn _ p hq
    rw [List.mem_singleton.1 hn, hp] at hq
    exact absurd hq (by simp)
  | some p => exact ⟨_, rfl, installSteps_one hin hp⟩

theorem installSteps_append {installed names names' : List CStr} {steps steps' : List TransStep}
    (h : InstallSteps mem installed trans names steps)
    (h' : InstallSteps mem installed { trans with plan := trans.plan ++ steps } names' steps') :
    InstallSteps mem installed trans (names ++ names') (steps ++ steps') := by
  refine ⟨?_, ?_⟩
  · intro step hstep
    rcases List.mem_append.1 hstep with hs | hs
    · obtain ⟨h1, h2, h3⟩ := h.sound step hs
      exact ⟨h1, List.mem_append_left _ h2, h3⟩
    · obtain ⟨h1, h2, h3⟩ := h'.sound step hs
      exact ⟨h1, List.mem_append_right _ h2, h3⟩
  · intro n hn hnot p hp
    rcases List.mem_append.1 hn with hn | hn
    · rcases h.complete n hn hnot p hp with h1 | ⟨step, hs, h1⟩
      · exact Or.inl h1
      · exact Or.inr ⟨step, List.mem_append_left _ hs, h1⟩
    · rcases h'.complete n hn hnot p hp with h1 | ⟨step, hs, h1⟩
      · rcases planHas_push.1 h1 with h1 | ⟨step, hs, h1⟩
        · exact Or.inl h1
        · exact Or.inr ⟨step, List.mem_append_left _ hs, h1⟩
      · exact Or.inr ⟨step, List.mem_append_right _ hs, h1⟩

theorem foldl_pushNeeded (mem : Heap) (installed : List CStr) : ∀ (order : List CStr) (trans : ApgTrans),
    ∃ steps, order.foldl (pushNeeded mem installed) trans = { trans with plan := trans.plan ++ steps } ∧
      InstallSteps mem installed trans order steps := by
  intro order
  induction order with
  | nil => intro trans; exact ⟨[], by simp, by simp, by simp⟩
  | cons name order ih =>
    intro trans
    obtain ⟨steps, hpush, hsteps⟩ := pushNeeded_steps mem installed trans name
    obtain ⟨steps', hfold, hsteps'⟩ := ih { trans with plan := trans.plan ++ steps }
    refine ⟨steps ++ steps', ?_, ?_⟩
    · rw [List.foldl_cons, hpush, hfold]
      simp
    · exact installSteps_append hsteps hsteps'

theorem name_of_ne_none {p : Ptr} (h : (mem p).metadata.name ≠ none) :
    (mem p).metadata.name = some (heapName mem p) := by
  obtain ⟨n, hn⟩ := Option.ne_none_iff_exists'.1 h
  simp [heapName, hn]

/-- With the check off a step is pushed for the first package of a name only: the
name is in the plan when the others come. -/
theorem foldl_pushQueued (mem : Heap) (installed : List CStr) : ∀ (todo done : List Ptr) (trans : ApgTrans),
    trans.installPkgs = done ++ todo → (∀ p ∈ todo, (mem p).metadata.name ≠ none) →
    (∀ p ∈ done, heapName mem p ∉ installed → planHas trans (heapName mem p)) →
    ∃ steps, todo.foldl (pushQueued mem installed) trans = { trans with plan := trans.plan ++ steps } ∧
      InstallSteps mem installed trans (todo.map (heapName mem)) steps := by
  intro todo
  induction todo with
  | nil => intro done trans _ _ _; exact ⟨[], by simp, by simp, by simp⟩
  | cons p todo ih =>
    intro done trans hqueue hnamed hdone
    have hname := name_of_ne_none (hnamed p List.mem_cons_self)
    -- what the package itself adds
    have hone : ∃ steps, pushQueued mem installed trans p = { trans with plan := trans.plan ++ steps } ∧
        InstallSteps mem installed trans [heapName mem p] steps := by
      unfold pushQueued
      simp only
      by_cases hin : heapName mem p ∈ installed
      · rw [if_pos hin]
        exact ⟨[], by simp, installSteps_installed hin⟩
      rw [if_neg hin]
      by_cases hplan : planHas trans (heapName mem p) = true
      · rw [if_pos hplan]
        exact ⟨[], by simp, installSteps_planned hplan⟩
      rw [if_neg hplan]
      -- no earlier package has the name, or it would be in the plan
      have hfirst : firstQueued mem trans (heapName mem p) = some p := by
        have hnone : done.find? (fun q => (mem q).metadata.name = some (heapName mem p)) = none := by
          rw [List.find?_eq_none]
          intro q hq hqn
          have hsame : heapName mem q = heapName mem p := by simp [heapName, of_decide_eq_true hqn]
          exact hplan (hsame ▸ hdone q hq (hsame ▸ hin))
        unfold firstQueued findInstallPkg findPkg
        rw [hqueue, List.find?_append, hnone, List.find?_cons, hname]
        simp
      exact ⟨_, rfl, installSteps_one hin hfirst⟩
    obtain ⟨steps, hpush, hsteps⟩ := hone
    -- so that the plan holds the names of all packages done
    have hrest : ∀ q ∈ done ++ [p], heapName mem q ∉ installed →
        planHas { trans with plan := trans.plan ++ steps } (heapName mem q) := by
      intro q hq hnot
      rw [planHas_push]
      rcases List.mem_append.1 hq with hq | hq
      · exact Or.inl (hdone q hq hnot)
      · rw [List.mem_singleton.1 hq] at hnot ⊢
        have hsome : ∃ r, firstQueued mem trans (heapName mem p) = some r := by
          have hmem : p ∈ trans.installPkgs := by rw [hqueue]; simp
          have : (findPkg mem trans.installPkgs (heapName mem p)).isSome := by
            unfold findPkg
            rw [List.find?_isSome]
            exact ⟨p, hmem, by simp [hname]⟩
          obtain ⟨r, hr⟩ := Option.isSome_iff_exists.1 this
          exact ⟨r, by simp [firstQueued, findInstallPkg, hr]⟩
        obtain ⟨r, hr⟩ := hsome
        exact hsteps.complete _ (List.mem_singleton_self _) hnot r hr
    obtain ⟨steps', hfold, hsteps'⟩ := ih (done ++ [p]) { trans with plan := trans.plan ++ steps }
      (by simp [hqueue]) (fun q hq => hnamed q (List.mem_cons_of_mem _ hq)) hrest
    refine ⟨steps ++ steps', ?_, ?_⟩
    · rw [List.foldl_cons, hpush, hfold]
      simp
    · exact installSteps_append hsteps hsteps'

/-- The names that the install steps are taken from. -/
def wantedNames (mem : Heap) (trans : ApgTrans) (order : List CStr) : List CStr :=
  if trans.skipDependencyCheck then trans.installPkgs.map (heapName mem) else order

/-- What `planInstalls` does when it does not fail. -/
theorem planInstalls_ok {installed : List CStr} {g : DepGraph} {t : ApgTrans} (hf : Fresh mem trans)
    (h : planInstalls mem installed g trans = some (.ok t)) :
    ∃ order steps, t = { trans with plan := steps } ∧
      (trans.skipDependencyCheck = false →
        depGraphResolveParallel g (trans.installPkgs.map (heapName mem)) = some (.ok order)) ∧
      InstallSteps mem installed trans (wantedNames mem trans order) steps := by
  unfold planInstalls at h
  -- an empty queue is not handed to the resolver
  by_cases hnil : trans.installPkgs = []
  · rw [if_pos hnil, Option.some.injEq, Except.ok.injEq] at h
    refine ⟨[], [], ?_, ?_, ?_⟩
    · rw [← h, ← hf.plan]
    · intro _
      rw [hnil]; rfl
    · unfold wantedNames
      rw [hnil]
      exact ⟨by simp, by simp⟩
  rw [if_neg hnil] at h
  by_cases hskip : trans.skipDependencyCheck = true
  · rw [if_pos hskip, Option.some.injEq, Except.ok.injEq] at h
    obtain ⟨steps, hfold, hsteps⟩ := foldl_pushQueued mem installed trans.installPkgs [] trans
      (by simp) (fun p hp => hf.named p (Or.inl hp)) (by simp)
    refine ⟨[], steps, ?_, by simp [hskip], ?_⟩
    · rw [← h, hfold, hf.plan, List.nil_append]
    · unfold wantedNames
      rw [if_pos hskip]; exact hsteps
  · rw [if_neg hskip] at h
    split at h
    any_goals simp at h
    rename_i order horder
    obtain ⟨steps, hfold, hsteps⟩ := foldl_pushNeeded mem installed order trans
    refine ⟨order, steps, ?_, fun _ => horder, ?_⟩
    · rw [← h, hfold, hf.plan, List.nil_append]
    · unfold wantedNames
      rw [if_neg hskip]; exact hsteps

/-! ## Conflicts -/

theorem foldl_conflictPush (name : CStr) : ∀ (breaks : List CStr) (t : ApgTrans),
    breaks.foldl (fun t b => conflictPush t name b) t =
      { t with conflicts := t.conflicts ++ breaks.map fun b => ⟨name, b⟩ } := by
  intro breaks
  induction breaks with
  | nil => intro t; simp
  | cons b breaks ih =>
    intro t
    rw [List.foldl_cons, ih]
    simp [conflictPush]

theorem pushConflicts_spec : ∀ (tasks : List (CStr × Except DepError (List CStr))) (t : ApgTrans),
    ∃ found, (pushConflicts tasks t).2 = { t with conflicts := t.conflicts ++ found } ∧
      ((pushConflicts tasks t).1 = .ok () → found = [] → ∀ task ∈ tasks, task.2 = .ok []) := by
  intro tasks
  induction tasks with
  | nil => intro t; exact ⟨[], by simp [pushConflicts], by simp⟩
  | cons task tasks ih =>
    intro t
    obtain ⟨name, r⟩ := task
    cases r with
    | error e => exact ⟨[], by simp [pushConflicts], by simp [pushConflicts]⟩
    | ok breaks =>
      unfold pushConflicts
      rw [foldl_conflictPush]
      obtain ⟨found, h1, h2⟩ := ih { t with conflicts := t.conflicts ++ breaks.map fun b => ⟨name, b⟩ }
      refine ⟨breaks.map (fun b => ⟨name, b⟩) ++ found, ?_, ?_⟩
      · rw [h1]; simp
      · intro hok hnil
        rw [List.append_eq_nil_iff, List.map_eq_nil_iff] at hnil
        intro task htask
        rcases List.mem_cons.1 htask with rfl | htask
        · simp [hnil.1]
        · exact h2 hok hnil.2 task htask

theorem pushConflicts_error_ne : ∀ (tasks : List (CStr × Except DepError (List CStr))) (t t' : ApgTrans),
    pushConflicts tasks t ≠ (.error .ok, t') := by
  intro tasks
  induction tasks with
  | nil => intro t t' h; simp [pushConflicts] at h
  | cons task tasks ih =>
    intro t t'
    obtain ⟨name, r⟩ := task
    cases r with
    | error e => simp [pushConflicts]
    | ok breaks => exact ih _ t'

theorem findConflicts_mem {g : DepGraph} {installed : List CStr} : ∀ {names : List CStr}
    {tasks : List (CStr × Except DepError (List CStr))}, findConflicts g installed names = some tasks →
    ∀ name ∈ names, ∃ r, depGraphFindBreaks g name installed = some r ∧ (name, r) ∈ tasks := by
  intro names
  induction names with
  | nil => intro tasks _ name hn; simp at hn
  | cons name names ih =>
    intro tasks h name' hn
    unfold findConflicts at h
    split at h
    · exact absurd h (by simp)
    · rename_i r hr
      obtain ⟨rest, hrest, rfl⟩ := Option.map_eq_some_iff.1 h
      rcases List.mem_cons.1 hn with rfl | hn
      · exact ⟨r, hr, List.mem_cons_self⟩
      · obtain ⟨r', hr', hmem⟩ := ih hrest name' hn
        exact ⟨r', hr', List.mem_cons_of_mem _ hmem⟩

/-! ## Upgrades and removals -/

/-- The package is recorded and held. -/
def heldIn (db : Db) (name : CStr) : Bool := ((dbGet db name).map (·.held)).getD false

/-- The step of a queued upgrade. -/
def upgradeStep (mem : Heap) (db : Db) (p : Ptr) : TransStep :=
  ⟨.upgrade, heapName mem p, (mem p).metadata.version,
    ((dbGet db (heapName mem p)).map (·.installedByHand)).getD true, some p⟩

theorem foldl_pushUpgrade (mem : Heap) (db : Db) : ∀ (pkgs : List Ptr) (t : ApgTrans),
    ∃ steps held, pkgs.foldl (pushUpgrade mem db) t =
        { t with plan := t.plan ++ steps, heldPkgs := t.heldPkgs ++ held } ∧
      (held = [] → steps = pkgs.map (upgradeStep mem db) ∧ ∀ p ∈ pkgs, heldIn db (heapName mem p) = false) := by
  intro pkgs
  induction pkgs with
  | nil => intro t; exact ⟨[], [], by simp, by simp⟩
  | cons p pkgs ih =>
    intro t
    rw [List.foldl_cons]
    by_cases hheld : heldIn db (heapName mem p) = true
    · have hpush : pushUpgrade mem db t p = heldPush t (heapName mem p) .upgrade := by
        unfold pushUpgrade; simp only; exact if_pos hheld
      obtain ⟨steps, held, h1, -⟩ := ih (heldPush t (heapName mem p) .upgrade)
      refine ⟨steps, ⟨heapName mem p, .upgrade⟩ :: held, ?_, by simp⟩
      rw [hpush, h1]
      simp [heldPush]
    · have hpush : pushUpgrade mem db t p = { t with plan := t.plan ++ [upgradeStep mem db p] } := by
        unfold pushUpgrade; simp only; exact if_neg hheld
      obtain ⟨steps, held, h1, h2⟩ := ih { t with plan := t.plan ++ [upgradeStep mem db p] }
      refine ⟨upgradeStep mem db p :: steps, held, ?_, ?_⟩
      · rw [hpush, h1]; simp
      · intro hnil
        obtain ⟨hsteps, hfree⟩ := h2 hnil
        rw [hsteps, List.map_cons]
        refine ⟨rfl, ?_⟩
        intro q hq
        rcases List.mem_cons.1 hq with rfl | hq
        · exact Bool.eq_false_iff.2 hheld
        · exact hfree q hq

/-- Nothing stands against removing the names: none is held, and whoever depends on
one is queued for removal as well. -/
def Removable (db : Db) (trans : ApgTrans) (names : List CStr) : Prop :=
  ∀ name ∈ names, heldIn db name = false ∧ (trans.skipDependentsCheck = false →
    ∃ dependents, dbGetDependents db name = some dependents ∧ ∀ d ∈ dependents, d ∈ trans.removeNames)

theorem collectRemovals_spec : ∀ (names : List CStr) {t t' : ApgTrans} {acc removals : List CStr},
    collectRemovals db names t acc = some (removals, t') →
    ∃ held blocked, t' = { t with heldPkgs := t.heldPkgs ++ held, blockedRemoves := t.blockedRemoves ++ blocked } ∧
      (held = [] → blocked = [] → removals = acc ++ names ∧ Removable db t names) := by
  intro names
  induction names with
  | nil =>
    intro t t' acc removals h
    simp only [collectRemovals, Option.some.injEq, Prod.mk.injEq] at h
    exact ⟨[], [], by simp [h.2], by simp [h.1, Removable]⟩
  | cons name names ih =>
    intro t t' acc removals h
    -- a name that is kept
    have hkept : ∀ {t' : ApgTrans} {removals}, Removable db t [name] →
        collectRemovals db names t (acc ++ [name]) = some (removals, t') →
        ∃ held blocked, t' = { t with heldPkgs := t.heldPkgs ++ held, blockedRemoves := t.blockedRemoves ++ blocked } ∧
          (held = [] → blocked = [] → removals = acc ++ name :: names ∧ Removable db t (name :: names)) := by
      intro t' removals hfree h
      obtain ⟨held, blocked, h1, h2⟩ := ih h
      refine ⟨held, blocked, h1, fun ha hb => ?_⟩
      obtain ⟨hrm, hrest⟩ := h2 ha hb
      refine ⟨by rw [hrm]; simp, ?_⟩
      intro n hn
      rcases List.mem_cons.1 hn with rfl | hn
      · exact hfree n (List.mem_singleton_self n)
      · exact hrest n hn
    unfold collectRemovals at h
    simp only at h
    split at h
    -- a held package: the list of them is no longer empty
    · obtain ⟨held, blocked, h1, -⟩ := ih h
      exact ⟨⟨name, .remove⟩ :: held, blocked, by rw [h1]; simp [heldPush], by simp⟩
    · rename_i hheld
      have hnot : heldIn db name = false := Bool.eq_false_iff.2 hheld
      split at h
      · rename_i hskip
        refine hkept ?_ h
        intro n hn
        rw [List.mem_singleton.1 hn]
        exact ⟨hnot, by simp [hskip]⟩
      · split at h
        · exact absurd h (by simp)
        · rename_i dependents hdeps
          split at h
          · rename_i hkeep
            refine hkept ?_ h
            intro n hn
            rw [List.mem_singleton.1 hn]
            refine ⟨hnot, fun _ => ⟨dependents, hdeps, ?_⟩⟩
            simpa using hkeep
          · obtain ⟨held, blocked, h1, -⟩ := ih h
            refine ⟨held, ⟨name, dependents.filter fun d => d ∉ t.removeNames⟩ :: blocked, ?_, by simp⟩
            rw [h1]; simp

theorem pickFree_perm : ∀ (after before : List (CStr × Option Package)) {name : CStr}
    {left : List (CStr × Option Package)}, pickFree before after = some (some (name, left)) →
    (name :: left.map Prod.fst).Perm ((before ++ after).map Prod.fst) := by
  intro after
  induction after with
  | nil => intro before name left h; simp [pickFree] at h
  | cons e after ih =>
    intro before name left h
    unfold pickFree at h
    split at h
    · exact absurd h (by simp)
    · simp only [Option.some.injEq, Prod.mk.injEq] at h
      obtain ⟨rfl, rfl⟩ := h
      rw [List.map_append, List.map_append, List.map_cons]
      exact List.perm_middle.symm
    · have := ih (before ++ [e]) h
      rwa [List.append_assoc, List.singleton_append] at this

theorem removalOrder_perm : ∀ (n : ℕ) {pending : List (CStr × Option Package)} {order : List CStr},
    pending.length = n → removalOrder n pending = some order → order.Perm (pending.map Prod.fst) := by
  intro n
  induction n with
  | zero =>
    intro pending order hlen h
    simp only [removalOrder, Option.some.injEq] at h
    rw [List.length_eq_zero_iff.1 hlen, ← h]
    exact List.Perm.nil
  | succ n ih =>
    intro pending order hlen h
    match pending, hlen, h with
    | e :: rest, hlen, h =>
      simp only [removalOrder] at h
      split at h
      · exact absurd h (by simp)
      · rename_i name left hpick
        obtain ⟨order', horder, rfl⟩ := Option.map_eq_some_iff.1 h
        have hperm := pickFree_perm _ _ hpick
        -- one name less is left, so the fuel suffices
        have hleft : left.length = n := by
          have := hperm.length_eq
          simp only [List.length_cons, List.length_map, List.nil_append] at this hlen
          omega
        exact ((ih hleft horder).cons name).trans hperm
      · obtain ⟨order', horder, rfl⟩ := Option.map_eq_some_iff.1 h
        exact (ih (by simpa using hlen) horder).cons e.1

/-- The step of a removal. -/
def removeStep (name : CStr) : TransStep := ⟨.remove, name, none, true, none⟩

theorem foldl_removeStep : ∀ (order : List CStr) (t : ApgTrans),
    order.foldl (fun trans name => planPush trans .remove name none true none) t =
      { t with plan := t.plan ++ order.map removeStep } := by
  intro order
  induction order with
  | nil => intro t; simp
  | cons name order ih =>
    intro t
    rw [List.foldl_cons, ih]
    simp [planPush, removeStep]

theorem pushRemovalsInOrder_spec {t t' : ApgTrans} {names : List CStr}
    (h : pushRemovalsInOrder db t names = some t') :
    ∃ order : List CStr, order.Perm names ∧ t' = { t with plan := t.plan ++ order.map removeStep } := by
  unfold pushRemovalsInOrder at h
  obtain ⟨order, horder, rfl⟩ := Option.map_eq_some_iff.1 h
  refine ⟨order, ?_, foldl_removeStep order t⟩
  have := removalOrder_perm names.length (by simp) horder
  simpa [Function.comp_def] using this

/-! ## Files and the verdict -/

theorem pushFileConflicts_spec (db : Db) (name : CStr) : ∀ (files : List (Option CStr)) (t : ApgTrans),
    ∃ found, pushFileConflicts db name t files = { t with fileConflicts := t.fileConflicts ++ found } := by
  intro files
  induction files with
  | nil => intro t; exact ⟨[], by simp [pushFileConflicts]⟩
  | cons o files ih =>
    intro t
    cases o with
    | none => exact ih t
    | some path =>
      unfold pushFileConflicts
      split
      · exact ih t
      · rename_i owner _
        split
        · exact ih t
        · obtain ⟨found, h⟩ := ih { t with fileConflicts := t.fileConflicts ++ [⟨path, name, owner⟩] }
          exact ⟨⟨path, name, owner⟩ :: found, by rw [h]; simp⟩

theorem collectFiles_metadata (collect : Ptr → Option (List CStr)) (mem : Heap) (p q : Ptr) :
    (collectFiles collect mem p q).metadata = (mem q).metadata := by
  unfold collectFiles
  cases (mem p).packageFiles with
  | cons o files => rfl
  | nil =>
    cases collect p with
    | none => rfl
    | some files =>
      by_cases hq : q = p
      · subst hq; simp
      · simp [hq]

theorem checkFiles_spec (db : Db) (collect : Ptr → Option (List CStr)) : ∀ (pkgs : List Ptr) (mem : Heap) (t : ApgTrans),
    (∃ found, (checkFiles collect db pkgs mem t).2 = { t with fileConflicts := t.fileConflicts ++ found }) ∧
      ∀ q, ((checkFiles collect db pkgs mem t).1 q).metadata = (mem q).metadata := by
  intro pkgs
  induction pkgs with
  | nil => intro mem t; exact ⟨⟨[], by simp [checkFiles]⟩, fun q => rfl⟩
  | cons p pkgs ih =>
    intro mem t
    unfold checkFiles
    split
    · exact ih mem t
    · rename_i name hname
      simp only
      obtain ⟨found, hpush⟩ := pushFileConflicts_spec db name (collectFiles collect mem p p).packageFiles t
      rw [hpush]
      obtain ⟨⟨found', h1⟩, h2⟩ := ih (collectFiles collect mem p) { t with fileConflicts := t.fileConflicts ++ found }
      refine ⟨⟨found ++ found', ?_⟩, ?_⟩
      · rw [h1]; simp
      · intro q
        rw [h2, collectFiles_metadata]

theorem verdict_ok {t : ApgTrans} (h : (verdict t).1 = .ok) :
    t.heldPkgs = [] ∧ t.fileConflicts = [] ∧ t.blockedRemoves = [] ∧ t.conflicts = [] := by
  unfold verdict at h
  split_ifs at h with h1 h2 h3 h4
  simp only [ne_eq, not_not] at h1 h2 h3 h4
  exact ⟨h1, h2, h3, h4⟩

theorem verdict_snd {t : ApgTrans} (h : (verdict t).1 = .ok) : (verdict t).2 = { t with prepared := true } := by
  obtain ⟨h1, h2, h3, h4⟩ := verdict_ok h
  simp [verdict, h1, h2, h3, h4]

/-! ## The whole -/

/-- What a successful `trans_prepare` of a new transaction has done. -/
structure PrepareOK (mem : Heap) (db : Db) (trans : ApgTrans) (g : DepGraph) (order : List CStr)
    (installs : List TransStep) (removals : List CStr) (mem' : Heap) (t : ApgTrans) : Prop where
  graph : transGraph mem db trans = some g
  resolved : trans.skipDependencyCheck = false →
    depGraphResolveParallel g (trans.installPkgs.map (heapName mem)) = some (.ok order)
  steps : InstallSteps mem (installedNames db) trans (wantedNames mem trans order) installs
  noBreaks : ∀ p ∈ trans.installPkgs, depGraphFindBreaks g (heapName mem p) (installedNames db) = some (.ok [])
  removed : removals.Perm trans.removeNames
  plan : t.plan = installs ++ trans.upgradePkgs.map (upgradeStep mem db) ++ removals.map removeStep
  prepared : t.prepared = true
  committed : t.committed = false
  metadata : ∀ q, (mem' q).metadata = (mem q).metadata
  planned : planInstalls mem (installedNames db) g trans = some (.ok { trans with plan := installs })

/-- Beside that, it has looked at the files of the queued installs and found nothing,
and nothing stood against the upgrades and the removals. -/
theorem transPrepare_checked {collect : Ptr → Option (List CStr)} {mem' : Heap} {t : ApgTrans} (hf : Fresh mem trans)
    (h : transPrepare collect mem db trans = some (.ok, mem', t)) :
    (∃ g order installs removals, PrepareOK mem db trans g order installs removals mem' t) ∧
      (∃ t₀, (checkFiles collect db trans.installPkgs mem t₀).1 = mem' ∧
        (checkFiles collect db trans.installPkgs mem t₀).2.fileConflicts = []) ∧
      (∀ p ∈ trans.upgradePkgs, heldIn db (heapName mem p) = false) ∧ Removable db trans trans.removeNames := by
  unfold transPrepare at h
  rw [if_neg (by simp [hf.prepared])] at h
  split at h
  · exact absurd h (by simp)
  rename_i g hgraph
  split at h
  · exact absurd h (by simp)
  · -- a failed resolution is no success
    rename_i err hfail
    simp only [Option.some.injEq, Prod.mk.injEq] at h
    unfold planInstalls at hfail
    split_ifs at hfail
    · simp at hfail
    · simp at hfail
    · split at hfail <;> simp at hfail <;> rw [h.1] at hfail <;> exact absurd hfail (by simp)
  rename_i t₁ hinstalls
  obtain ⟨order, installs, rfl, hresolved, hsteps⟩ := planInstalls_ok hf hinstalls
  unfold prepareRest at h
  split at h
  · exact absurd h (by simp)
  rename_i tasks htasks
  obtain ⟨found, hpush, hnone⟩ := pushConflicts_spec tasks { trans with plan := installs }
  split at h
  · rename_i err t₂ hpc
    -- the code of a failed task is never `TRANS_OK`
    simp only [Option.some.injEq, Prod.mk.injEq] at h
    exact absurd (h.1 ▸ hpc) (pushConflicts_error_ne tasks _ _)
  rename_i t₂ hpc
  rw [hpc] at hpush hnone
  simp only at hpush hnone h
  obtain ⟨ups, heldUp, hups, hupsAll⟩ := foldl_pushUpgrade mem db trans.upgradePkgs t₂
  rw [hpush] at hups
  rw [hpush] at h
  simp only at hups h
  rw [hups] at h
  split at h
  · exact absurd h (by simp)
  rename_i removals t₃ hcollect
  obtain ⟨heldRm, blocked, rfl, hremovals⟩ := collectRemovals_spec _ hcollect
  split at h
  · exact absurd h (by simp)
  rename_i t₄ hrm
  obtain ⟨removed, hperm, rfl⟩ := pushRemovalsInOrder_spec hrm
  simp only [Option.some.injEq, Prod.mk.injEq] at h
  obtain ⟨hok, hmem, ht⟩ := h
  -- the verdict is good, so nothing was held, blocked or in conflict
  obtain ⟨hheld, hfound, hbl, hco⟩ := verdict_ok hok
  rw [verdict_snd hok] at ht
  obtain ⟨⟨fcs, hfiles⟩, hmeta⟩ := checkFiles_spec db collect trans.installPkgs mem
    { trans with
      plan := installs ++ ups ++ removed.map removeStep
      conflicts := trans.conflicts ++ found
      heldPkgs := trans.heldPkgs ++ heldUp ++ heldRm
      blockedRemoves := trans.blockedRemoves ++ blocked }
  rw [hfiles] at hheld hbl hco
  simp only [hf.heldPkgs, hf.blockedRemoves, hf.conflicts, List.nil_append, List.append_eq_nil_iff] at hheld hbl hco
  obtain ⟨hupsteps, hupfree⟩ := hupsAll hheld.1
  obtain ⟨hrmnames, hrmfree⟩ := hremovals hheld.2 hbl
  refine ⟨⟨g, order, installs, removed, hgraph, hresolved, hsteps, ?_, ?_, ?_, ?_, ?_, ?_, hinstalls⟩, ⟨_, hmem, hfound⟩,
    hupfree, hrmfree⟩
  · intro p hp
    obtain ⟨r, hr, hmemr⟩ := findConflicts_mem htasks (heapName mem p) (List.mem_map_of_mem hp)
    have hempty : r = .ok [] := hnone trivial hco (heapName mem p, r) hmemr
    rw [hr, hempty]
  · rw [hrmnames, List.nil_append] at hperm
    exact hperm
  · rw [← ht, ← hupsteps]
    exact congrArg ApgTrans.plan hfiles
  · rw [← ht]
  · rw [← ht]
    exact (congrArg ApgTrans.committed hfiles).trans hf.committed
  · intro q
    rw [← hmem]
    exact hmeta q

theorem transPrepare_ok {collect : Ptr → Option (List CStr)} {mem' : Heap} {t : ApgTrans} (hf : Fresh mem trans)
    (h : transPrepare collect mem db trans = some (.ok, mem', t)) :
    ∃ g order installs removals, PrepareOK mem db trans g order installs removals mem' t :=
  (transPrepare_checked hf h).1

/-! ## The shape of a plan -/

/-- Installs come before upgrades, and those before removals. -/
def TransOp.rank : TransOp → ℕ
  | .install => 0
  | .upgrade => 1
  | .remove => 2

/-- The steps stand in the order of their ranks, and a step that delivers a package
has one of its name. -/
structure PlanOK (mem : Heap) (plan : List TransStep) : Prop where
  ranked : plan.Pairwise fun a b => a.op.rank ≤ b.op.rank
  pkgs : ∀ step ∈ plan, step.op ≠ .remove → ∃ p, step.pkg = some p ∧ (mem p).metadata.name = some step.pkgName

theorem findPkg_name {pkgs : List Ptr} {n : CStr} {p : Ptr} (h : findPkg mem pkgs n = some p) :
    (mem p).metadata.name = some n := by
  unfold findPkg at h
  simpa using List.find?_some h

theorem firstQueued_name {n : CStr} {p : Ptr} (h : firstQueued mem trans n = some p) :
    (mem p).metadata.name = some n := by
  unfold firstQueued at h
  rcases Option.or_eq_some_iff.1 h with h | ⟨-, h⟩
  · exact findPkg_name h
  · exact findPkg_name h

theorem prepareOK_planOK {g : DepGraph} {order : List CStr} {installs : List TransStep} {removals : List CStr}
    {mem' : Heap} {t : ApgTrans} (hf : Fresh mem trans)
    (hp : PrepareOK mem db trans g order installs removals mem' t) : PlanOK mem' t.plan := by
  -- the plan is three blocks, each of one kind
  have hinst : ∀ s ∈ installs, s.op = .install := fun s hs => (hp.steps.sound s hs).1
  rw [hp.plan]
  refine ⟨?_, ?_⟩
  · rw [List.pairwise_append, List.pairwise_append]
    refine ⟨⟨?_, ?_, ?_⟩, ?_, ?_⟩
    · rw [List.pairwise_iff_forall_sublist]
      intro a b hab
      rw [hinst a (hab.subset (by simp)), hinst b (hab.subset (by simp))]
    · rw [List.pairwise_map]
      exact List.pairwise_of_forall fun _ _ => le_refl _
    · intro a ha b _
      rw [hinst a ha]; exact Nat.zero_le _
    · rw [List.pairwise_map]
      exact List.pairwise_of_forall fun _ _ => le_refl _
    · intro a _ b hb
      obtain ⟨n, -, rfl⟩ := List.mem_map.1 hb
      have hrm : (removeStep n).op.rank = 2 := rfl
      rw [hrm]
      cases a.op <;> decide
  · intro step hstep hop
    rw [List.mem_append, List.mem_append] at hstep
    rcases hstep with (hs | hs) | hs
    · obtain ⟨-, -, -, p, hq, hpkg⟩ := hp.steps.sound step hs
      exact ⟨p, hpkg, hp.metadata p ▸ firstQueued_name hq⟩
    · obtain ⟨p, hpq, rfl⟩ := List.mem_map.1 hs
      exact ⟨p, rfl, hp.metadata p ▸ name_of_ne_none (hf.named p (Or.inr (Or.inr hpq)))⟩
    · obtain ⟨n, -, rfl⟩ := List.mem_map.1 hs
      exact absurd rfl hop

end Apg
