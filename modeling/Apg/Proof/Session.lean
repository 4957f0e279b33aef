import Apg.Proof.Db
import Apg.Proof.Phases
import Apg.Spec.Session

/-!
# Preparing a transaction again

Every phase of `trans_prepare` adds to the plan and to the findings, and never takes
away. So a call that is not the first starts with what the earlier ones found, and
once one of them has succeeded nothing is looked at any more.

* `prepareSteps_behind`: what a call finds does not depend on what is there.
* `transPrepare_again`: a second call finds the same.
* `careful_reflects`: **as long as nothing is done between a call that records
  something and the next one, every call returns what a new transaction would get.**
-/

namespace Apg

variable {mem mem' : Heap} {db : Db} {collect : Ptr → Option (List CStr)}

/-! ## A call up to its verdict -/

/-- `trans_prepare` up to the files; the error is one that ends the call before. -/
def prepareSteps (mem : Heap) (db : Db) (trans : ApgTrans) : Option (Option TransError × ApgTrans) := do
  let g ← transGraph mem db trans
  match ← planInstalls mem (installedNames db) g trans with
  | .error err => return (some err, trans)
  | .ok t =>
    let tasks ← findConflicts g (installedNames db) (t.installPkgs.map (heapName mem))
    match pushConflicts tasks t with
    | (.error err, t) => return (some err, t)
    | (.ok (), t) =>
      let t := t.upgradePkgs.foldl (pushUpgrade mem db) t
      let (removals, t) ← collectRemovals db t.removeNames t []
      let t ← pushRemovalsInOrder db t removals
      return (none, t)

/-- The files, if the call gets there. -/
def prepareFiles (collect : Ptr → Option (List CStr)) (mem : Heap) (db : Db) :
    Option TransError × ApgTrans → Option TransError × Heap × ApgTrans
  | (some err, t) => (some err, mem, t)
  | (none, t) => (none, checkFiles collect db t.installPkgs mem t)

/-- What a call returns for what it has found. -/
def conclude : Option TransError × Heap × ApgTrans → TransError × Heap × ApgTrans
  | (some err, mem, t) => (err, mem, t)
  | (none, mem, t) => ((verdict t).1, mem, (verdict t).2)

theorem transPrepare_eq {trans : ApgTrans} (h : trans.prepared = false) :
    transPrepare collect mem db trans =
      (prepareSteps mem db trans).map fun r => conclude (prepareFiles collect mem db r) := by
  unfold transPrepare prepareSteps
  rw [if_neg (by simp [h])]
  cases hg : transGraph mem db trans with
  | none => rfl
  | some g =>
    simp only [Option.bind_eq_bind, Option.bind_some]
    cases hplan : planInstalls mem (installedNames db) g trans with
    | none => rfl
    | some r =>
      cases r with
      | error err => rfl
      | ok t =>
        simp only [Option.bind_some]
        unfold prepareRest
        cases htasks : findConflicts g (installedNames db) (t.installPkgs.map (heapName mem)) with
        | none => rfl
        | some tasks =>
          simp only [Option.bind_some]
          cases hpush : pushConflicts tasks t with
          | mk r t₂ =>
            cases r with
            | error err => rfl
            | ok _ =>
              simp only
              cases hrm : collectRemovals db (t₂.upgradePkgs.foldl (pushUpgrade mem db) t₂).removeNames
                  (t₂.upgradePkgs.foldl (pushUpgrade mem db) t₂) [] with
              | none => rfl
              | some r =>
                simp only [Option.bind_some]
                cases horder : pushRemovalsInOrder db r.2 r.1 with
                | none => rfl
                | some t₄ => rfl

/-! ## What is there does not count -/

/-- The transaction with the findings of `o` before its own, and another plan. -/
def behind (o : ApgTrans) (plan : List TransStep) (u : ApgTrans) : ApgTrans :=
  { u with
    plan := plan
    conflicts := o.conflicts ++ u.conflicts
    blockedRemoves := o.blockedRemoves ++ u.blockedRemoves
    fileConflicts := o.fileConflicts ++ u.fileConflicts
    heldPkgs := o.heldPkgs ++ u.heldPkgs }

theorem foldl_pushQueued_plan (mem : Heap) (installed : List CStr) : ∀ (pkgs : List Ptr) (t : ApgTrans),
    ∃ plan, pkgs.foldl (pushQueued mem installed) t = { t with plan := plan } := by
  have hone : ∀ (t : ApgTrans) p, ∃ plan, pushQueued mem installed t p = { t with plan := plan } := by
    intro t p
    unfold pushQueued
    simp only
    split
    · exact ⟨t.plan, rfl⟩
    · split
      · exact ⟨t.plan, rfl⟩
      · exact ⟨_, rfl⟩
  intro pkgs
  induction pkgs with
  | nil => intro t; exact ⟨t.plan, rfl⟩
  | cons p pkgs ih =>
    intro t
    obtain ⟨plan₁, h₁⟩ := hone t p
    obtain ⟨plan, h⟩ := ih { t with plan := plan₁ }
    exact ⟨plan, by rw [List.foldl_cons, h₁, h]⟩

section

variable (o : ApgTrans)

theorem foldl_pushQueued_behind (mem : Heap) (installed : List CStr) (pkgs : List Ptr) (plan : List TransStep)
    (u : ApgTrans) : ∃ plan', pkgs.foldl (pushQueued mem installed) (behind o plan u) =
      behind o plan' (pkgs.foldl (pushQueued mem installed) u) := by
  obtain ⟨plan₁, h₁⟩ := foldl_pushQueued_plan mem installed pkgs (behind o plan u)
  obtain ⟨plan₂, h₂⟩ := foldl_pushQueued_plan mem installed pkgs u
  refine ⟨plan₁, ?_⟩
  rw [h₁, h₂]
  rfl

theorem foldl_pushNeeded_behind (mem : Heap) (installed order : List CStr) (plan : List TransStep) (u : ApgTrans) :
    ∃ plan', order.foldl (pushNeeded mem installed) (behind o plan u) =
      behind o plan' (order.foldl (pushNeeded mem installed) u) := by
  obtain ⟨steps, h₁, -⟩ := foldl_pushNeeded mem installed order (behind o plan u)
  obtain ⟨steps', h₂, -⟩ := foldl_pushNeeded mem installed order u
  refine ⟨plan ++ steps, ?_⟩
  rw [h₁, h₂]
  rfl

theorem planInstalls_behind (mem : Heap) (installed : List CStr) (g : DepGraph) (plan : List TransStep) (u : ApgTrans) :
    ∃ plan', planInstalls mem installed g (behind o plan u) =
      (planInstalls mem installed g u).map fun r => r.map (behind o plan') := by
  have hinstall : (behind o plan u).installPkgs = u.installPkgs := rfl
  have hskip : (behind o plan u).skipDependencyCheck = u.skipDependencyCheck := rfl
  unfold planInstalls
  rw [hinstall, hskip]
  split
  · exact ⟨plan, rfl⟩
  split
  · obtain ⟨plan', h⟩ := foldl_pushQueued_behind o mem installed u.installPkgs plan u
    exact ⟨plan', by rw [h]; rfl⟩
  · cases hres : depGraphResolveParallel g (u.installPkgs.map (heapName mem)) with
    | none => exact ⟨plan, rfl⟩
    | some r =>
      cases r with
      | ok order =>
        obtain ⟨plan', h⟩ := foldl_pushNeeded_behind o mem installed order plan u
        exact ⟨plan', by simp only; rw [h]; rfl⟩
      | error e =>
        cases e with
        | null => exact ⟨plan, rfl⟩
        | fail err _ => cases err <;> exact ⟨plan, rfl⟩

theorem foldl_conflictPush_behind (plan : List TransStep) (name : CStr) (breaks : List CStr) (u : ApgTrans) :
    breaks.foldl (fun t b => conflictPush t name b) (behind o plan u) =
      behind o plan (breaks.foldl (fun t b => conflictPush t name b) u) := by
  rw [foldl_conflictPush, foldl_conflictPush]
  unfold behind
  rw [List.append_assoc]

theorem pushConflicts_behind (plan : List TransStep) : ∀ (tasks : List (CStr × Except DepError (List CStr)))
    (u : ApgTrans), pushConflicts tasks (behind o plan u) =
      ((pushConflicts tasks u).1, behind o plan (pushConflicts tasks u).2) := by
  intro tasks
  induction tasks with
  | nil => intro u; rfl
  | cons task tasks ih =>
    intro u
    obtain ⟨name, r⟩ := task
    cases r with
    | error e => rfl
    | ok breaks => rw [pushConflicts, pushConflicts, foldl_conflictPush_behind, ih]

theorem foldl_pushUpgrade_behind (mem : Heap) (db : Db) : ∀ (pkgs : List Ptr) (plan : List TransStep) (u : ApgTrans),
    ∃ plan', pkgs.foldl (pushUpgrade mem db) (behind o plan u) =
      behind o plan' (pkgs.foldl (pushUpgrade mem db) u) := by
  intro pkgs
  induction pkgs with
  | nil => intro plan u; exact ⟨plan, rfl⟩
  | cons p pkgs ih =>
    intro plan u
    have hone : ∃ plan₁, pushUpgrade mem db (behind o plan u) p = behind o plan₁ (pushUpgrade mem db u p) := by
      unfold pushUpgrade
      simp only
      split
      · refine ⟨plan, ?_⟩
        unfold heldPush behind
        rw [List.append_assoc]
      · exact ⟨_, rfl⟩
    obtain ⟨plan₁, h₁⟩ := hone
    obtain ⟨plan', h⟩ := ih plan₁ (pushUpgrade mem db u p)
    exact ⟨plan', by rw [List.foldl_cons, List.foldl_cons, h₁, h]⟩

theorem collectRemovals_behind (plan : List TransStep) : ∀ (names : List CStr) (u : ApgTrans) (acc : List CStr),
    collectRemovals db names (behind o plan u) acc =
      (collectRemovals db names u acc).map fun r => (r.1, behind o plan r.2) := by
  intro names
  induction names with
  | nil => intro u acc; rfl
  | cons name names ih =>
    intro u acc
    have hheld : heldPush (behind o plan u) name .remove = behind o plan (heldPush u name .remove) := by
      unfold heldPush behind
      rw [List.append_assoc]
    unfold collectRemovals
    simp only
    split
    · rw [hheld]
      exact ih _ _
    have hskip : (behind o plan u).skipDependentsCheck = u.skipDependentsCheck := rfl
    rw [hskip]
    split
    · exact ih _ _
    cases dbGetDependents db name with
    | none => rfl
    | some dependents =>
      have hremove : (behind o plan u).removeNames = u.removeNames := rfl
      simp only
      rw [hremove]
      split
      · exact ih _ _
      · rw [← ih]
        congr 1
        unfold behind
        rw [List.append_assoc]

theorem pushRemovalsInOrder_behind (db : Db) (plan : List TransStep) (u : ApgTrans) (names : List CStr) :
    ∃ plan', pushRemovalsInOrder db (behind o plan u) names =
      (pushRemovalsInOrder db u names).map (behind o plan') := by
  unfold pushRemovalsInOrder
  cases removalOrder names.length (names.map fun name => (name, dbGet db name)) with
  | none => exact ⟨plan, rfl⟩
  | some order =>
    have hpush : ∀ (order : List CStr) (plan : List TransStep) (u : ApgTrans), ∃ plan',
        order.foldl (fun t name => planPush t .remove name none true none) (behind o plan u) =
          behind o plan' (order.foldl (fun t name => planPush t .remove name none true none) u) := by
      intro order
      induction order with
      | nil => intro plan u; exact ⟨plan, rfl⟩
      | cons name order ih =>
        intro plan u
        exact ih (plan ++ [⟨.remove, name, none, true, none⟩]) (planPush u .remove name none true none)
    obtain ⟨plan', h⟩ := hpush order plan u
    exact ⟨plan', by rw [Option.map_some, Option.map_some, Option.map_some, h]⟩

theorem pushFileConflicts_behind (plan : List TransStep) (name : CStr) : ∀ (files : List (Option CStr)) (u : ApgTrans),
    pushFileConflicts db name (behind o plan u) files = behind o plan (pushFileConflicts db name u files) := by
  intro files
  induction files with
  | nil => intro u; rfl
  | cons f files ih =>
    intro u
    cases f with
    | none => exact ih u
    | some path =>
      unfold pushFileConflicts
      cases dbOwner db path with
      | none => exact ih u
      | some owner =>
        simp only
        split
        · exact ih u
        · rw [← ih]
          congr 1
          unfold behind
          rw [List.append_assoc]

theorem checkFiles_behind (plan : List TransStep) : ∀ (pkgs : List Ptr) (mem : Heap) (u : ApgTrans),
    checkFiles collect db pkgs mem (behind o plan u) =
      ((checkFiles collect db pkgs mem u).1, behind o plan (checkFiles collect db pkgs mem u).2) := by
  intro pkgs
  induction pkgs with
  | nil => intro mem u; rfl
  | cons p pkgs ih =>
    intro mem u
    unfold checkFiles
    cases (mem p).metadata.name with
    | none => exact ih mem u
    | some name =>
      simp only
      rw [pushFileConflicts_behind, ih]

/-- **What a call finds does not depend on what is there**: it is added behind it. -/
theorem prepareSteps_behind (mem : Heap) (db : Db) (plan : List TransStep) (u : ApgTrans) :
    ∃ plan', prepareSteps mem db (behind o plan u) =
      (prepareSteps mem db u).map fun r => (r.1, behind o plan' r.2) := by
  have hgraph : transGraph mem db (behind o plan u) = transGraph mem db u := rfl
  unfold prepareSteps
  rw [hgraph]
  cases transGraph mem db u with
  | none => exact ⟨plan, rfl⟩
  | some g =>
    simp only [Option.bind_eq_bind, Option.bind_some]
    obtain ⟨plan₁, hplan⟩ := planInstalls_behind o mem (installedNames db) g plan u
    rw [hplan]
    cases planInstalls mem (installedNames db) g u with
    | none => exact ⟨plan, rfl⟩
    | some r =>
      cases r with
      | error err => exact ⟨plan, rfl⟩
      | ok t =>
        simp only [Option.map_some, Option.bind_some, Except.map]
        have hqueue : (behind o plan₁ t).installPkgs = t.installPkgs := rfl
        rw [hqueue]
        cases findConflicts g (installedNames db) (t.installPkgs.map (heapName mem)) with
        | none => exact ⟨plan, rfl⟩
        | some tasks =>
          simp only [Option.bind_some]
          rw [pushConflicts_behind]
          cases pushConflicts tasks t with
          | mk r t₂ =>
            cases r with
            | error err => exact ⟨plan₁, rfl⟩
            | ok _ =>
              simp only
              have hups : (behind o plan₁ t₂).upgradePkgs = t₂.upgradePkgs := rfl
              obtain ⟨plan₂, hfold⟩ := foldl_pushUpgrade_behind o mem db t₂.upgradePkgs plan₁ t₂
              rw [hups, hfold]
              have hrms : (behind o plan₂ (t₂.upgradePkgs.foldl (pushUpgrade mem db) t₂)).removeNames =
                (t₂.upgradePkgs.foldl (pushUpgrade mem db) t₂).removeNames := rfl
              rw [hrms, collectRemovals_behind]
              cases collectRemovals db (t₂.upgradePkgs.foldl (pushUpgrade mem db) t₂).removeNames
                  (t₂.upgradePkgs.foldl (pushUpgrade mem db) t₂) [] with
              | none => exact ⟨plan, rfl⟩
              | some r =>
                simp only [Option.map_some, Option.bind_some]
                obtain ⟨plan₃, horder⟩ := pushRemovalsInOrder_behind o db plan₂ r.2 r.1
                rw [horder]
                cases pushRemovalsInOrder db r.2 r.1 with
                | none => exact ⟨plan, rfl⟩
                | some t₄ => exact ⟨plan₃, rfl⟩

end

/-! ## The queue is left alone -/

theorem planInstalls_cases {installed : List CStr} {g : DepGraph} {u : ApgTrans} {r : Except TransError ApgTrans}
    (h : planInstalls mem installed g u = some r) :
    (∃ plan, r = .ok { u with plan := plan }) ∨ ∃ err, r = .error err ∧ err ≠ .ok := by
  unfold planInstalls at h
  split at h
  · exact Or.inl ⟨u.plan, (Option.some.inj h).symm⟩
  split at h
  · obtain ⟨plan, hfold⟩ := foldl_pushQueued_plan mem installed u.installPkgs u
    rw [hfold] at h
    exact Or.inl ⟨plan, (Option.some.inj h).symm⟩
  split at h
  any_goals simp at h
  · exact Or.inr ⟨.cycle, h.symm, by simp⟩
  · exact Or.inr ⟨.missingDep, h.symm, by simp⟩
  · exact Or.inr ⟨.missingDep, h.symm, by simp⟩
  · exact Or.inr ⟨.nomem, h.symm, by simp⟩
  · rename_i order _
    obtain ⟨steps, hfold, -⟩ := foldl_pushNeeded mem installed order u
    rw [hfold] at h
    exact Or.inl ⟨_, h.symm⟩

/-- A call changes the plan and the findings only, and the errors that end it early
are errors. -/
theorem prepareSteps_queue {u t : ApgTrans} {e : Option TransError} (h : prepareSteps mem db u = some (e, t)) :
    renewed t = renewed u ∧ t.prepared = u.prepared ∧ ∀ err, e = some err → err ≠ .ok := by
  unfold prepareSteps at h
  obtain ⟨g, -, h⟩ := Option.bind_eq_some_iff.1 h
  obtain ⟨r, hplan, h⟩ := Option.bind_eq_some_iff.1 h
  rcases planInstalls_cases hplan with ⟨plan, rfl⟩ | ⟨err, rfl, herr⟩
  · simp only at h
    obtain ⟨tasks, -, h⟩ := Option.bind_eq_some_iff.1 h
    obtain ⟨found, hpush, -⟩ := pushConflicts_spec tasks { u with plan := plan }
    have hne := pushConflicts_error_ne tasks { u with plan := plan }
    generalize pushConflicts tasks { u with plan := plan } = pushed at h hpush hne
    obtain ⟨r, t₂⟩ := pushed
    simp only at hpush
    cases r with
    | error err =>
      simp only [Option.pure_def, Option.some.injEq, Prod.mk.injEq] at h
      obtain ⟨rfl, rfl⟩ := h
      rw [hpush]
      refine ⟨rfl, rfl, fun err' herr' => ?_⟩
      rw [← Option.some.inj herr']
      rintro rfl
      exact hne t₂ rfl
    | ok _ =>
      simp only at h
      obtain ⟨steps, held, hups, -⟩ := foldl_pushUpgrade mem db t₂.upgradePkgs t₂
      rw [hups] at h
      obtain ⟨⟨removals, t₃⟩, hcollect, h⟩ := Option.bind_eq_some_iff.1 h
      obtain ⟨held', blocked, rfl, -⟩ := collectRemovals_spec _ hcollect
      obtain ⟨t₄, horder, h⟩ := Option.bind_eq_some_iff.1 h
      obtain ⟨order, -, rfl⟩ := pushRemovalsInOrder_spec horder
      simp only [Option.pure_def, Option.some.injEq, Prod.mk.injEq] at h
      obtain ⟨rfl, rfl⟩ := h
      rw [hpush]
      exact ⟨rfl, rfl, fun err herr => absurd herr (by simp)⟩
  · simp only [Option.pure_def, Option.some.injEq, Prod.mk.injEq] at h
    obtain ⟨rfl, rfl⟩ := h
    refine ⟨rfl, rfl, fun err' herr' => ?_⟩
    rw [← Option.some.inj herr']
    exact herr

/-! ## A second call -/

section

variable (hmeta : ∀ q, (mem' q).metadata = (mem q).metadata)

include hmeta

theorem heapName_congr : heapName mem' = heapName mem := by
  funext p
  unfold heapName
  rw [hmeta]

theorem metadataOf_congr (pkgs : List Ptr) : metadataOf mem' pkgs = metadataOf mem pkgs := by
  unfold metadataOf
  exact List.map_congr_left fun p _ => hmeta p

theorem findPkg_congr (pkgs : List Ptr) (name : CStr) : findPkg mem' pkgs name = findPkg mem pkgs name := by
  unfold findPkg
  simp only [hmeta]

theorem planInstalls_congr (installed : List CStr) (g : DepGraph) (u : ApgTrans) :
    planInstalls mem' installed g u = planInstalls mem installed g u := by
  have hqueued : pushQueued mem' installed = pushQueued mem installed := by
    funext t p
    unfold pushQueued
    rw [heapName_congr hmeta, hmeta]
  have hneeded : pushNeeded mem' installed = pushNeeded mem installed := by
    funext t name
    unfold pushNeeded isExplicit findInstallPkg findCandidatePkg
    simp only [findPkg_congr hmeta, hmeta]
  unfold planInstalls
  rw [hqueued, hneeded, heapName_congr hmeta]

/-- The steps are planned from the metadata of the packages. -/
theorem prepareSteps_congr (db : Db) (u : ApgTrans) : prepareSteps mem' db u = prepareSteps mem db u := by
  have hgraph : transGraph mem' db u = transGraph mem db u := by
    unfold transGraph
    rw [metadataOf_congr hmeta, metadataOf_congr hmeta, metadataOf_congr hmeta]
  have hupgrade : pushUpgrade mem' db = pushUpgrade mem db := by
    funext t p
    unfold pushUpgrade
    rw [heapName_congr hmeta, hmeta]
  unfold prepareSteps
  simp only [hgraph, planInstalls_congr hmeta, heapName_congr hmeta, hupgrade]

end

/-- Some packages have their lists from their archives already. -/
def PartlyCollected (collect : Ptr → Option (List CStr)) (mem m : Heap) : Prop :=
  ∀ q, m q = mem q ∨ m q = collectFiles collect mem q q

theorem PartlyCollected.metadata {m : Heap} (h : PartlyCollected collect mem m) (q : Ptr) :
    (m q).metadata = (mem q).metadata := by
  rcases h q with h | h
  · rw [h]
  · rw [h, collectFiles_metadata]

/-- Whoever has a list already, the package at hand has it after the call. -/
theorem PartlyCollected.collectFiles {m : Heap} (h : PartlyCollected collect mem m) (p : Ptr) :
    collectFiles collect m p = Function.update m p (Apg.collectFiles collect mem p p) := by
  have hp := h p
  unfold Apg.collectFiles at hp ⊢
  cases hfiles : (mem p).packageFiles with
  | cons o files =>
    simp only [hfiles, or_self] at hp
    rw [hp, hfiles]
    simp only
    rw [← hp, Function.update_eq_self]
  | nil =>
    cases hcollect : collect p with
    | none =>
      simp only [hfiles, hcollect, or_self] at hp
      rw [hp, hfiles]
      simp only
      rw [← hp, Function.update_eq_self]
    | some files =>
      simp only [hfiles, hcollect, Function.update_self] at hp ⊢
      rcases hp with hp | hp
      · rw [hp, hfiles]
      · cases files with
        | nil =>
          rw [hp]
          simp only [List.map_nil]
        | cons f files =>
          rw [hp]
          simp only [List.map_cons]
          rw [← List.map_cons, ← hp, Function.update_eq_self]

theorem PartlyCollected.update {m : Heap} (h : PartlyCollected collect mem m) (p : Ptr) :
    PartlyCollected collect mem (Function.update m p (Apg.collectFiles collect mem p p)) := by
  intro q
  by_cases hq : q = p
  · subst hq
    rw [Function.update_self]
    exact Or.inr rfl
  · rw [Function.update_of_ne hq]
    exact h q

/-- What the check of the files finds does not depend on who has a list already. -/
theorem checkFiles_partly : ∀ (pkgs : List Ptr) {m m' : Heap} (t : ApgTrans), PartlyCollected collect mem m →
    PartlyCollected collect mem m' → (checkFiles collect db pkgs m t).2 = (checkFiles collect db pkgs m' t).2 := by
  intro pkgs
  induction pkgs with
  | nil => intro m m' t _ _; rfl
  | cons p pkgs ih =>
    intro m m' t h h'
    unfold checkFiles
    rw [h.metadata p, h'.metadata p]
    cases (mem p).metadata.name with
    | none => exact ih t h h'
    | some name =>
      simp only
      rw [h.collectFiles p, h'.collectFiles p, Function.update_self, Function.update_self]
      exact ih _ (h.update p) (h'.update p)

/-- After the check the packages that have a name have their lists. -/
theorem checkFiles_heap : ∀ (pkgs : List Ptr) {m : Heap} (t : ApgTrans), PartlyCollected collect mem m →
    ∀ q, (checkFiles collect db pkgs m t).1 q =
      if q ∈ pkgs ∧ (mem q).metadata.name ≠ none then collectFiles collect mem q q else m q := by
  intro pkgs
  induction pkgs with
  | nil => intro m t _ q; simp [checkFiles]
  | cons p pkgs ih =>
    intro m t h q
    unfold checkFiles
    rw [h.metadata p]
    cases hname : (mem p).metadata.name with
    | none =>
      simp only
      rw [ih t h q]
      by_cases hq : q = p
      · subst hq; simp [hname]
      · simp [hq]
    | some name =>
      simp only
      rw [h.collectFiles p, ih _ (h.update p) q]
      by_cases hq : q = p
      · subst hq; simp [hname]
      · simp [hq]

theorem checkFiles_again {pkgs : List Ptr} {t : ApgTrans} :
    checkFiles collect db pkgs (checkFiles collect db pkgs mem t).1 t = checkFiles collect db pkgs mem t := by
  have hmem : PartlyCollected collect mem mem := fun q => Or.inl rfl
  have hafter : PartlyCollected collect mem (checkFiles collect db pkgs mem t).1 := by
    intro q
    rw [checkFiles_heap pkgs t hmem q]
    split
    · exact Or.inr rfl
    · exact Or.inl rfl
  apply Prod.ext
  · funext q
    rw [checkFiles_heap pkgs t hafter q, checkFiles_heap pkgs t hmem q]
    split <;> rfl
  · exact checkFiles_partly pkgs t hafter hmem

/-- **A second call finds the same**, from what the first one has read of the
archives. -/
theorem transPrepare_again {trans t : ApgTrans} {err : TransError} (h : trans.prepared = false)
    (hrun : transPrepare collect mem db trans = some (err, mem', t)) :
    transPrepare collect mem' db trans = some (err, mem', t) := by
  rw [transPrepare_eq h] at hrun ⊢
  obtain ⟨⟨e, t₁⟩, hsteps, hend⟩ := Option.map_eq_some_iff.1 hrun
  cases e with
  | some e =>
    have hmem : mem = mem' := congrArg (·.2.1) hend
    rw [← hmem]
    rw [← hmem] at hend
    exact Option.map_eq_some_iff.2 ⟨_, hsteps, hend⟩
  | none =>
    have hmem : (checkFiles collect db t₁.installPkgs mem t₁).1 = mem' := congrArg (·.2.1) hend
    have hmeta : ∀ q, (mem' q).metadata = (mem q).metadata := by
      rw [← hmem]
      exact (checkFiles_spec db collect t₁.installPkgs mem t₁).2
    have hagain : checkFiles collect db t₁.installPkgs mem' t₁ = checkFiles collect db t₁.installPkgs mem t₁ := by
      rw [← hmem]
      exact checkFiles_again
    rw [prepareSteps_congr hmeta, hsteps, Option.map_some, ← hend]
    simp only [prepareFiles]
    rw [hagain]

/-! ## Runs -/

/-- No call has left anything in the transaction. -/
structure NothingRecorded (trans : ApgTrans) : Prop where
  plan : trans.plan = []
  conflicts : trans.conflicts = []
  blockedRemoves : trans.blockedRemoves = []
  fileConflicts : trans.fileConflicts = []
  heldPkgs : trans.heldPkgs = []
  prepared : trans.prepared = false

theorem NothingRecorded.renewed_eq {trans : ApgTrans} (h : NothingRecorded trans) : renewed trans = trans := by
  unfold renewed
  rw [← h.plan, ← h.conflicts, ← h.blockedRemoves, ← h.fileConflicts, ← h.heldPkgs, ← h.prepared]

/-- **The runs in which nothing is done between a call of `trans_prepare` that records
something and the next one**: each call is made on a transaction in which nothing is
recorded, or directly after another call. The flag says that the last call was one. -/
inductive Careful (collect : Ptr → Option (List CStr)) : Session → Bool → Prop
  | new (mem : Heap) (db : Db) : Careful collect ⟨mem, db, transNew⟩ false
  | other {s s' : Session} {again : Bool} (c : TransCall) : Careful collect s again → c ≠ .prepare →
      s.call collect c = some s' → Careful collect s' false
  | prepare {s s' : Session} {again : Bool} : Careful collect s again → again = true ∨ NothingRecorded s.trans →
      s.call collect .prepare = some s' → Careful collect s' true

/-- The same kinds of findings. -/
structure SameKinds (t u : ApgTrans) : Prop where
  conflicts : t.conflicts = [] ↔ u.conflicts = []
  blockedRemoves : t.blockedRemoves = [] ↔ u.blockedRemoves = []
  fileConflicts : t.fileConflicts = [] ↔ u.fileConflicts = []
  heldPkgs : t.heldPkgs = [] ↔ u.heldPkgs = []

theorem SameKinds.verdict {t u : ApgTrans} (h : SameKinds t u) : (verdict t).1 = (verdict u).1 := by
  unfold Apg.verdict
  simp only [ne_eq, h.conflicts, h.blockedRemoves, h.fileConflicts, h.heldPkgs]
  split_ifs <;> rfl

theorem SameKinds.behind {o u : ApgTrans} (h : SameKinds o u) (plan : List TransStep) :
    SameKinds (Apg.behind o plan u) u := by
  unfold Apg.behind
  refine ⟨?_, ?_, ?_, ?_⟩
  all_goals rw [List.append_eq_nil_iff]
  · rw [h.conflicts, and_self]
  · rw [h.blockedRemoves, and_self]
  · rw [h.fileConflicts, and_self]
  · rw [h.heldPkgs, and_self]

/-- A verdict that is no success changes nothing. -/
theorem verdict_error {t : ApgTrans} (h : (verdict t).1 ≠ .ok) : (verdict t).2 = t := by
  unfold verdict at h ⊢
  split_ifs at h ⊢
  all_goals first | rfl | exact absurd rfl h

/-- What a call has left is what a new transaction gets here: its plan, or findings of
the same kinds. -/
structure UpToDate (collect : Ptr → Option (List CStr)) (s : Session) (err : TransError) (t : ApgTrans) : Prop where
  fresh : transPrepare collect s.mem s.db (renewed s.trans) = some (err, s.mem, t)
  ok : s.trans.prepared = true → err = .ok ∧ s.trans.plan = t.plan
  error : s.trans.prepared = false → err ≠ .ok ∧ SameKinds s.trans t

/-- What a call does to a transaction that is not prepared. -/
theorem transPrepare_leaves {trans t : ApgTrans} {err : TransError} (h : trans.prepared = false)
    (hrun : transPrepare collect mem db trans = some (err, mem', t)) :
    renewed t = renewed trans ∧ (err = .ok ↔ t.prepared = true) := by
  rw [transPrepare_eq h] at hrun
  obtain ⟨⟨e, t₁⟩, hsteps, hend⟩ := Option.map_eq_some_iff.1 hrun
  obtain ⟨hqueue, hprep, herr⟩ := prepareSteps_queue hsteps
  cases e with
  | some e =>
    simp only [prepareFiles, conclude, Prod.mk.injEq] at hend
    obtain ⟨rfl, -, rfl⟩ := hend
    refine ⟨hqueue, fun hok => absurd hok (herr _ rfl), fun htrue => ?_⟩
    rw [hprep, h] at htrue
    exact absurd htrue (by simp)
  | none =>
    obtain ⟨⟨found, hfiles⟩, -⟩ := checkFiles_spec db collect t₁.installPkgs mem t₁
    simp only [prepareFiles, conclude, Prod.mk.injEq] at hend
    obtain ⟨rfl, -, rfl⟩ := hend
    by_cases hok : (verdict (checkFiles collect db t₁.installPkgs mem t₁).2).1 = .ok
    · rw [verdict_snd hok, hfiles]
      refine ⟨hqueue, fun _ => rfl, fun _ => ?_⟩
      rw [← hfiles]
      exact hok
    · rw [verdict_error hok, hfiles]
      refine ⟨hqueue, fun h' => ?_, fun htrue => ?_⟩
      · rw [← hfiles] at h'
        exact absurd h' hok
      · have hfalse : t₁.prepared = false := hprep.trans h
        rw [← hfiles, hfiles] at htrue
        exact absurd (hfalse.symm.trans htrue) (by simp)

/-- The first call. -/
theorem upToDate_first {s : Session} {err : TransError} {t : ApgTrans} (h : NothingRecorded s.trans)
    (hrun : transPrepare collect s.mem s.db s.trans = some (err, mem', t)) :
    UpToDate collect { s with mem := mem', trans := t } err t := by
  obtain ⟨hqueue, hok⟩ := transPrepare_leaves h.prepared hrun
  refine ⟨?_, fun hprep => ⟨hok.2 hprep, rfl⟩, fun hprep => ⟨fun heq => ?_, ⟨Iff.rfl, Iff.rfl, Iff.rfl, Iff.rfl⟩⟩⟩
  · show transPrepare collect mem' s.db (renewed t) = some (err, mem', t)
    rw [hqueue, h.renewed_eq]
    exact transPrepare_again h.prepared hrun
  · have htrue := hok.1 heq
    rw [hprep] at htrue
    exact absurd htrue (by simp)

/-- A call on a transaction with findings of the kinds a new one gets: it ends with the
same code, and adds the new findings to the old ones. -/
theorem transPrepare_behind {trans t t' : ApgTrans} {err err' : TransError} (hprep : trans.prepared = false)
    (hfresh : transPrepare collect mem db (renewed trans) = some (err, mem, t)) (hne : err ≠ .ok)
    (hkinds : SameKinds trans t) (hrun : transPrepare collect mem db trans = some (err', mem', t')) :
    ∃ plan, err' = err ∧ mem' = mem ∧ t' = behind trans plan t ∧ renewed t = renewed trans ∧ t.prepared = false := by
  -- the transaction is a new one with its own findings before those of the call
  have hself : trans = behind trans trans.plan (renewed trans) := by
    unfold behind renewed
    simp only [List.append_nil]
    rw [← hprep]
  obtain ⟨plan, hsteps⟩ := prepareSteps_behind trans mem db trans.plan (renewed trans)
  rw [← hself] at hsteps
  rw [transPrepare_eq rfl] at hfresh
  rw [transPrepare_eq hprep, hsteps] at hrun
  obtain ⟨⟨e, t₁⟩, hrunFresh, hend⟩ := Option.map_eq_some_iff.1 hfresh
  obtain ⟨hqueue, hprep₁, -⟩ := prepareSteps_queue hrunFresh
  rw [hrunFresh, Option.map_some, Option.map_some, Option.some.injEq] at hrun
  refine ⟨plan, ?_⟩
  -- both end early, or both come to a verdict over findings of the same kinds
  cases e with
  | some e =>
    simp only [prepareFiles, conclude, Prod.mk.injEq] at hend hrun
    obtain ⟨rfl, -, rfl⟩ := hend
    obtain ⟨rfl, rfl, rfl⟩ := hrun
    exact ⟨rfl, rfl, rfl, hqueue, hprep₁⟩
  | none =>
    obtain ⟨⟨found, hfiles⟩, -⟩ := checkFiles_spec db collect t₁.installPkgs mem t₁
    have hpkgs : (behind trans plan t₁).installPkgs = t₁.installPkgs := rfl
    simp only [prepareFiles, conclude, Prod.mk.injEq, hpkgs, checkFiles_behind] at hend hrun
    obtain ⟨hcode, hmem, hleft⟩ := hend
    have hbad : (verdict (checkFiles collect db t₁.installPkgs mem t₁).2).1 ≠ .ok := by rw [hcode]; exact hne
    rw [verdict_error hbad] at hleft
    rw [hleft] at hrun hcode
    have hsame := (hkinds.behind plan).verdict
    rw [hcode] at hsame
    have hbad' : (verdict (behind trans plan t)).1 ≠ .ok := by rw [hsame]; exact hne
    rw [verdict_error hbad', hsame] at hrun
    obtain ⟨rfl, rfl, rfl⟩ := hrun
    rw [hfiles] at hleft
    exact ⟨rfl, hmem, rfl, by rw [← hleft]; exact hqueue, by rw [← hleft]; exact hprep₁⟩

/-- **A call directly after another one** returns the code of a new transaction, and
leaves things as they are. -/
theorem upToDate_again {s : Session} {err err' : TransError} {t t' : ApgTrans} (h : UpToDate collect s err t)
    (hrun : transPrepare collect s.mem s.db s.trans = some (err', mem', t')) :
    err' = err ∧ (err = .ok → t'.plan = t.plan) ∧ UpToDate collect { s with mem := mem', trans := t' } err t := by
  cases hprep : s.trans.prepared with
  | true =>
    obtain ⟨rfl, hplan⟩ := h.ok hprep
    unfold transPrepare at hrun
    rw [if_pos hprep, Option.some.injEq, Prod.mk.injEq, Prod.mk.injEq] at hrun
    obtain ⟨rfl, rfl, rfl⟩ := hrun
    exact ⟨rfl, fun _ => hplan, h⟩
  | false =>
    obtain ⟨hne, hkinds⟩ := h.error hprep
    obtain ⟨plan, rfl, rfl, rfl, hqueue, hprep'⟩ := transPrepare_behind hprep h.fresh hne hkinds hrun
    refine ⟨rfl, fun heq => absurd heq hne, ?_, fun htrue => ?_, fun _ => ⟨hne, hkinds.behind plan⟩⟩
    · have hrenewed : renewed (behind s.trans plan t) = renewed s.trans := hqueue
      show transPrepare collect s.mem s.db (renewed (behind s.trans plan t)) = some (err', s.mem, t)
      rw [hrenewed]
      exact h.fresh
    · have hfalse : (behind s.trans plan t).prepared = false := hprep'
      rw [hfalse] at htrue
      exact absurd htrue (by simp)

/-- Where the last call was one of `trans_prepare`, it has left what a new
transaction gets. -/
theorem careful_upToDate {s : Session} {again : Bool} (h : Careful collect s again) :
    again = true → ∃ err t, UpToDate collect s err t := by
  induction h with
  | new mem db => intro hf; exact absurd hf (by simp)
  | other c _ _ _ _ => intro hf; exact absurd hf (by simp)
  | prepare _ hwhen hcall ih =>
    intro _
    obtain ⟨⟨err, mem', t⟩, hrun, rfl⟩ := Option.map_eq_some_iff.1 hcall
    rcases hwhen with hagain | hnothing
    · obtain ⟨err₀, t₀, huptodate⟩ := ih hagain
      exact ⟨err₀, t₀, (upToDate_again huptodate hrun).2.2⟩
    · exact ⟨err, t, upToDate_first hnothing hrun⟩

/-- **The result reflects the queue**: in every run in which nothing is done between a
call of `trans_prepare` that records something and the next one, every call returns
what a new transaction with the same queue would get from the database as it is. -/
theorem careful_reflects {s : Session} {again : Bool} (h : Careful collect s again)
    (hwhen : again = true ∨ NothingRecorded s.trans) : Reflects collect s := by
  intro err mem' t hrun
  rcases hwhen with hagain | hnothing
  · obtain ⟨err₀, t₀, huptodate⟩ := careful_upToDate h hagain
    obtain ⟨rfl, hplan, -⟩ := upToDate_again huptodate hrun
    exact ⟨s.mem, t₀, huptodate.fresh, hplan⟩
  · rw [hnothing.renewed_eq]
    exact ⟨mem', t, hrun, fun _ => rfl⟩

/-! ## Three runs -/

/-- `a` at address 1, and `b` everywhere else. -/
def aAndB : Heap := fun p => if p = 1 then bare "a" [] else bare "b" []

/-- `a` is queued and prepared, and then prepared again. -/
theorem careful_reflects_twice :
    ∃ s, Careful (fun _ => none) s true ∧ s.trans.plan.map (·.pkgName) = [cstr "a"] ∧ Reflects (fun _ => none) s := by
  have hruns : ∃ s₁, Session.call (fun _ => none) ⟨aAndB, dbOpen true true, transNew⟩ (.addInstall 1) = some s₁ ∧
      NothingRecorded s₁.trans ∧ ∃ s₂, s₁.call (fun _ => none) .prepare = some s₂ ∧
        s₂.trans.plan.map (·.pkgName) = [cstr "a"] :=
    ⟨_, rfl, ⟨rfl, rfl, rfl, rfl, rfl, rfl⟩, _, rfl, by decide⟩
  obtain ⟨s₁, h1, hnothing, s₂, h2, hplan⟩ := hruns
  have hcareful := Careful.prepare (Careful.other _ (Careful.new aAndB (dbOpen true true)) (by simp) h1)
    (Or.inr hnothing) h2
  exact ⟨s₂, hcareful, hplan, careful_reflects hcareful (Or.inl rfl)⟩

/-- **More is queued after a success**: the next call returns `TRANS_OK` with the old
plan. **What blocked a call is gone**: the next call still fails with it. -/
theorem careful_reflects_stale :
    (∃ s, [TransCall.addInstall 1, .prepare, .addInstall 2].foldlM (Session.call fun _ => none)
        ⟨aAndB, dbOpen true true, transNew⟩ = some s ∧ ¬Reflects (fun _ => none) s) ∧
    ∃ held free s, Reachable (fun _ => True) held ∧ dbSetHold (fun _ => .success) held (cstr "a") false = some (true, free) ∧
      [TransCall.addRemove (cstr "a"), .prepare, .changeDb free].foldlM (Session.call fun _ => none)
        ⟨aAndB, held, transNew⟩ = some s ∧ ¬Reflects (fun _ => none) s := by
  refine ⟨?_, ?_⟩
  · have hruns : ∃ s, [TransCall.addInstall 1, .prepare, .addInstall 2].foldlM (Session.call fun _ => none)
        ⟨aAndB, dbOpen true true, transNew⟩ = some s ∧
        (∃ mem t, transPrepare (fun _ => none) s.mem s.db s.trans = some (.ok, mem, t) ∧
          t.plan.map (·.pkgName) = [cstr "a"]) ∧
        (transPrepare (fun _ => none) s.mem s.db (renewed s.trans)).map (fun r => r.2.2.plan.map (·.pkgName)) =
          some [cstr "a", cstr "b"] :=
      ⟨_, rfl, ⟨_, _, rfl, by decide⟩, by decide⟩
    obtain ⟨s, hcalls, ⟨mem, t, hrun, hplan⟩, hfresh⟩ := hruns
    refine ⟨s, hcalls, fun hreflects => ?_⟩
    obtain ⟨mem', t', hrun', hsame⟩ := hreflects .ok mem t hrun
    rw [hrun', Option.map_some, Option.some.injEq, ← hsame rfl, hplan] at hfresh
    exact absurd hfresh (by decide)
  · have hruns : ∃ db, dbAdd (fun _ => .success) (dbOpen true true) (bare "a" []) = some (true, db) ∧
        ∃ held, dbSetHold (fun _ => .success) db (cstr "a") true = some (true, held) ∧
        ∃ free, dbSetHold (fun _ => .success) held (cstr "a") false = some (true, free) ∧
        ∃ s, [TransCall.addRemove (cstr "a"), .prepare, .changeDb free].foldlM (Session.call fun _ => none)
            ⟨aAndB, held, transNew⟩ = some s ∧
          (∃ mem t, transPrepare (fun _ => none) s.mem s.db s.trans = some (.held, mem, t)) ∧
          (transPrepare (fun _ => none) s.mem s.db (renewed s.trans)).map (·.1) = some .ok :=
      ⟨_, rfl, _, rfl, _, rfl, _, rfl, ⟨_, _, rfl⟩, by decide⟩
    obtain ⟨db, h1, held, h2, free, h3, s, hcalls, ⟨mem, t, hrun⟩, hfresh⟩ := hruns
    have hheld : Reachable (fun _ => True) held := ((Reachable.new true true).add _ trivial h1).setHold _ _ _ h2
    refine ⟨held, free, s, hheld, h3, hcalls, fun hreflects => ?_⟩
    obtain ⟨mem', t', hrun', -⟩ := hreflects .held mem t hrun
    rw [hrun'] at hfresh
    exact absurd hfresh (by simp)

end Apg
