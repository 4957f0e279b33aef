import Apg.Proof.Conflicts
import Apg.Proof.History

/-!
# Dependencies and conflicts over a history

What `trans_prepare` checks, and what it does not look at, decides whether the packages that
are recorded still have what they need once the transaction is over.

* `Transaction.On.dependenciesMet_iff`: **all dependencies stay met exactly if those that
  are not looked at do** (`Foreseen`).
* `Transaction.On.dependenciesMet_failed`: they stay met wherever a commit fails, since
  removals go dependents first.
* `run_dependenciesMet`, `run_conflictFree`: so in every run of a package manager.
-/

namespace Apg

variable {mem : Heap} {db db' : Db} {trans : ApgTrans}

/-! ## The order of removals -/

/-- **The removals of a plan are the queued ones, taken apart from their free ends.** -/
theorem transPrepare_peels {collect : Ptr → Option (List CStr)} {mem' : Heap} {t : ApgTrans} (hf : Fresh mem trans)
    (hnd : trans.removeNames.Nodup) (h : transPrepare collect mem db trans = some (.ok, mem', t)) :
    Peel.Peels (RemovalNeeds db) trans.removeNames (removedNames t.plan) := by
  obtain ⟨g, order, installs, removals, hp⟩ := transPrepare_ok hf h
  have hremoved := prepareOK_removed hp
  unfold transPrepare at h
  rw [if_neg (by simp [hf.prepared])] at h
  simp only [hp.graph, hp.planned] at h
  unfold prepareRest at h
  split at h
  · cases h
  rename_i tasks htasks
  obtain ⟨found, hpush, -⟩ := pushConflicts_spec tasks { trans with plan := installs }
  split at h
  · rename_i err t₂ hpc
    simp only [Option.some.injEq, Prod.mk.injEq] at h
    exact absurd (h.1 ▸ hpc) (pushConflicts_error_ne tasks _ _)
  rename_i t₂ hpc
  rw [hpc] at hpush
  simp only at hpush h
  obtain ⟨ups, heldUp, hups, -⟩ := foldl_pushUpgrade mem db trans.upgradePkgs t₂
  rw [hpush] at hups h
  simp only at hups h
  rw [hups] at h
  split at h
  · cases h
  rename_i names t₃ hcollect
  obtain ⟨heldRm, blocked, rfl, hnames⟩ := collectRemovals_spec _ hcollect
  split at h
  · cases h
  rename_i t₄ hrm
  unfold pushRemovalsInOrder at hrm
  obtain ⟨emitted, hemitted, rfl⟩ := Option.map_eq_some_iff.1 hrm
  rw [foldl_removeStep] at h
  simp only [Option.some.injEq, Prod.mk.injEq] at h
  obtain ⟨hok, -, ht⟩ := h
  -- nothing was held or blocked, so all the names were taken
  obtain ⟨hheld, -, hblocked, -⟩ := verdict_ok hok
  rw [verdict_snd hok] at ht
  obtain ⟨⟨conflicts, hfiles⟩, -⟩ := checkFiles_spec db collect trans.installPkgs mem
    { trans with
      plan := installs ++ ups ++ emitted.map removeStep
      conflicts := trans.conflicts ++ found
      heldPkgs := trans.heldPkgs ++ heldUp ++ heldRm
      blockedRemoves := trans.blockedRemoves ++ blocked }
  rw [hfiles] at hheld hblocked
  simp only [List.append_eq_nil_iff] at hheld hblocked
  obtain ⟨rfl, -⟩ := hnames hheld.2 hblocked.2
  have hpeels := removalOrder_peels _ rfl hnd hemitted
  have hplan : removedNames t.plan = emitted := by
    have hsteps : installs ++ trans.upgradePkgs.map (upgradeStep mem db) ++ removals.map removeStep =
        installs ++ ups ++ emitted.map removeStep := by
      rw [← hp.plan, ← ht]
      exact congrArg ApgTrans.plan hfiles
    have hlen : (removals.map removeStep).length = (emitted.map removeStep).length := by
      rw [List.length_map, List.length_map, hp.removed.length_eq, hpeels.perm.length_eq]
    have hlast := (List.append_inj' hsteps hlen).2
    rw [hremoved]
    exact (List.map_injective_iff.2 fun a b hab => congrArg TransStep.pkgName hab) hlast
  rw [hplan]
  exact hpeels

/-! ## What is written -/

theorem Metadata.goesBy_written {m : Metadata} {n : CStr} (hname : m.name ≠ none) :
    m.written.GoesBy n ↔ m.GoesBy n := by
  obtain ⟨k, hk⟩ := Option.ne_none_iff_exists'.1 hname
  unfold Metadata.GoesBy Metadata.written
  simp [hk, List.reduceOption_mem_iff]

/-- What asks for the package as it is given asks for it as it is written. -/
theorem Metadata.Satisfies.written {m : Metadata} {c : DepConstraint} (h : m.Satisfies c) (hname : m.name ≠ none) :
    m.written.Satisfies c := by
  obtain ⟨⟨n, hn, hgoes⟩, hver⟩ := h
  refine ⟨⟨n, hn, (Metadata.goesBy_written hname).2 hgoes⟩, ?_⟩
  -- no version accepts a constraint but the one that accepts all
  have hversion : m.written.version = some (m.version.getD []) := rfl
  rw [hversion]
  cases hv : m.version with
  | some v =>
    rw [hv] at hver
    exact hver
  | none =>
    rw [hv] at hver
    have hany : c.op = .any := by
      by_contra hop
      unfold verSatisfies at hver
      rw [if_neg hop, if_pos (Or.inl rfl)] at hver
      cases hver
    unfold verSatisfies
    rw [if_pos hany]

theorem Metadata.rejects_written {a b : Metadata} (hname : b.name ≠ none) : a.written.Rejects b.written ↔ a.Rejects b := by
  obtain ⟨k, hk⟩ := Option.ne_none_iff_exists'.1 hname
  unfold Metadata.Rejects Metadata.written
  simp [hk, List.reduceOption_mem_iff]

theorem Metadata.mem_dependencies_written {m : Metadata} {c : DepConstraint} :
    c ∈ m.written.dependencies ↔ c ∈ m.dependencies ∧ c.name ≠ none := by
  unfold Metadata.written
  rw [List.mem_filter, Option.isSome_iff_ne_none]

/-! ## What is there when a transaction is over -/

section

variable {x : Transaction} {g : DepGraph} {n : CStr} {m : Metadata}

theorem Survives.named (hr : RecordsOK db) (h : Survives mem db trans g n m) : m.name = some n := by
  obtain ⟨-, hwhy⟩ := h
  cases hlast : lastUpgrade mem trans n with
  | some p =>
    rw [hlast] at hwhy
    rw [← hwhy]
    exact findPkg_name hlast
  | none =>
    rw [hlast] at hwhy
    rcases hwhy with hrec | ⟨-, -, p, hp, rfl⟩
    · obtain ⟨pkg, hpkg, rfl⟩ := Option.map_eq_some_iff.1 hrec
      exact dbGet_name hr hpkg
    · exact firstQueued_name hp

/-- A record that is neither upgraded nor removed survives. -/
theorem Survives.stays (hrec : recorded db n = some m) (hlast : lastUpgrade mem trans n = none) (hn : n ∉ trans.removeNames) :
    Survives mem db trans g n m := by
  refine ⟨hn, ?_⟩
  rw [hlast]
  exact Or.inl hrec

/-- **What is recorded after a commit**: what survives, as it is written. -/
theorem Transaction.On.recorded_iff (h : x.On db) (hr : ParsedRecords db) (hparsed : ∀ p, (x.queuedMem p).metadata.Parsed)
    (hdry : x.prepared.dryRun = false) (hok : x.err = .ok) (hg : transGraph x.queuedMem db x.queued = some g)
    (n : CStr) (m' : Metadata) :
    recorded x.world.db n = some m' ↔ ∃ m, Survives x.queuedMem db x.queued g n m ∧ m.written = m' := by
  have hf := queued_fresh h.queued
  obtain ⟨g', order, installs, removals, hp⟩ := transPrepare_ok hf h.prepared
  have hgg := hp.graph
  rw [hg, Option.some.injEq] at hgg
  subst hgg
  rw [(h.recorded_done hr hparsed hdry hok).2, Option.map_eq_some_iff]
  simp only [applyPlan_iff hf hr.ok hp]

/-- Some package that is there in the end is what the dependency asks for. -/
def Met (db : Db) (x : Transaction) (g : DepGraph) (c : DepConstraint) : Prop :=
  ∃ n m, Survives x.queuedMem db x.queued g n m ∧ m.written.Satisfies c

/-- **The dependencies that `trans_prepare` does not look at are met all the same**: where the
resolver's pick for a delivered package is lost; those of upgrades; and those of the packages
that stay which a package met that is upgraded, or one that is removed and goes by the name
only as what it `replaces`. -/
structure Foreseen (db : Db) (x : Transaction) (g : DepGraph) : Prop where
  picks : ∀ n m, Pulled x.queuedMem db x.queued g n m → Survives x.queuedMem db x.queued g n m →
    ∀ c ∈ m.dependencies, ∀ j nd, c.LeadsTo g j → g.nodes[j]? = some nd → Lost x.queuedMem db x.queued c nd → Met db x g c
  upgrades : ∀ n p, lastUpgrade x.queuedMem x.queued n = some p → n ∉ x.queued.removeNames →
    ∀ c ∈ (x.queuedMem p).metadata.dependencies, c.name ≠ none → Met db x g c
  stays : ∀ n m, recorded db n = some m → lastUpgrade x.queuedMem x.queued n = none → n ∉ x.queued.removeNames →
    ∀ c ∈ m.dependencies, ∀ n' m', recorded db n' = some m' → m'.Satisfies c →
      lastUpgrade x.queuedMem x.queued n' ≠ none ∨ (n' ∈ x.queued.removeNames ∧ ¬c.AsksFor n' m'.provides) → Met db x g c

/-- A package that depends on one that is removed is removed as well. -/
theorem removable_dependent {names : List CStr} {n n' : CStr} {m m' : Metadata} {c : DepConstraint} (hr : RecordsOK db)
    (hfree : Removable db trans names) (hcheck : trans.skipDependentsCheck = false) (hn' : n' ∈ names)
    (hrec : recorded db n = some m) (hrec' : recorded db n' = some m') (hc : c ∈ m.dependencies)
    (hasks : c.AsksFor n' m'.provides) (hne : n ≠ n') : n ∈ trans.removeNames := by
  obtain ⟨dependents, hdeps, hall⟩ := (hfree n' hn').2 hcheck
  obtain ⟨q, hq, rfl⟩ := Option.map_eq_some_iff.1 hrec'
  have hfind := find_dbList hr n
  rw [hrec] at hfind
  obtain ⟨p, hp, rfl⟩ := List.mem_map.1 (List.mem_of_find?_eq_some hfind)
  have hname : p.metadata.name = some n := by simpa using List.find?_some hfind
  have hprovides : providesOf db n' = q.metadata.provides := by
    unfold providesOf
    rw [hq]
    rfl
  exact hall n ((mem_dbGetDependents hdeps n).2 ⟨p, hp, hname, hne, c, hc, hprovides ▸ hasks⟩)

/-- **When all dependencies stay met**: exactly if those do that are not looked at. -/
theorem Transaction.On.dependenciesMet_iff (h : x.On db) (hr : ParsedRecords db)
    (hparsed : ∀ p, (x.queuedMem p).metadata.Parsed) (hdry : x.prepared.dryRun = false) (hok : x.err = .ok)
    (hdeps : x.queued.skipDependencyCheck = false) (hcheck : x.queued.skipDependentsCheck = false)
    (hg : transGraph x.queuedMem db x.queued = some g) (hmet : DependenciesMet (recorded db)) :
    DependenciesMet (recorded x.world.db) ↔ Foreseen db x g := by
  have hf := queued_fresh h.queued
  have hrec := h.recorded_iff hr hparsed hdry hok hg
  constructor
  · intro hafter
    -- whatever survives has its dependencies met
    have hall : ∀ n m, Survives x.queuedMem db x.queued g n m → ∀ c ∈ m.dependencies, c.name ≠ none → Met db x g c := by
      intro n m hsurv c hc hname
      obtain ⟨n', m', hn', hsat⟩ :=
        hafter n m.written ((hrec _ _).2 ⟨m, hsurv, rfl⟩) c (Metadata.mem_dependencies_written.2 ⟨hc, hname⟩)
      obtain ⟨m₁, hsurv₁, rfl⟩ := (hrec _ _).1 hn'
      exact ⟨n', m₁, hsurv₁, hsat⟩
    refine ⟨?_, ?_, ?_⟩
    · rintro n m - hsurv c hc j nd ⟨name, hname, -⟩ - -
      exact hall n m hsurv c hc (by rw [hname]; exact Option.some_ne_none name)
    · intro n p hlast hn c hc hname
      refine hall n (x.queuedMem p).metadata ⟨hn, ?_⟩ c hc hname
      rw [hlast]
    · intro n m hm hlast hn c hc _ _ _ _ _
      have hwritten := recorded_written hr.ok n
      rw [hm, Option.map_some, Option.some.injEq] at hwritten
      exact hall n m (Survives.stays hm hlast hn) c hc (Metadata.mem_dependencies_written.1 (hwritten.symm ▸ hc)).2
  · intro hforeseen n m₀ hn c hc₀
    obtain ⟨m, hsurv, rfl⟩ := (hrec _ _).1 hn
    obtain ⟨hc, hname⟩ := Metadata.mem_dependencies_written.1 hc₀
    have hdone : Met db x g c → ∃ n' m', recorded x.world.db n' = some m' ∧ m'.Satisfies c := by
      rintro ⟨n', m', hsurv', hsat⟩
      exact ⟨n', m'.written, (hrec _ _).2 ⟨m', hsurv', rfl⟩, hsat⟩
    apply hdone
    have hsurvivor : ∀ {n' m'}, Survives x.queuedMem db x.queued g n' m' → m'.Satisfies c → Met db x g c := by
      intro n' m' hsurv' hsat
      refine ⟨n', m', hsurv', hsat.written ?_⟩
      rw [hsurv'.named hr.ok]
      exact Option.some_ne_none n'
    obtain ⟨⟨g', order, installs, removals, hp⟩, -, -, hfree⟩ := transPrepare_checked hf h.prepared
    have hgg := hp.graph
    rw [hg, Option.some.injEq] at hgg
    subst hgg
    obtain ⟨hstays, hwhy⟩ := hsurv
    cases hlast : lastUpgrade x.queuedMem x.queued n with
    | some p =>
      rw [hlast] at hwhy
      exact hforeseen.upgrades n p hlast hstays c (hwhy ▸ hc) hname
    | none =>
      rw [hlast] at hwhy
      rcases hwhy with hm | hpull
      · -- what met it before does so still, unless that is not looked at
        obtain ⟨n', m', hm', hsat⟩ := hmet n m hm c hc
        by_cases hlast' : lastUpgrade x.queuedMem x.queued n' = none
        · by_cases hn' : n' ∈ x.queued.removeNames
          · by_cases hasks : c.AsksFor n' m'.provides
            · have hne : n ≠ n' := fun heq => hstays (heq ▸ hn')
              exact absurd (removable_dependent hr.ok hfree hcheck hn' hm hm' hc hasks hne) hstays
            · exact hforeseen.stays n m hm hlast hstays c hc n' m' hm' hsat (Or.inr ⟨hn', hasks⟩)
          · exact hsurvivor (Survives.stays hm' hlast' hn') hsat
        · exact hforeseen.stays n m hm hlast hstays c hc n' m' hm' hsat (Or.inl hlast')
      · obtain ⟨j, nd, hleads, hnode, hwant, hver⟩ := pulled_pick hp hdeps hpull hc
        by_cases hlost : Lost x.queuedMem db x.queued c nd
        · refine hforeseen.picks n m hpull ⟨hstays, ?_⟩ c hc j nd hleads hnode hlost
          rw [hlast]
          exact Or.inr hpull
        · have hpick := survives_of_not_lost hr.ok (transGraph_spec hp.graph).2 (List.mem_of_getElem? hnode) hwant hlost
          have hgoes : ∃ n, c.name = some n ∧ nd.pkg.GoesBy n := by
            by_contra hno
            exact hlost (Or.inr (Or.inr (Or.inr hno)))
          exact hsurvivor hpick ⟨hgoes, hver⟩

/-- Nothing that a failed commit has removed is missed: each package is removed once and not
upgraded before, no packages that are removed depend on each other in a cycle, and what they
meet they meet by their names or what they provide. -/
structure Retraceable (db : Db) (x : Transaction) : Prop where
  once : x.queued.removeNames.Nodup
  apart : ∀ p ∈ x.queued.upgradePkgs, heapName x.queuedMem p ∉ x.queued.removeNames
  acyclic : ∀ n, ¬Peel.NeededIn (fun a b => a ≠ b ∧ RemovalNeeds db a b) x.queued.removeNames n n
  named : ∀ n m, recorded db n = some m → ∀ c ∈ m.dependencies, ∀ n' ∈ x.queued.removeNames, ∀ m',
    recorded db n' = some m' → m'.Satisfies c → c.AsksFor n' m'.provides

/-- What a rollback does not bring back was removed, and is not upgraded. -/
theorem Transaction.On.gone {done rest : List TransStep} (h : x.On db) (hplan : x.prepared.plan = done ++ rest) :
    removedNames x.prepared.plan = removedNames done ++ removedNames rest ∧
      ((∀ p ∈ x.queued.upgradePkgs, heapName x.queuedMem p ∉ x.queued.removeNames) →
        ∀ n ∈ removedNames done, n ∈ goneNames done) := by
  have hf := queued_fresh h.queued
  obtain ⟨g, order, installs, removals, hp⟩ := transPrepare_ok hf h.prepared
  have hsplit : removedNames x.prepared.plan = removedNames done ++ removedNames rest := by
    rw [hplan]
    unfold removedNames
    rw [List.filter_append, List.map_append]
  refine ⟨hsplit, fun hapart n hn => mem_goneNames.2 ⟨mem_removedNames.1 hn, fun s hs hop heq => ?_⟩⟩
  have hqueued : n ∈ x.queued.removeNames := by
    rw [← hp.removed.mem_iff, ← prepareOK_removed hp, hsplit]
    exact List.mem_append_left _ hn
  have hstep : s ∈ x.prepared.plan := by
    rw [hplan]
    exact List.mem_append_left _ hs
  rw [hp.plan, List.mem_append, List.mem_append] at hstep
  rcases hstep with (hs | hs) | hs
  · rw [(hp.steps.sound s hs).1] at hop
    cases hop
  · obtain ⟨p, hpq, rfl⟩ := List.mem_map.1 hs
    have hname : heapName x.queuedMem p = n := heq
    exact hapart p hpq (hname ▸ hqueued)
  · obtain ⟨k, -, rfl⟩ := List.mem_map.1 hs
    cases hop

/-- **Wherever a commit fails, all dependencies stay met**: of the packages to be removed those
that depend on a removed one have been removed before it. -/
theorem Transaction.On.dependenciesMet_failed (h : x.On db) (hr : ParsedRecords db) (hfail : x.err ≠ .ok)
    (hlost : x.world.unrestored = []) (hcheck : x.queued.skipDependentsCheck = false) (hback : Retraceable db x)
    (hmet : DependenciesMet (recorded db)) : DependenciesMet (recorded x.world.db) := by
  have hf := queued_fresh h.queued
  obtain ⟨⟨g, order, installs, removals, hp⟩, -, -, hfree⟩ := transPrepare_checked hf h.prepared
  obtain ⟨done, rest, hplan, hmain⟩ := h.recorded_failed hr hfail hlost
  obtain ⟨hsplit, hgone⟩ := h.gone hplan
  have hpeels := transPrepare_peels hf hback.once h.prepared
  rw [hsplit] at hpeels
  have hkept : ∀ {n}, n ∉ goneNames done → recorded x.world.db n = recorded db n := by
    intro n hn
    exact recorded_congr (by rw [hmain, if_neg hn])
  have hstays : ∀ {n m}, recorded x.world.db n = some m → n ∉ goneNames done ∧ recorded db n = some m := by
    intro n m hn
    have hnot : n ∉ goneNames done := by
      intro hin
      rw [recorded_eq, hmain, if_pos hin] at hn
      cases hn
    exact ⟨hnot, (hkept hnot).symm.trans hn⟩
  intro n m hn c hc
  obtain ⟨hnot, hm⟩ := hstays hn
  obtain ⟨n', m', hm', hsat⟩ := hmet n m hm c hc
  by_cases hn' : n' ∈ goneNames done
  · exfalso
    have hdone' : n' ∈ removedNames done := mem_removedNames.2 (mem_goneNames.1 hn').1
    have hqueued' : n' ∈ x.queued.removeNames := by
      rw [← hpeels.perm.mem_iff]
      exact List.mem_append_left _ hdone'
    have hasks := hback.named n m hm c hc n' hqueued' m' hm' hsat
    have hne : n ≠ n' := fun heq => hnot (heq ▸ hn')
    have hqueued := removable_dependent hr.ok hfree hcheck hqueued' hm hm' hc hasks hne
    have hneeds : RemovalNeeds db n n' := by
      obtain ⟨p, hp, rfl⟩ := Option.map_eq_some_iff.1 hm
      obtain ⟨q, hq, rfl⟩ := Option.map_eq_some_iff.1 hm'
      exact ⟨p, q, n', hp, hq, dbGet_name hr.ok hq, c, hc, hasks⟩
    have hdone := hpeels.done_closed hback.acyclic hdone' hqueued hneeds hne.symm
    exact hnot (hgone hback.apart n hdone)
  · exact ⟨n', m', (hkept hn').trans hm', hsat⟩

/-! ## Runs -/

/-- The flags are no part of what is recorded. -/
theorem dbUpdate_recorded {io : ℕ → Rc} {n : CStr} {change : Package → Package} {ok : Bool} (hr : ParsedRecords db)
    (h : dbUpdate io db n change = some (ok, db')) (hchange : ∀ pkg, (change pkg).metadata = pkg.metadata) :
    ParsedRecords db' ∧ ∀ k, recorded db' k = recorded db k := by
  refine ⟨dbUpdate_recordsFrom hr h fun p hp => dbGet_parsed hp (hchange p), fun k => ?_⟩
  obtain ⟨pkg, db₁, db₂, hpkg, hs₁, hadd, hs₂⟩ | ⟨-, hsame⟩ := dbUpdate_cases h
  · obtain ⟨-, name, db₃, hname, htxn, hs₃⟩ | ⟨-, hsame⟩ := dbAdd_cases hadd
    · have hn : n = name := by
        rw [hchange, dbGet_name hr.ok hpkg, Option.some.injEq] at hname
        exact hname
      have hget : ∀ m, db'.main.get m = if m = n then some (packageToJson (change pkg)) else db.main.get m := by
        intro m
        rw [hs₂.main, hs₃.main, (addTxn_spec htxn).main, Table.get_put, hs₁.main, hn]
        split_ifs <;> rfl
      obtain ⟨-, -, -, hwritten, -⟩ := dbGet_settled hr.ok hpkg
      have hold : recorded db n = some pkg.metadata := by
        unfold recorded
        rw [hpkg]
        rfl
      rw [recorded_update hget, Option.bind_some, recordMetadata_toJson (dbGet_parsed hpkg (hchange pkg)), hchange, hwritten,
        ← hold, Function.update_eq_self]
    · exact recorded_congr (by rw [hs₂.main, hsame.main, hs₁.main])
  · exact recorded_congr (by rw [hsame.main])

/-- A commit that is not carried out leaves the records. -/
theorem Transaction.On.recorded_dry (h : x.On db) (hdry : x.prepared.dryRun = true) : x.world.db.main = db.main := by
  obtain ⟨trans, hcommit⟩ := h.committed
  obtain ⟨-, hw⟩ | ⟨-, st, hloop, hw⟩ | ⟨-, st, w₁, hloop, hback, -, hw⟩ := transCommit_ends hcommit
  · rw [hw]
  · obtain rfl : st = commitStart x.mem db := commitLoop_idle hdry _ hloop
    rw [hw]
    rfl
  · obtain rfl : st = commitStart x.mem db := commitLoop_idle hdry _ hloop
    obtain rfl : (commitStart x.mem db).world = w₁ := Option.some.inj hback
    rw [hw]
    rfl

theorem ParsedRecords.of_main (hr : ParsedRecords db) (h : ∀ n, db'.main.get n = none ∨ db'.main.get n = db.main.get n) :
    ParsedRecords db' := by
  intro n j hj
  rcases h n with hn | hn
  · rw [hn] at hj
    cases hj
  · exact hr n j (hn.symm.trans hj)

/-- The records that a transaction leaves are again such as can be read back. -/
theorem Transaction.On.parsed (h : x.On db) (hr : ParsedRecords db) (hparsed : ∀ p, (x.queuedMem p).metadata.Parsed)
    (hlost : x.err ≠ .ok → x.world.unrestored = []) : ParsedRecords x.world.db := by
  by_cases hdry : x.prepared.dryRun = true
  · exact hr.of_main fun n => Or.inr (by rw [h.recorded_dry hdry])
  by_cases hok : x.err = .ok
  · exact (h.recorded_done hr hparsed (by simpa using hdry) hok).1
  · obtain ⟨done, rest, -, hmain⟩ := h.recorded_failed hr hok (hlost hok)
    refine hr.of_main fun n => ?_
    rw [hmain]
    split
    · exact Or.inl rfl
    · exact Or.inr rfl

/-- What a property of the recorded packages has to survive, in a run of a package manager whose
transactions are such as `C` allows. -/
theorem managed_keeps {C : Db → Transaction → Prop} {I : PkgSet → Prop} (h : Relation.ReflTransGen (Managed C) db db')
    (hr : ParsedRecords db) (hI : I (recorded db))
    (hC : ∀ db x, C db x → (∀ p, (x.queuedMem p).metadata.Parsed) ∧ (x.err ≠ .ok → x.world.unrestored = []))
    (hstep : ∀ db (x : Transaction), x.On db → C db x → ParsedRecords db → x.prepared.dryRun = false → I (recorded db) →
      I (recorded x.world.db)) : ParsedRecords db' ∧ I (recorded db') := by
  have hsame : ∀ {db db' : Db}, (∀ n, recorded db' n = recorded db n) → I (recorded db) → I (recorded db') := by
    intro db db' heq hI
    rw [funext heq]
    exact hI
  induction h with
  | refl => exact ⟨hr, hI⟩
  | tail _ hcall ih =>
    obtain ⟨hr₁, hI₁⟩ := ih
    cases hcall with
    | setHold io n held hset =>
      obtain ⟨hr₂, heq⟩ := dbUpdate_recorded hr₁ hset fun _ => rfl
      exact ⟨hr₂, hsame heq hI₁⟩
    | setInstalledByHand io n byHand hset =>
      obtain ⟨hr₂, heq⟩ := dbUpdate_recorded hr₁ hset fun _ => rfl
      exact ⟨hr₂, hsame heq hI₁⟩
    | transaction x hx hallowed =>
      obtain ⟨hparsed, hlost⟩ := hC _ x hallowed
      refine ⟨hx.parsed hr₁ hparsed hlost, ?_⟩
      by_cases hdry : x.prepared.dryRun = true
      · exact hsame (fun n => recorded_congr (by rw [hx.recorded_dry hdry])) hI₁
      · exact hstep _ x hx hallowed hr₁ (by simpa using hdry) hI₁

/-- The transactions over which dependencies stay met: with both checks on, the dependencies
that are not looked at met all the same if they succeed, and if they fail no write of the
rollback lost and nothing that is removed missed. -/
structure Orderly (db : Db) (x : Transaction) : Prop where
  parsed : ∀ p, (x.queuedMem p).metadata.Parsed
  dependencies : x.queued.skipDependencyCheck = false
  dependents : x.queued.skipDependentsCheck = false
  foreseen : x.err = .ok → ∀ g, transGraph x.queuedMem db x.queued = some g → Foreseen db x g
  restored : x.err ≠ .ok → x.world.unrestored = []
  retraceable : x.err ≠ .ok → Retraceable db x

/-- **The dependencies of all recorded packages stay met**, whatever orderly transactions succeed
or fail one after the other. -/
theorem run_dependenciesMet (h : Relation.ReflTransGen (Managed Orderly) db db') (hr : ParsedRecords db)
    (hmet : DependenciesMet (recorded db)) : DependenciesMet (recorded db') := by
  refine (managed_keeps (I := DependenciesMet) h hr hmet (fun _ _ hC => ⟨hC.parsed, hC.restored⟩) ?_).2
  intro db x hx hC hr hdry hmet
  by_cases hok : x.err = .ok
  · obtain ⟨g, order, installs, removals, hp⟩ := transPrepare_ok (queued_fresh hx.queued) hx.prepared
    exact (hx.dependenciesMet_iff hr hC.parsed hdry hok hC.dependencies hC.dependents hp.graph hmet).2
      (hC.foreseen hok g hp.graph)
  · exact hx.dependenciesMet_failed hr hok (hC.restored hok) hC.dependents (hC.retraceable hok) hmet

/-- Nothing is removed, upgraded or recorded, and there are no preferences. -/
theorem needsB_foreseen {x : Transaction} (hmem : x.queuedMem = needsB)
    (hq : x.queued = { installPkgs := [1], candidatePkgs := [2] }) (hg : transGraph x.queuedMem (dbOpen true true) x.queued = some g) :
    Foreseen (dbOpen true true) x g := by
  have hlast : ∀ n, lastUpgrade x.queuedMem x.queued n = none := by
    intro n
    rw [hq]
    rfl
  have hgraph : (transGraph needsB (dbOpen true true) { installPkgs := [1], candidatePkgs := [2] }).map (·.prefs) =
      some [] := by decide
  have hprefs : g.prefs = [] := by
    rw [hmem, hq] at hg
    rw [hg, Option.map_some, Option.some.injEq] at hgraph
    exact hgraph
  refine ⟨?_, fun n p hp => ?_, fun n m hm => ?_⟩
  · rintro n m - - c - j nd ⟨name, hname, hl⟩ hnd hlost
    exfalso
    rcases hlost with hlost | ⟨p, hp, -⟩ | ⟨-, m', hm', -⟩ | hlost
    · rw [hq] at hlost
      cases hlost
    · rw [hlast] at hp
      cases hp
    · rw [newDb_recorded] at hm'
      cases hm'
    · refine hlost ⟨name, hname, ?_⟩
      have hok := built_ok (transGraph_spec hg).1
      obtain ⟨nd', hnd', hwhy⟩ := depGraphLookup_some hok hl
      rw [hnd, Option.some.injEq] at hnd'
      subst hnd'
      rcases hwhy with rfl | ⟨-, hpref | hdecl⟩
      · exact Or.inl (hok.named nd (List.mem_of_getElem? hnd))
      · rw [hprefs] at hpref
        simp at hpref
      · exact Or.inr hdecl
  · rw [hlast] at hp
    cases hp
  · rw [newDb_recorded] at hm
    cases hm

/-- `b` is there for `a`. -/
theorem run_dependenciesMet_candidate : ∃ db, Relation.ReflTransGen (Managed Orderly) (dbOpen true true) db ∧
    (recorded db (cstr "a")).isSome ∧ DependenciesMet (recorded db) := by
  obtain ⟨x, hx, hmem, hq, hok, hdry, ha, -⟩ := needsB_transaction
  have horderly : Orderly (dbOpen true true) x :=
    ⟨fun p => hmem ▸ needsB_parsed p, by rw [hq], by rw [hq], fun _ g hg => needsB_foreseen hmem hq hg,
      fun hfail => absurd hok hfail, fun hfail => absurd hok hfail⟩
  have hrun : Relation.ReflTransGen (Managed Orderly) (dbOpen true true) x.world.db := .single (.transaction x hx horderly)
  exact ⟨_, hrun, ha, run_dependenciesMet hrun newDb_parsed fun n m hm => by cases hm⟩

/-! ## Conflicts -/

/-- **The pairs that the check does not look at do not conflict**: two packages that are there in
the end, unless both were recorded before, or one is a queued package and the other one it was
compared with. -/
def Unopposed (db : Db) (x : Transaction) (g : DepGraph) : Prop :=
  ∀ n m n' m', n ≠ n' → Survives x.queuedMem db x.queued g n m → Survives x.queuedMem db x.queued g n' m' →
    ¬(recorded db n = some m ∧ recorded db n' = some m') →
    ¬(Pulled x.queuedMem db x.queued g n m ∧ Checked x.queuedMem db x.queued n n' m') →
    ¬(Pulled x.queuedMem db x.queued g n' m' ∧ Checked x.queuedMem db x.queued n' n m) → ¬m.Rejects m'

/-- **When no two recorded packages conflict after a commit**: exactly if those do not that were
not compared. -/
theorem Transaction.On.conflictFree_iff (h : x.On db) (hr : ParsedRecords db)
    (hparsed : ∀ p, (x.queuedMem p).metadata.Parsed) (hdry : x.prepared.dryRun = false) (hok : x.err = .ok)
    (hg : transGraph x.queuedMem db x.queued = some g) (hfree : ConflictFree (recorded db)) :
    ConflictFree (recorded x.world.db) ↔ Unopposed db x g := by
  have hf := queued_fresh h.queued
  have hrec := h.recorded_iff hr hparsed hdry hok hg
  obtain ⟨g', order, installs, removals, hp⟩ := transPrepare_ok hf h.prepared
  have hgg := hp.graph
  rw [hg, Option.some.injEq] at hgg
  subst hgg
  have hnamed : ∀ {n m}, Survives x.queuedMem db x.queued g n m → m.name ≠ none := by
    intro n m hsurv
    rw [hsurv.named hr.ok]
    exact Option.some_ne_none n
  constructor
  · intro hafter n m n' m' hne hsurv hsurv' _ _ _ hrejects
    exact hafter n m.written n' m'.written hne ((hrec _ _).2 ⟨m, hsurv, rfl⟩) ((hrec _ _).2 ⟨m', hsurv', rfl⟩)
      ((Metadata.rejects_written (hnamed hsurv')).2 hrejects)
  · intro hun n m₀ n' m₀' hne hn hn'
    obtain ⟨m, hsurv, rfl⟩ := (hrec _ _).1 hn
    obtain ⟨m', hsurv', rfl⟩ := (hrec _ _).1 hn'
    rw [Metadata.rejects_written (hnamed hsurv')]
    by_cases hold : recorded db n = some m ∧ recorded db n' = some m'
    · exact hfree n m n' m' hne hold.1 hold.2
    by_cases hchecked : Pulled x.queuedMem db x.queued g n m ∧ Checked x.queuedMem db x.queued n n' m'
    · exact (checked_ok hf hr.ok hp hchecked.1 hchecked.2).1
    by_cases hchecked' : Pulled x.queuedMem db x.queued g n' m' ∧ Checked x.queuedMem db x.queued n' n m
    · exact (checked_ok hf hr.ok hp hchecked'.1 hchecked'.2).2
    exact hun n m n' m' hne hsurv hsurv' hold hchecked hchecked'

/-- The transactions over which there are no conflicts. -/
structure Peaceful (db : Db) (x : Transaction) : Prop where
  parsed : ∀ p, (x.queuedMem p).metadata.Parsed
  unopposed : x.err = .ok → ∀ g, transGraph x.queuedMem db x.queued = some g → Unopposed db x g
  restored : x.err ≠ .ok → x.world.unrestored = []

/-- **No two recorded packages conflict**, whatever transactions succeed or fail one after the
other, if those do not that were not compared. -/
theorem run_conflictFree (h : Relation.ReflTransGen (Managed Peaceful) db db') (hr : ParsedRecords db)
    (hfree : ConflictFree (recorded db)) : ConflictFree (recorded db') := by
  refine (managed_keeps (I := ConflictFree) h hr hfree (fun _ _ hC => ⟨hC.parsed, hC.restored⟩) ?_).2
  intro db x hx hC hr hdry hfree
  by_cases hok : x.err = .ok
  · obtain ⟨g, order, installs, removals, hp⟩ := transPrepare_ok (queued_fresh hx.queued) hx.prepared
    exact (hx.conflictFree_iff hr hC.parsed hdry hok hp.graph hfree).2 (hC.unopposed hok g hp.graph)
  · -- a commit that fails adds nothing
    obtain ⟨done, rest, -, hmain⟩ := hx.recorded_failed hr hok (hC.restored hok)
    have hold : ∀ {n m}, recorded x.world.db n = some m → recorded db n = some m := by
      intro n m hn
      rw [recorded_eq, hmain] at hn
      split at hn
      · cases hn
      · rw [recorded_eq]
        exact hn
    intro n m n' m' hne hn hn'
    exact hfree n m n' m' hne (hold hn) (hold hn')

/-- Neither of the two lists a conflict. -/
theorem run_conflictFree_candidate : ∃ db, Relation.ReflTransGen (Managed Peaceful) (dbOpen true true) db ∧
    (recorded db (cstr "a")).isSome ∧ (recorded db (cstr "b")).isSome ∧ ConflictFree (recorded db) := by
  obtain ⟨x, hx, hmem, hq, hok, hdry, ha, hb⟩ := needsB_transaction
  have hnone : ∀ p, (needsB p).metadata.conflicts = [] := by
    intro p
    unfold needsB
    split <;> rfl
  have hun : ∀ g, Unopposed (dbOpen true true) x g := by
    rintro g n m n' m' - ⟨-, hsurv⟩ - - - - ⟨k, hk, -⟩
    have hlast : lastUpgrade x.queuedMem x.queued n = none := by
      rw [hq]
      rfl
    rw [hlast] at hsurv
    rcases hsurv with hrec | ⟨-, -, p, -, rfl⟩
    · rw [newDb_recorded] at hrec
      cases hrec
    · rw [hmem, hnone] at hk
      cases hk
  have hpeaceful : Peaceful (dbOpen true true) x :=
    ⟨fun p => hmem ▸ needsB_parsed p, fun _ g _ => hun g, fun hfail => absurd hok hfail⟩
  have hrun : Relation.ReflTransGen (Managed Peaceful) (dbOpen true true) x.world.db :=
    .single (.transaction x hx hpeaceful)
  exact ⟨_, hrun, ha, hb, run_conflictFree hrun newDb_parsed fun n m n' m' _ hm => by cases hm⟩

end

end Apg
