import Apg.Proof.Prepare

/-!
# `trans_prepare` and conflicts

The check runs for each queued install, against the installed names, with the
metadata that the graph has for them. A pair it looks at has no conflict; every
other pair is left to chance.

* `transPrepare_conflictSound_iff`: **a prepared plan is free of conflicts exactly
  when the pairs that are not looked at are.**
-/

namespace Apg

variable {mem : Heap} {db : Db} {trans : ApgTrans} {g : DepGraph}

theorem strListContains_iff {s : CStr} {b : Bool} : ∀ {list : List (Option CStr)},
    strListContains (some s) list = some b → (b = true ↔ some s ∈ list) := by
  intro list
  induction list with
  | nil =>
    intro h
    simp only [strListContains, Option.some.injEq] at h
    simp [← h]
  | cons o list ih =>
    intro h
    cases o with
    | none => simp [strListContains] at h
    | some x =>
      simp only [strListContains] at h
      by_cases hx : x = s
      · rw [if_pos hx, Option.some.injEq] at h
        simp [← h, hx]
      · rw [if_neg hx] at h
        rw [ih h, List.mem_cons, Option.some.injEq]
        exact ⟨Or.inr, fun h => h.resolve_left fun e => hx e.symm⟩

theorem anyContains_iff {list : List (Option CStr)} {b : Bool} : ∀ {strs : List (Option CStr)},
    anyContains list strs = some b → (b = true ↔ ∃ s, some s ∈ strs ∧ some s ∈ list) := by
  intro strs
  induction strs with
  | nil =>
    intro h
    simp only [anyContains, Option.some.injEq] at h
    simp [← h]
  | cons o strs ih =>
    intro h
    unfold anyContains at h
    split at h
    · exact absurd h (by simp)
    · rename_i hfirst
      rw [Option.some.injEq] at h
      cases o with
      | none =>
        -- a `NULL` is in no list that was read to its end
        cases list <;> simp [strListContains] at hfirst
      | some s => exact ⟨fun _ => ⟨s, List.mem_cons_self, (strListContains_iff hfirst).1 rfl⟩, fun _ => h.symm⟩
    · rename_i hfirst
      rw [ih h]
      constructor
      · rintro ⟨s, hs, hl⟩
        exact ⟨s, List.mem_cons_of_mem _ hs, hl⟩
      · rintro ⟨s, hs, hl⟩
        rcases List.mem_cons.1 hs with rfl | hs
        · exact absurd ((strListContains_iff hfirst).2 hl) (by simp)
        · exact ⟨s, hs, hl⟩

theorem orElse_cases {a b : Option Bool} {r : Bool} (h : orElse a b = some r) :
    a = some true ∧ r = true ∨ a = some false ∧ b = some r := by
  unfold orElse at h
  split at h
  · exact Or.inr ⟨rfl, h⟩
  · rename_i hne
    cases r with
    | true => exact Or.inl ⟨h, rfl⟩
    | false => exact absurd h hne

theorem findBreaksLoop_nil {pkg : Metadata} : ∀ {installed : List CStr}, findBreaksLoop g pkg installed = some [] →
    ∀ k ∈ installed, breaksWith g pkg k = some false := by
  intro installed
  induction installed with
  | nil => intro _ k hk; simp at hk
  | cons inst installed ih =>
    intro h k hk
    unfold findBreaksLoop at h
    split at h
    · exact absurd h (by simp)
    · rename_i conflict hc
      obtain ⟨result, hrest, hres⟩ := Option.map_eq_some_iff.1 h
      cases conflict with
      | true => simp at hres
      | false =>
        simp only [Bool.false_eq_true, if_false] at hres
        rcases List.mem_cons.1 hk with rfl | hk
        · exact hc
        · exact ih (hres ▸ hrest) k hk

/-- **What the check finds out about a pair**, with the metadata of the node. -/
theorem breaksWith_iff (hg : GraphOK g) {pkg : Metadata} {name k : CStr} (hname : pkg.name = some name) {b : Bool}
    (h : breaksWith g pkg k = some b) {nd : DepNode} (hnd : nd ∈ g.nodes) (hk : nd.name = k) :
    b = true ↔ pkg.Rejects nd.pkg ∨ nd.pkg.Rejects pkg := by
  obtain ⟨i, hi⟩ := List.getElem?_of_mem hnd
  have hlookup : depGraphLookup g k = some i := depGraphLookup_of_find ((depGraphFind_iff hg).2 ⟨nd, hi, hk⟩)
  have hndName : nd.pkg.name = some k := by rw [hg.named nd hnd, hk]
  unfold breaksWith at h
  rw [hlookup, Option.bind_some, hi] at h
  -- the four tests, each made if the ones before it found nothing
  obtain ⟨h1, rfl⟩ | ⟨h1, h⟩ := orElse_cases h
  · refine ⟨fun _ => Or.inl ⟨k, (strListContains_iff h1).1 rfl, Or.inl hndName⟩, fun _ => rfl⟩
  have h1' : some k ∉ pkg.conflicts := fun hin => absurd ((strListContains_iff h1).2 hin) (by simp)
  rw [hname] at h
  obtain ⟨h2, rfl⟩ | ⟨h2, h⟩ := orElse_cases h
  · exact ⟨fun _ => Or.inr ⟨name, (strListContains_iff h2).1 rfl, Or.inl hname⟩, fun _ => rfl⟩
  have h2' : some name ∉ nd.pkg.conflicts := fun hin => absurd ((strListContains_iff h2).2 hin) (by simp)
  obtain ⟨h3, rfl⟩ | ⟨h3, h4⟩ := orElse_cases h
  · obtain ⟨x, hx, hc⟩ := (anyContains_iff h3).1 rfl
    exact ⟨fun _ => Or.inr ⟨x, hc, Or.inr hx⟩, fun _ => rfl⟩
  have h3' : ∀ x, some x ∈ pkg.provides → some x ∉ nd.pkg.conflicts := by
    intro x hx hc
    exact absurd ((anyContains_iff h3).2 ⟨x, hx, hc⟩) (by simp)
  rw [anyContains_iff h4]
  constructor
  · rintro ⟨x, hx, hc⟩
    exact Or.inl ⟨x, hc, Or.inr hx⟩
  · rintro (⟨x, hx, hn | hp⟩ | ⟨x, hx, hn | hp⟩)
    · rw [hndName, Option.some.injEq] at hn
      exact absurd (hn ▸ hx) h1'
    · exact ⟨x, hp, hx⟩
    · rw [hname, Option.some.injEq] at hn
      exact absurd (hn ▸ hx) h2'
    · exact absurd hx (h3' x hp)

/-- **A pair that is looked at and passes has no conflict.** -/
theorem breaksWith_false (hg : GraphOK g) {pkg : Metadata} {name k : CStr} (hname : pkg.name = some name)
    (h : breaksWith g pkg k = some false) {nd : DepNode} (hnd : nd ∈ g.nodes) (hk : nd.name = k) :
    ¬pkg.Rejects nd.pkg ∧ ¬nd.pkg.Rejects pkg := by
  have hiff := breaksWith_iff hg hname h hnd hk
  exact ⟨fun hr => absurd (hiff.2 (Or.inl hr)) (by simp), fun hr => absurd (hiff.2 (Or.inr hr)) (by simp)⟩

/-- The check looks at the pair: the first is queued, the second is installed and
is in the end the package the graph has for its name. -/
def Checked (mem : Heap) (db : Db) (trans : ApgTrans) (n n' : CStr) (m' : Metadata) : Prop :=
  (∃ p ∈ trans.installPkgs, heapName mem p = n) ∧ recorded db n' ≠ none ∧
    (pool mem db trans).find? (fun m => m.name = some n') = some m'

/-- A checked pair of a prepared transaction has no conflict. -/
theorem checked_ok {order : List CStr} {installs : List TransStep} {removals : List CStr} {mem' : Heap} {t : ApgTrans}
    (hf : Fresh mem trans) (hr : RecordsOK db) (hp : PrepareOK mem db trans g order installs removals mem' t)
    {n n' : CStr} {m m' : Metadata} (hpull : Pulled mem db trans g n m) (hc : Checked mem db trans n n' m') :
    ¬m.Rejects m' ∧ ¬m'.Rejects m := by
  obtain ⟨hb, hnodes⟩ := transGraph_spec hp.graph
  have hg := built_ok hb
  obtain ⟨⟨p, hpq, rfl⟩, hrec, hfind⟩ := hc
  -- the node of the queued name has the metadata of the package that is pulled in
  have hbreaks := hp.noBreaks p hpq
  unfold depGraphFindBreaks at hbreaks
  split at hbreaks
  · exact absurd hbreaks (by simp)
  rename_i nd hnd
  obtain ⟨i, hl, hi⟩ := Option.bind_eq_some_iff.1 hnd
  have hndm := List.mem_of_getElem? hi
  have hndn : nd.name = heapName mem p := by
    have hpool : ∃ m₀, (pool mem db trans).find? (fun m => m.name = some (heapName mem p)) = some m₀ := by
      rw [← Option.isSome_iff_exists, List.find?_isSome]
      refine ⟨(mem p).metadata, ?_, by simpa using name_of_ne_none (hf.named p (Or.inl hpq))⟩
      simp only [pool, metadataOf, List.mem_append, List.mem_map]
      exact Or.inl (Or.inl (Or.inl ⟨p, hpq, rfl⟩))
    obtain ⟨m₀, hm₀⟩ := hpool
    obtain ⟨nd₀, hnd₀, hn₀, -⟩ := (hnodes _ _).2 hm₀
    obtain ⟨i₀, hi₀⟩ := List.getElem?_of_mem hnd₀
    rw [depGraphLookup_of_find ((depGraphFind_iff hg).2 ⟨nd₀, hi₀, hn₀⟩), Option.some.injEq] at hl
    rw [← hl, hi₀, Option.some.injEq] at hi
    rw [← hi]; exact hn₀
  have hpkg : nd.pkg = m := pulled_node hnodes hpull hndm hndn
  obtain ⟨result, hloop, hres⟩ := Option.map_eq_some_iff.1 hbreaks
  rw [Except.ok.injEq] at hres
  subst hres
  have hpair := findBreaksLoop_nil hloop n' ((mem_installedNames hr n').2 hrec)
  obtain ⟨nd', hnd', hn', rfl⟩ := (hnodes n' m').2 hfind
  rw [hpkg] at hpair
  exact breaksWith_false hg ((hpkg ▸ hg.named nd hndm).trans (congrArg some hndn)) hpair hnd' hn'

/-- **When a prepared plan is free of conflicts**: no package it delivers conflicts
with another one that is there in the end in a pair the check does not look at. -/
theorem transPrepare_conflictSound_iff {collect : Ptr → Option (List CStr)} {mem' : Heap} {t : ApgTrans}
    (hq : Queued mem trans) (hdb : Reachable (fun _ => True) db) (hg : transGraph mem db trans = some g)
    (h : transPrepare collect mem db trans = some (.ok, mem', t)) :
    ConflictSound mem' (recorded db) t.plan ↔
      ∀ n m n' m', Pulled mem db trans g n m → Survives mem db trans g n' m' → n' ≠ n →
        ¬Checked mem db trans n n' m' → ¬m.Rejects m' ∧ ¬m'.Rejects m := by
  have hf := queued_fresh hq
  have hr := reachable_recordsOK hdb
  obtain ⟨g', order, installs, removals, hp⟩ := transPrepare_ok hf h
  have hgg := hp.graph
  rw [hg, Option.some.injEq] at hgg
  subst hgg
  constructor
  · intro hsound n m n' m' hpull hsurv hne _
    obtain ⟨step, p, hs, hop, hpkg, rfl, hmeta⟩ := pulled_step hf hr hp hpull
    have := hsound step hs hop p hpkg n' m' hne ((applyPlan_iff hf hr hp n' m').2 hsurv)
    rwa [hmeta] at this
  · intro hcond step hplan hop p hpkg n' m' hne happ
    have hpull := step_pulled hf hr hp hplan hop hpkg
    by_cases hc : Checked mem db trans step.pkgName n' m'
    · exact checked_ok hf hr hp hpull hc
    · exact hcond _ _ n' m' hpull ((applyPlan_iff hf hr hp n' m').1 happ) hne hc

/-- A package `a` that rejects `b`, at address 1, and a package `c` everywhere else. -/
def besideC : Heap := fun p =>
  if p = 1 then { metadata := { name := some (cstr "a"), conflicts := [some (cstr "b")] } } else bare "c" []

/-- No package of the heap rejects another. -/
theorem besideC_friendly (p q : Ptr) : ¬(besideC p).metadata.Rejects (besideC q).metadata := by
  rintro ⟨x, hx, hq⟩
  by_cases hp : p = 1
  · simp only [besideC, if_pos hp, List.mem_singleton, Option.some.injEq] at hx
    subst hx
    by_cases hq1 : q = 1
    · simp [besideC, hq1] at hq
      exact absurd hq (by decide)
    · simp [besideC, hq1, bare] at hq
      exact absurd hq (by decide)
  · simp [besideC, hp, bare] at hx

/-- `a` and `c` are queued together. -/
theorem transPrepare_conflictSound_beside :
    ∃ trans mem' t, Queued besideC trans ∧
      transPrepare (fun _ => none) besideC (dbOpen true true) trans = some (.ok, mem', t) ∧
      t.plan.map (·.pkgName) = [cstr "a", cstr "c"] ∧ ConflictSound mem' (recorded (dbOpen true true)) t.plan := by
  have hq : Queued besideC { installPkgs := [1, 2] } := Queued.install 2 (Queued.install 1 Queued.new)
  have hrun : (transPrepare (fun _ => none) besideC (dbOpen true true) { installPkgs := [1, 2] }).map
      (fun r => (r.1, r.2.2.plan.map (·.pkgName))) = some (.ok, [cstr "a", cstr "c"]) := by decide
  have hgraph : (transGraph besideC (dbOpen true true) { installPkgs := [1, 2] }).isSome := by decide
  obtain ⟨⟨err, mem', t⟩, h, hres⟩ := Option.map_eq_some_iff.1 hrun
  obtain ⟨g, hg⟩ := Option.isSome_iff_exists.1 hgraph
  simp only [Prod.mk.injEq] at hres
  obtain ⟨rfl, hplan⟩ := hres
  refine ⟨_, mem', t, hq, h, hplan, ?_⟩
  refine (transPrepare_conflictSound_iff hq (Reachable.new true true) hg h).2 ?_
  rintro n m n' m' ⟨-, -, p, -, rfl⟩ ⟨-, hsurv⟩ hne -
  -- both are packages of the heap
  have hlast : lastUpgrade besideC { installPkgs := [1, 2] } n' = none := rfl
  rw [hlast] at hsurv
  rcases hsurv with hrec | ⟨-, -, q, -, rfl⟩
  · simp [recorded, dbGet, dbOpen] at hrec
  · exact ⟨besideC_friendly p q, besideC_friendly q p⟩

/-- A package `a` that rejects `b`, at address 1, and a package `b` everywhere
else. -/
def rejectsB : Heap := fun p =>
  if p = 1 then { metadata := { name := some (cstr "a"), conflicts := [some (cstr "b")] } } else bare "b" []

/-- `a` and `b` are queued together. -/
theorem transPrepare_conflictSound_pair :
    ∃ trans mem' t, ConflictFree (recorded (dbOpen true true)) ∧ Queued rejectsB trans ∧
      transPrepare (fun _ => none) rejectsB (dbOpen true true) trans = some (.ok, mem', t) ∧
      ¬ConflictSound mem' (recorded (dbOpen true true)) t.plan := by
  have hq : Queued rejectsB { installPkgs := [1, 2] } := Queued.install 2 (Queued.install 1 Queued.new)
  have hrun : (transPrepare (fun _ => none) rejectsB (dbOpen true true) { installPkgs := [1, 2] }).map
      (fun r => (r.1, r.2.2.plan)) = some (.ok, [⟨.install, cstr "a", none, true, some 1⟩,
        ⟨.install, cstr "b", none, true, some 2⟩]) := by decide
  obtain ⟨⟨err, mem', t⟩, h, hres⟩ := Option.map_eq_some_iff.1 hrun
  simp only [Prod.mk.injEq] at hres
  obtain ⟨rfl, hplan⟩ := hres
  refine ⟨_, mem', t, ?_, hq, h, ?_⟩
  · intro n m n' m' _ hn
    simp [recorded, dbGet, dbOpen] at hn
  obtain ⟨g, order, installs, removals, hp⟩ := transPrepare_ok (queued_fresh hq) h
  intro hsound
  have hne : cstr "b" ≠ cstr "a" := by decide
  have hb : applyPlan mem' t.plan (recorded (dbOpen true true)) (cstr "b") = some (rejectsB 2).metadata := by
    rw [hplan]
    simp only [applyPlan, List.foldl_cons, List.foldl_nil, applyStep, stepPkg, Option.map_some, hp.metadata,
      Function.update_self]
  have hpair := hsound ⟨.install, cstr "a", none, true, some 1⟩ (by rw [hplan]; simp) rfl 1 rfl _ _ hne hb
  rw [hp.metadata] at hpair
  exact hpair.1 ⟨cstr "b", by simp [rejectsB], Or.inl rfl⟩

end Apg
