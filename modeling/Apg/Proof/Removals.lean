import Apg.Lib.Peel
import Apg.Proof.Prepare

/-!
# What a plan takes away

`db_get_dependents` and the removals of a prepared plan.

* `mem_dbGetDependents`: the dependents of a name are the other packages that ask for
  it or for something that its package provides.
* `transPrepare_removals_closed`: **nothing that stays depends on what goes, and
  nothing that is held is touched.**
* `pushRemovalsInOrder_dependentsFirst_iff`: **when removals go dependents first**: the
  order of `push_removals_in_order` is one that takes the list apart from its free ends
  (`Peel.Peels`).
-/

namespace Apg

variable {mem : Heap} {db : Db} {trans : ApgTrans}

/-! ## Dependents -/

/-- The dependency asks for the name or for one of the provided names. -/
def DepConstraint.AsksFor (c : DepConstraint) (name : CStr) (provides : List (Option CStr)) : Prop :=
  c.name = some name ∨ ∃ n, c.name = some n ∧ some n ∈ provides

/-- What the package recorded under the name provides, nothing if there is none. -/
def providesOf (db : Db) (name : CStr) : List (Option CStr) :=
  ((dbGet db name).map (·.metadata.provides)).getD []

theorem oneOf_eq {needle : CStr} : ∀ {names : List (Option CStr)} {b : Bool}, oneOf needle names = some b →
    (b = true ↔ some needle ∈ names) := by
  intro names
  induction names with
  | nil => intro b h; simp [oneOf] at h; simp [← h]
  | cons o names ih =>
    intro b h
    cases o with
    | none => simp [oneOf] at h
    | some s =>
      unfold oneOf at h
      by_cases hs : needle = s
      · rw [if_pos hs, Option.some.injEq] at h
        simp [← h, hs]
      · rw [if_neg hs] at h
        rw [ih h, List.mem_cons, Option.some.injEq]
        simp [hs]

theorem namesMatch_eq {c : DepConstraint} {name : CStr} {provides : List (Option CStr)} {b : Bool}
    (h : namesMatch c.name name provides = some b) : b = true ↔ c.AsksFor name provides := by
  unfold namesMatch at h
  unfold DepConstraint.AsksFor
  cases hc : c.name with
  | none => simp [hc] at h
  | some s =>
    rw [hc] at h
    simp only at h
    by_cases hs : s = name
    · rw [if_pos hs, Option.some.injEq] at h
      simp [← h, hs]
    · rw [if_neg hs] at h
      rw [oneOf_eq h]
      simp [hs]

theorem anyMatch_eq {name : CStr} {provides : List (Option CStr)} : ∀ {deps : List DepConstraint} {b : Bool},
    anyMatch name provides deps = some b → (b = true ↔ ∃ c ∈ deps, c.AsksFor name provides) := by
  intro deps
  induction deps with
  | nil => intro b h; simp [anyMatch] at h; simp [← h]
  | cons c deps ih =>
    intro b h
    unfold anyMatch at h
    cases hm : namesMatch c.name name provides with
    | none => simp [hm] at h
    | some found =>
      have hc := namesMatch_eq hm
      cases found with
      | true =>
        simp only [hm, Option.some.injEq] at h
        have hasks := hc.1 rfl
        simp [← h, hasks]
      | false =>
        simp only [hm] at h
        have hnot : ¬c.AsksFor name provides := fun hasks => absurd (hc.2 hasks) (by simp)
        rw [ih h]
        simp [hnot]

theorem mem_dependentsLoop {name : CStr} {provides : List (Option CStr)} : ∀ {pkgs : List Package}
    {result : List CStr}, dependentsLoop name provides pkgs = some result → ∀ n, n ∈ result ↔
      ∃ p ∈ pkgs, p.metadata.name = some n ∧ n ≠ name ∧ ∃ c ∈ p.metadata.dependencies, c.AsksFor name provides := by
  intro pkgs
  induction pkgs with
  | nil => intro result h n; simp [dependentsLoop] at h; simp [h]
  | cons p pkgs ih =>
    intro result h n
    unfold dependentsLoop at h
    simp only [List.mem_cons, exists_eq_or_imp]
    cases hp : p.metadata.name with
    | none =>
      simp only [hp] at h
      rw [ih h n]
      simp
    | some m =>
      simp only [hp] at h
      by_cases hm : m = name
      -- the package itself is passed over
      · rw [if_pos hm] at h
        rw [ih h n]
        have hself : ¬(some m = some n ∧ n ≠ name ∧ ∃ c ∈ p.metadata.dependencies, c.AsksFor name provides) := by
          rintro ⟨hmn, hne, -⟩
          exact hne ((Option.some.inj hmn).symm.trans hm)
        simp only [hself, false_or]
      · rw [if_neg hm] at h
        cases hany : anyMatch name provides p.metadata.dependencies with
        | none => simp [hany] at h
        | some found =>
          simp only [hany] at h
          obtain ⟨rest, hrest, rfl⟩ := Option.map_eq_some_iff.1 h
          have hfound := anyMatch_eq hany
          have hih := ih hrest n
          cases found with
          | true =>
            have hasks := hfound.1 rfl
            rw [if_pos rfl, List.mem_cons, hih]
            constructor
            · rintro (rfl | hn)
              · exact Or.inl ⟨rfl, hm, hasks⟩
              · exact Or.inr hn
            · rintro (⟨hn, -⟩ | hn)
              · exact Or.inl (Option.some.inj hn).symm
              · exact Or.inr hn
          | false =>
            have hnone : ¬∃ c ∈ p.metadata.dependencies, c.AsksFor name provides :=
              fun hasks => absurd (hfound.2 hasks) (by simp)
            rw [if_neg (by simp), hih]
            simp only [hnone, and_false, false_or]

/-- **Who depends on a name**: every other package that asks for it. -/
theorem mem_dbGetDependents {name : CStr} {dependents : List CStr} (h : dbGetDependents db name = some dependents)
    (n : CStr) : n ∈ dependents ↔ ∃ p ∈ dbList db, p.metadata.name = some n ∧ n ≠ name ∧
      ∃ c ∈ p.metadata.dependencies, c.AsksFor name (providesOf db name) :=
  mem_dependentsLoop h n

/-! ## The removals of a plan -/

theorem heldIn_eq_false {name : CStr} (h : heldIn db name = false) : ∀ pkg, dbGet db name = some pkg → pkg.held = false := by
  intro pkg hpkg
  simpa [heldIn, hpkg] using h

/-- The names that the plan removes. -/
def removedNames (plan : List TransStep) : List CStr := (plan.filter fun s => s.op = .remove).map (·.pkgName)

theorem prepareOK_removed {g : DepGraph} {order : List CStr} {installs : List TransStep} {removals : List CStr}
    {mem' : Heap} {t : ApgTrans} (hp : PrepareOK mem db trans g order installs removals mem' t) :
    removedNames t.plan = removals := by
  have hinst : installs.filter (fun s => s.op = .remove) = [] := by
    rw [List.filter_eq_nil_iff]
    intro s hs
    simp [(hp.steps.sound s hs).1]
  have hups : (trans.upgradePkgs.map (upgradeStep mem db)).filter (fun s => s.op = .remove) = [] := by
    rw [List.filter_eq_nil_iff]
    intro s hs
    obtain ⟨p, -, rfl⟩ := List.mem_map.1 hs
    simp [upgradeStep]
  have hrms : (removals.map removeStep).filter (fun s => s.op = .remove) = removals.map removeStep := by
    rw [List.filter_eq_self]
    intro s hs
    obtain ⟨n, -, rfl⟩ := List.mem_map.1 hs
    simp [removeStep]
  unfold removedNames
  rw [hp.plan, List.filter_append, List.filter_append, hinst, hups, hrms]
  simp [removeStep, Function.comp_def]

/-- **Planned removals are closed and respect holds.** -/
theorem transPrepare_removals_closed {collect : Ptr → Option (List CStr)} {mem' : Heap} {t : ApgTrans}
    (hq : Queued mem trans) (hdb : Reachable (fun _ => True) db) (hcheck : trans.skipDependentsCheck = false)
    (h : transPrepare collect mem db trans = some (.ok, mem', t)) :
    (removedNames t.plan).Perm trans.removeNames ∧
      (∀ step ∈ t.plan, step.op = .remove ∨ step.op = .upgrade →
        ∀ pkg, dbGet db step.pkgName = some pkg → pkg.held = false) ∧
      ∀ pkg ∈ dbList db, (∀ n ∈ removedNames t.plan, pkg.metadata.name ≠ some n) →
        ∀ n ∈ removedNames t.plan, ∀ c ∈ pkg.metadata.dependencies, ¬c.AsksFor n (providesOf db n) := by
  obtain ⟨⟨g, order, installs, removals, hp⟩, -, hups, hrms⟩ := transPrepare_checked (queued_fresh hq) h
  have hremoved := prepareOK_removed hp
  rw [hremoved]
  refine ⟨hp.removed, ?_, ?_⟩
  · intro step hstep hop
    apply heldIn_eq_false
    rw [hp.plan, List.mem_append, List.mem_append] at hstep
    rcases hstep with (hs | hs) | hs
    · rw [(hp.steps.sound step hs).1] at hop
      simp at hop
    · obtain ⟨p, hpq, rfl⟩ := List.mem_map.1 hs
      exact hups p hpq
    · obtain ⟨n, hn, rfl⟩ := List.mem_map.1 hs
      exact (hrms n (hp.removed.mem_iff.1 hn)).1
  · intro pkg hpkg hstays n hn c hc hasks
    obtain ⟨m, hm⟩ := Option.ne_none_iff_exists'.1 (dbList_named (reachable_recordsOK hdb) pkg hpkg)
    obtain ⟨dependents, hdeps, hall⟩ := (hrms n (hp.removed.mem_iff.1 hn)).2 hcheck
    -- it is not the removed package itself, so it is among its dependents
    have hne : m ≠ n := fun hmn => hstays n hn (hmn ▸ hm)
    have hmem : m ∈ dependents := (mem_dbGetDependents hdeps m).2 ⟨pkg, hpkg, hm, hne, c, hc, hasks⟩
    -- and those all go
    have hgoes : m ∈ removals := hp.removed.mem_iff.2 (hall m hmem)
    exact hstays m hgoes hm

/-- A package `a` that asks for `v`. -/
def asksV : Package :=
  { metadata := { name := some (cstr "a"), dependencies := [⟨some (cstr "v"), .any, none⟩] } }

/-- A package `b` that provides `v`. -/
def offersV : Package := { metadata := { name := some (cstr "b"), provides := [some (cstr "v")] } }

/-- `b` goes together with `a`, which needs what `b` provides; `c` stays. -/
theorem transPrepare_removals_closed_provided :
    ∃ db mem' t, Reachable (fun _ => True) db ∧
      transPrepare (fun _ => none) (fun _ => bare "q" []) db { removeNames := [cstr "b", cstr "a"] } =
        some (.ok, mem', t) ∧ removedNames t.plan = [cstr "a", cstr "b"] ∧ (dbList db).length = 3 ∧
      ∀ pkg ∈ dbList db, (∀ n ∈ removedNames t.plan, pkg.metadata.name ≠ some n) →
        ∀ n ∈ removedNames t.plan, ∀ c ∈ pkg.metadata.dependencies, ¬c.AsksFor n (providesOf db n) := by
  have hrun : ((dbAdd (fun _ => .success) (dbOpen true true) asksV).bind fun r =>
      (dbAdd (fun _ => .success) r.2 offersV).bind fun r => (dbAdd (fun _ => .success) r.2 (bare "c" [])).bind fun r =>
      (transPrepare (fun _ => none) (fun _ => bare "q" []) r.2 { removeNames := [cstr "b", cstr "a"] }).map
        fun s => (s.1, removedNames s.2.2.plan, (dbList r.2).length)) =
      some (.ok, [cstr "a", cstr "b"], 3) := by decide
  obtain ⟨⟨ok₁, db₁⟩, h1, hrun⟩ := Option.bind_eq_some_iff.1 hrun
  obtain ⟨⟨ok₂, db₂⟩, h2, hrun⟩ := Option.bind_eq_some_iff.1 hrun
  obtain ⟨⟨ok₃, db⟩, h3, hrun⟩ := Option.bind_eq_some_iff.1 hrun
  obtain ⟨⟨err, mem', t⟩, h, hres⟩ := Option.map_eq_some_iff.1 hrun
  simp only [Prod.mk.injEq] at hres
  obtain ⟨rfl, hplan, hlen⟩ := hres
  have hdb : Reachable (fun _ => True) db := (((Reachable.new true true).add _ trivial h1).add _ trivial h2).add _ trivial h3
  have hq : Queued (fun _ => bare "q" []) { removeNames := [cstr "b", cstr "a"] } :=
    Queued.remove (cstr "a") (Queued.remove (cstr "b") Queued.new)
  exact ⟨db, mem', t, hdb, h, hplan, hlen, (transPrepare_removals_closed hq hdb rfl h).2.2⟩

/-! ## Dependents first -/

/-- The recorded package `a` depends on the recorded package `b`, by name or through
`provides`. -/
def RemovalNeeds (db : Db) (a b : CStr) : Prop :=
  ∃ p q name, dbGet db a = some p ∧ dbGet db b = some q ∧ q.metadata.name = some name ∧
    ∃ c ∈ p.metadata.dependencies, c.AsksFor name q.metadata.provides

theorem dependsOn_eq {a b : CStr} {needed : Bool} (h : dependsOn (dbGet db a) (dbGet db b) = some needed) :
    needed = true ↔ RemovalNeeds db a b := by
  unfold dependsOn at h
  unfold RemovalNeeds
  cases ha : dbGet db a with
  | none =>
    rw [ha] at h
    simp only [Option.some.injEq] at h
    simp [← h]
  | some p =>
    cases hb : dbGet db b with
    | none =>
      rw [ha, hb] at h
      simp only [Option.some.injEq] at h
      simp [← h]
    | some q =>
      rw [ha, hb] at h
      cases hname : q.metadata.name with
      | none =>
        simp only [hname, Option.some.injEq] at h
        simp [← h, hname]
      | some name =>
        simp only [hname] at h
        rw [anyMatch_eq h]
        simp [hname]

/-- The entry of a name that is not emitted yet. -/
def removalEntry (db : Db) (name : CStr) : CStr × Option Package := (name, dbGet db name)

theorem anyDependsOn_eq {b : CStr} : ∀ {names : List CStr} {needed : Bool},
    anyDependsOn (dbGet db b) (names.map (removalEntry db)) = some needed →
      (needed = true ↔ ∃ a ∈ names, RemovalNeeds db a b) := by
  intro names
  induction names with
  | nil =>
    intro needed h
    rw [List.map_nil, anyDependsOn, Option.some.injEq] at h
    simp [← h]
  | cons a names ih =>
    intro needed h
    rw [List.map_cons, anyDependsOn] at h
    have hentry : (removalEntry db a).2 = dbGet db a := rfl
    rw [hentry] at h
    cases hdep : dependsOn (dbGet db a) (dbGet db b) with
    | none =>
      rw [hdep] at h
      exact absurd h (by simp)
    | some dep =>
      have hiff := dependsOn_eq hdep
      rw [hdep] at h
      cases dep with
      | true =>
        simp only [Option.some.injEq] at h
        rw [← h]
        simp [hiff.1 rfl]
      | false =>
        rw [ih h]
        have hnot : ¬RemovalNeeds db a b := fun hn => absurd (hiff.2 hn) (by simp)
        simp [hnot]

/-- A name is picked that no other one left needs, or every one is needed. -/
theorem pickFree_cases : ∀ (after before : List CStr) {r : Option (CStr × List (CStr × Option Package))},
    pickFree (before.map (removalEntry db)) (after.map (removalEntry db)) = some r →
    (∃ xs a ys, before ++ after = xs ++ a :: ys ∧ r = some (a, (xs ++ ys).map (removalEntry db)) ∧
      ∀ b ∈ xs ++ ys, ¬RemovalNeeds db b a) ∨
    (r = none ∧ ∀ xs a ys, after = xs ++ a :: ys → ∃ b ∈ before ++ xs ++ ys, RemovalNeeds db b a) := by
  intro after
  induction after with
  | nil =>
    intro before r h
    rw [List.map_nil, pickFree, Option.some.injEq] at h
    exact Or.inr ⟨h.symm, fun xs a ys heq => absurd heq (by simp)⟩
  | cons e after ih =>
    intro before r h
    rw [List.map_cons, pickFree, ← List.map_append] at h
    have hentry : (removalEntry db e).2 = dbGet db e := rfl
    rw [hentry] at h
    cases hany : anyDependsOn (dbGet db e) ((before ++ after).map (removalEntry db)) with
    | none =>
      rw [hany] at h
      exact absurd h (by simp)
    | some needed =>
      have hiff := anyDependsOn_eq hany
      rw [hany] at h
      cases needed with
      | false =>
        simp only [Option.some.injEq] at h
        exact Or.inl ⟨before, e, after, rfl, h.symm, fun b hb hn => absurd (hiff.2 ⟨b, hb, hn⟩) (by simp)⟩
      | true =>
        have hnext : before.map (removalEntry db) ++ [removalEntry db e] = (before ++ [e]).map (removalEntry db) := by
          rw [List.map_append, List.map_singleton]
        simp only [hnext] at h
        rcases ih (before ++ [e]) h with ⟨xs, a, ys, hsplit, hr, hfree⟩ | ⟨hr, hall⟩
        · exact Or.inl ⟨xs, a, ys, by rw [← hsplit]; simp, hr, hfree⟩
        · refine Or.inr ⟨hr, fun xs a ys heq => ?_⟩
          cases xs with
          | nil =>
            rw [List.nil_append, List.cons.injEq] at heq
            obtain ⟨b, hb, hn⟩ := hiff.1 rfl
            rw [← heq.1, ← heq.2]
            exact ⟨b, by simpa using hb, hn⟩
          | cons x xs =>
            rw [List.cons_append, List.cons.injEq] at heq
            obtain ⟨b, hb, hn⟩ := hall xs a ys heq.2
            exact ⟨b, by rw [heq.1] at hb; simpa using hb, hn⟩

/-- **`push_removals_in_order` takes the list apart from its free ends.** -/
theorem removalOrder_peels : ∀ (n : ℕ) {names order : List CStr}, names.length = n → names.Nodup →
    removalOrder n (names.map (removalEntry db)) = some order → Peel.Peels (RemovalNeeds db) names order := by
  intro n
  induction n with
  | zero =>
    intro names order hlen _ h
    rw [removalOrder, Option.some.injEq] at h
    rw [List.length_eq_zero_iff.1 hlen, ← h]
    exact Peel.Peels.nil
  | succ n ih =>
    intro names order hlen hnd h
    cases names with
    | nil => exact absurd hlen (by simp)
    | cons e rest =>
      rw [List.length_cons] at hlen
      rw [List.map_cons, removalOrder, ← List.map_cons] at h
      cases hpick : pickFree [] ((e :: rest).map (removalEntry db)) with
      | none =>
        rw [hpick] at h
        exact absurd h (by simp)
      | some r =>
        rw [hpick] at h
        rcases pickFree_cases (e :: rest) [] hpick with ⟨xs, a, ys, hsplit, rfl, hfree⟩ | ⟨rfl, hall⟩
        · obtain ⟨order', horder, rfl⟩ := Option.map_eq_some_iff.1 h
          rw [List.nil_append] at hsplit
          have hlen' := congrArg List.length hsplit
          rw [List.length_cons, List.length_append, List.length_cons] at hlen'
          rw [hsplit] at hnd ⊢
          refine Peel.Peels.free hfree (ih ?_ (List.nodup_cons.1 (List.nodup_middle.1 hnd)).2 horder)
          rw [List.length_append]
          omega
        · obtain ⟨order', horder, rfl⟩ := Option.map_eq_some_iff.1 h
          refine Peel.Peels.stuck ?_ (ih (by omega) (List.nodup_cons.1 hnd).2 horder)
          -- each name is needed, and by another one, since the names are all different
          intro b hb
          obtain ⟨xs, ys, hsplit⟩ := List.append_of_mem hb
          obtain ⟨c, hc, hn⟩ := hall xs b ys hsplit
          rw [List.nil_append] at hc
          rw [hsplit] at hnd ⊢
          have hnot := (List.nodup_cons.1 (List.nodup_middle.1 hnd)).1
          refine ⟨c, ?_, fun heq => hnot (heq ▸ hc), hn⟩
          rcases List.mem_append.1 hc with hc | hc
          · exact List.mem_append_left _ hc
          · exact List.mem_append_right _ (List.mem_cons_of_mem _ hc)

/-- **Removals go dependents first**: a package comes before one it depends on, unless
that one depends on it through packages of the list. -/
def DependentsFirst (db : Db) (names order : List CStr) : Prop :=
  ∀ i ∈ names, ∀ j ∈ names, RemovalNeeds db j i → ¬Peel.NeededIn (RemovalNeeds db) names i j →
    order.idxOf j < order.idxOf i

/-- **When removals go dependents first**: in every part of the list in which each
package is needed by another one, the first package depends on all those that depend
on it. The steps are a permutation of the list in any case. -/
theorem pushRemovalsInOrder_dependentsFirst_iff {t : ApgTrans} {names : List CStr} (hnd : names.Nodup)
    (h : pushRemovalsInOrder db trans names = some t) :
    ∃ order, t.plan = trans.plan ++ order.map removeStep ∧ order.Perm names ∧
      (DependentsFirst db names order ↔ ∀ i rest, (i :: rest).Sublist names →
        Peel.Blocked (RemovalNeeds db) (i :: rest) → ∀ j ∈ rest, RemovalNeeds db j i →
          Peel.NeededIn (RemovalNeeds db) names i j) := by
  unfold pushRemovalsInOrder at h
  obtain ⟨order, horder, rfl⟩ := Option.map_eq_some_iff.1 h
  have hpeels := removalOrder_peels names.length rfl hnd horder
  exact ⟨order, by rw [foldl_removeStep], hpeels.perm, hpeels.before_iff hnd⟩

/-- A dependency that was evaluated to none. -/
theorem not_removalNeeds {a b : CStr} (h : dependsOn (dbGet db a) (dbGet db b) = some false) : ¬RemovalNeeds db a b :=
  fun hn => absurd ((dependsOn_eq h).2 hn) (by simp)

/-- `a` asks for what `b` provides and goes first. -/
theorem pushRemovalsInOrder_dependentsFirst_provided :
    ∃ db t order, pushRemovalsInOrder db {} [cstr "b", cstr "a"] = some t ∧ t.plan = order.map removeStep ∧
      DependentsFirst db [cstr "b", cstr "a"] order ∧ RemovalNeeds db (cstr "a") (cstr "b") := by
  have hruns : ∃ db₁, dbAdd (fun _ => .success) (dbOpen true true) asksV = some (true, db₁) ∧
      ∃ db, dbAdd (fun _ => .success) db₁ offersV = some (true, db) ∧
        dependsOn (dbGet db (cstr "a")) (dbGet db (cstr "b")) = some true ∧
        dependsOn (dbGet db (cstr "a")) (dbGet db (cstr "a")) = some false ∧
        dependsOn (dbGet db (cstr "b")) (dbGet db (cstr "a")) = some false ∧
        ∃ t, pushRemovalsInOrder db {} [cstr "b", cstr "a"] = some t :=
    ⟨_, rfl, _, rfl, by decide, by decide, by decide, _, rfl⟩
  obtain ⟨db₁, -, db, -, hab, haa, hba, t, ht⟩ := hruns
  obtain ⟨order, hplan, -, hiff⟩ := pushRemovalsInOrder_dependentsFirst_iff (by decide) ht
  refine ⟨db, t, order, ht, hplan, hiff.2 ?_, (dependsOn_eq hab).1 rfl⟩
  intro i rest hsub hblocked
  exfalso
  -- nothing needs `a`, and what needs `b` is `a`
  have hnone : ∀ c ∈ [cstr "b", cstr "a"], ¬RemovalNeeds db c (cstr "a") := by
    intro c hc
    simp only [List.mem_cons, List.not_mem_nil, or_false] at hc
    rcases hc with rfl | rfl
    · exact not_removalNeeds hba
    · exact not_removalNeeds haa
  have hout : ∀ x ∈ i :: rest, x ≠ cstr "a" := by
    rintro x hx rfl
    obtain ⟨c, hc, -, hn⟩ := hblocked _ hx
    exact hnone c (hsub.subset hc) hn
  have honly : ∀ x ∈ i :: rest, x = cstr "b" := by
    intro x hx
    have hmem := hsub.subset hx
    simp only [List.mem_cons, List.not_mem_nil, or_false] at hmem
    exact hmem.resolve_right (hout x hx)
  obtain ⟨c, hc, hne, -⟩ := hblocked i List.mem_cons_self
  exact hne ((honly c hc).trans (honly i List.mem_cons_self).symm)

/-- A package that asks for the names. -/
def asking (name : String) (deps : List String) : Package where
  metadata := { name := some (cstr name), dependencies := deps.map fun d => ⟨some (cstr d), .any, none⟩ }

/-- `a` and `b` need each other and `a` needs `x`, which comes first in the list: it is
removed first, although nothing makes it depend on `a`. -/
theorem pushRemovalsInOrder_dependentsFirst_cycle :
    ∃ db t, Reachable (fun _ => True) db ∧
      pushRemovalsInOrder db {} [cstr "x", cstr "a", cstr "b"] = some t ∧
      t.plan = [cstr "x", cstr "a", cstr "b"].map removeStep ∧
      ¬DependentsFirst db [cstr "x", cstr "a", cstr "b"] [cstr "x", cstr "a", cstr "b"] := by
  have hruns : ∃ db₁, dbAdd (fun _ => .success) (dbOpen true true) (asking "x" []) = some (true, db₁) ∧
      ∃ db₂, dbAdd (fun _ => .success) db₁ (asking "a" ["x", "b"]) = some (true, db₂) ∧
      ∃ db, dbAdd (fun _ => .success) db₂ (asking "b" ["a"]) = some (true, db) ∧
        dependsOn (dbGet db (cstr "a")) (dbGet db (cstr "x")) = some true ∧
        (∀ c ∈ [cstr "x", cstr "a", cstr "b"], dependsOn (dbGet db (cstr "x")) (dbGet db c) = some false) ∧
        ∃ t, pushRemovalsInOrder db {} [cstr "x", cstr "a", cstr "b"] = some t ∧
          t.plan = [cstr "x", cstr "a", cstr "b"].map removeStep :=
    ⟨_, rfl, _, rfl, _, rfl, by decide, by decide, _, rfl, by decide⟩
  obtain ⟨db₁, h1, db₂, h2, db, h3, hax, hx, t, ht, hplan⟩ := hruns
  refine ⟨db, t, (((Reachable.new true true).add _ trivial h1).add _ trivial h2).add _ trivial h3, ht, hplan, ?_⟩
  intro hfirst
  have hbefore := hfirst (cstr "x") (by simp) (cstr "a") (by simp) ((dependsOn_eq hax).1 rfl) ?_
  · exact absurd hbefore (by decide)
  · intro hneeded
    -- `x` depends on nothing
    obtain ⟨c, ⟨-, hc, hn⟩, -⟩ := Relation.TransGen.head'_iff.1 hneeded
    exact not_removalNeeds (hx c hc) hn

end Apg
