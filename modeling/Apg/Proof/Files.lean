import Apg.Proof.Prepare

/-!
# `trans_prepare` and the files of packages

The check of files takes the queued installs one by one and asks the index of owners
for each of their paths. It does not compare the packages of one plan with each
other, it does not look at candidates and upgrades, and it finds nothing where the
index has no entry.

* `transPrepare_filesDisjoint_iff`: **exactly then lists stay disjoint.**
-/

namespace Apg

variable {mem : Heap} {db : Db} {trans : ApgTrans} {g : DepGraph} {collect : Ptr → Option (List CStr)}

/-! ## The check -/

/-- The lists of the queued packages are known: the archive of a package without a
list has no files. -/
def FilesKnown (collect : Ptr → Option (List CStr)) (mem : Heap) (trans : ApgTrans) : Prop :=
  ∀ p, p ∈ trans.installPkgs ∨ p ∈ trans.candidatePkgs ∨ p ∈ trans.upgradePkgs → (mem p).packageFiles = [] →
    ∀ files, collect p = some files → files = []

theorem collectFiles_known {p : Ptr} (h : (mem p).packageFiles = [] → ∀ files, collect p = some files → files = []) :
    collectFiles collect mem p = mem := by
  unfold collectFiles
  split
  · rename_i files hnone hfiles
    have hempty : files = [] := h hnone files hfiles
    rw [hempty, List.map_nil, ← hnone]
    exact Function.update_eq_self p mem
  · rfl

theorem pushFileConflicts_nil {name : CStr} : ∀ {files : List (Option CStr)} {t : ApgTrans},
    (pushFileConflicts db name t files).fileConflicts = [] →
    t.fileConflicts = [] ∧ ∀ path, some path ∈ files → ∀ owner, dbOwner db path = some owner → owner = name := by
  intro files
  induction files with
  | nil => intro t h; exact ⟨h, fun path hp => absurd hp (by simp)⟩
  | cons o files ih =>
    intro t h
    cases o with
    | none =>
      obtain ⟨h1, h2⟩ := ih h
      refine ⟨h1, fun path hp => h2 path ?_⟩
      simpa using hp
    | some path =>
      -- a path that passes the check
      have hpass : (∀ owner, dbOwner db path = some owner → owner = name) →
          (pushFileConflicts db name t files).fileConflicts = [] → t.fileConflicts = [] ∧
          ∀ path', some path' ∈ some path :: files → ∀ owner, dbOwner db path' = some owner → owner = name := by
        intro hown hrest
        obtain ⟨h1, h2⟩ := ih hrest
        refine ⟨h1, fun path' hp => ?_⟩
        rcases List.mem_cons.1 hp with heq | hp
        · rw [Option.some.inj heq]; exact hown
        · exact h2 path' hp
      unfold pushFileConflicts at h
      split at h
      · rename_i hnone
        apply hpass _ h
        intro owner howner
        rw [hnone] at howner
        exact absurd howner (by simp)
      · rename_i owner howner
        split at h
        · rename_i heq
          apply hpass _ h
          intro owner' howner'
          rw [howner, Option.some.injEq] at howner'
          exact howner'.symm.trans heq
        · have hpushed := (ih h).1
          exact absurd hpushed (by simp)

/-- **What the check of the files establishes**: a path of a queued install has no
owner but the package itself. -/
theorem checkFiles_nil (db : Db) : ∀ {pkgs : List Ptr} (t : ApgTrans),
    (∀ p ∈ pkgs, (mem p).packageFiles = [] → ∀ files, collect p = some files → files = []) →
    (checkFiles collect db pkgs mem t).1 = mem ∧
      ((checkFiles collect db pkgs mem t).2.fileConflicts = [] → t.fileConflicts = [] ∧
        ∀ p ∈ pkgs, ∀ name, (mem p).metadata.name = some name → ∀ path ∈ (mem p).paths, ∀ owner,
          dbOwner db path = some owner → owner = name) := by
  intro pkgs
  induction pkgs with
  | nil =>
    intro t _
    exact ⟨rfl, fun h => ⟨h, fun p hp => absurd hp (by simp)⟩⟩
  | cons p pkgs ih =>
    intro t hknown
    have hrest := fun q hq => hknown q (List.mem_cons_of_mem _ hq)
    unfold checkFiles
    split
    · rename_i hnone
      obtain ⟨h1, h2⟩ := ih t hrest
      refine ⟨h1, fun h => ⟨(h2 h).1, fun q hq name hname => ?_⟩⟩
      rcases List.mem_cons.1 hq with rfl | hq
      · rw [hnone] at hname; exact absurd hname (by simp)
      · exact (h2 h).2 q hq name hname
    · rename_i name hname
      simp only
      rw [collectFiles_known (hknown p List.mem_cons_self)]
      obtain ⟨h1, h2⟩ := ih (pushFileConflicts db name t (mem p).packageFiles) hrest
      refine ⟨h1, fun h => ?_⟩
      obtain ⟨h3, h4⟩ := pushFileConflicts_nil (h2 h).1
      refine ⟨h3, fun q hq name' hname' path hpath => ?_⟩
      rcases List.mem_cons.1 hq with rfl | hq
      · rw [hname, Option.some.injEq] at hname'
        rw [← hname']
        exact h4 path (List.reduceOption_mem_iff.1 hpath)
      · exact (h2 h).2 q hq name' hname' path hpath

/-! ## Who lists what -/

/-- The plan delivers a package of the name, the last upgrade or else what is pulled
in, and leaves it there. -/
def Delivered (mem : Heap) (db : Db) (trans : ApgTrans) (g : DepGraph) (n : CStr) (l : List CStr) : Prop :=
  n ∉ trans.removeNames ∧
    ((∃ p, lastUpgrade mem trans n = some p ∧ (mem p).paths = l) ∨
      lastUpgrade mem trans n = none ∧ ∃ p, PulledAt mem db trans g n p ∧ (mem p).paths = l)

/-- The package of the name stays as it is recorded. -/
def Stays (mem : Heap) (db : Db) (trans : ApgTrans) (n : CStr) (l : List CStr) : Prop :=
  n ∉ trans.removeNames ∧ lastUpgrade mem trans n = none ∧ recordedAs Package.paths db n = some l

/-- What is delivered under the name is queued with `trans_add_install`. -/
def QueuedInstall (mem : Heap) (trans : ApgTrans) (n : CStr) : Prop :=
  lastUpgrade mem trans n = none ∧ findInstallPkg mem trans n ≠ none

theorem survivesAs_paths {n : CStr} {l : List CStr} :
    SurvivesAs Package.paths mem db trans g n l ↔ Delivered mem db trans g n l ∨ Stays mem db trans n l := by
  unfold SurvivesAs Delivered Stays
  cases lastUpgrade mem trans n with
  | some p => simp
  | none =>
    simp only [reduceCtorEq, false_and, exists_false, true_and, false_or]
    rw [← and_or_left, or_comm]

theorem delivered_ne_stays {n n' : CStr} {l l' : List CStr} (h : Delivered mem db trans g n l)
    (h' : Stays mem db trans n' l') : n ≠ n' := by
  rintro rfl
  obtain ⟨-, hlast, hrec⟩ := h'
  rcases h.2 with ⟨p, hp, -⟩ | ⟨-, p, hp, -⟩
  · rw [hlast] at hp
    exact absurd hp (by simp)
  · have hnone := hp.2.1
    unfold recorded at hnone
    unfold recordedAs at hrec
    rw [Option.map_eq_none_iff] at hnone
    rw [hnone] at hrec
    exact absurd hrec (by simp)

/-- The list of a queued install is that of a package of the queue. -/
theorem delivered_queued {n : CStr} {l : List CStr} (h : Delivered mem db trans g n l)
    (hq : QueuedInstall mem trans n) : ∃ p ∈ trans.installPkgs, (mem p).metadata.name = some n ∧ (mem p).paths = l := by
  rcases h.2 with ⟨p, hp, -⟩ | ⟨-, p, hp, hl⟩
  · rw [hq.1] at hp
    exact absurd hp (by simp)
  · obtain ⟨q, hfind⟩ := Option.ne_none_iff_exists'.1 hq.2
    have hfirst := hp.2.2
    unfold firstQueued at hfirst
    rw [hfind, Option.some_or, Option.some.injEq] at hfirst
    subst hfirst
    unfold findInstallPkg at hfind
    exact ⟨q, List.mem_of_find?_eq_some hfind, findPkg_name hfind, hl⟩

/-- No two packages share a path where the check does not see it: packages of the
plan, an upgrade or a candidate and a package that stays, or an install of the queue
and a package that stays, when the index does not have the path under another name. -/
structure FilesApart (mem : Heap) (db : Db) (trans : ApgTrans) (g : DepGraph) : Prop where
  delivered : ∀ n n' l l', n ≠ n' → Delivered mem db trans g n l → Delivered mem db trans g n' l' → l.Disjoint l'
  unchecked : ∀ n n' l l', Delivered mem db trans g n l → ¬QueuedInstall mem trans n → Stays mem db trans n' l' →
    l.Disjoint l'
  owned : ∀ n n' l l', Delivered mem db trans g n l → QueuedInstall mem trans n → Stays mem db trans n' l' →
    ∀ path ∈ l, path ∈ l' → ∃ owner, dbOwner db path = some owner ∧ owner ≠ n

/-- **When lists stay disjoint**: exactly when no two packages share a path where the
check does not see it. -/
theorem transPrepare_filesDisjoint_iff {mem' : Heap} {t : ApgTrans} (hq : Queued mem trans)
    (hdb : Reachable (fun _ => True) db) (hknown : FilesKnown collect mem trans)
    (hdisjoint : FilesDisjoint (recordedAs Package.paths db)) (hg : transGraph mem db trans = some g)
    (h : transPrepare collect mem db trans = some (.ok, mem', t)) :
    FilesDisjoint (applyPlanAs Package.paths mem' t.plan (recordedAs Package.paths db)) ↔
      FilesApart mem db trans g := by
  have hf := queued_fresh hq
  have hr := reachable_recordsOK hdb
  obtain ⟨⟨g', order, installs, removals, hp⟩, ⟨t₀, hmem, hfound⟩, -⟩ := transPrepare_checked hf h
  have hgg := hp.graph
  rw [hg, Option.some.injEq] at hgg
  subst hgg
  -- the check changes no list, and finds no owner
  obtain ⟨hsame, howners⟩ := checkFiles_nil db t₀ fun p hp => hknown p (Or.inl hp)
  have hmem' : mem' = mem := hmem.symm.trans hsame
  have hlists : ∀ n l, applyPlanAs Package.paths mem' t.plan (recordedAs Package.paths db) n = some l ↔
      Delivered mem db trans g n l ∨ Stays mem db trans n l := by
    intro n l
    rw [applyPlanAs_iff hf hr hp (fun q => by rw [hmem']) n l]
    exact survivesAs_paths
  constructor
  · intro hafter
    refine ⟨fun n n' l l' hne hd hd' => ?_, fun n n' l l' hd _ hs => ?_, fun n n' l l' hd _ hs path hpl hpl' => ?_⟩
    · exact hafter n n' l l' hne ((hlists n l).2 (Or.inl hd)) ((hlists n' l').2 (Or.inl hd'))
    · exact hafter n n' l l' (delivered_ne_stays hd hs) ((hlists n l).2 (Or.inl hd)) ((hlists n' l').2 (Or.inr hs))
    · have hno := hafter n n' l l' (delivered_ne_stays hd hs) ((hlists n l).2 (Or.inl hd)) ((hlists n' l').2 (Or.inr hs))
      exact absurd hpl' (hno hpl)
  · intro hapart
    have hmixed : ∀ n n' l l', Delivered mem db trans g n l → Stays mem db trans n' l' → l.Disjoint l' := by
      intro n n' l l' hd hs
      by_cases hqi : QueuedInstall mem trans n
      · intro path hpl hpl'
        obtain ⟨owner, howner, hne⟩ := hapart.owned n n' l l' hd hqi hs path hpl hpl'
        obtain ⟨p, hpq, hname, rfl⟩ := delivered_queued hd hqi
        exact hne ((howners hfound).2 p hpq n hname path hpl owner howner)
      · exact hapart.unchecked n n' l l' hd hqi hs
    intro n n' l l' hne hn hn'
    rcases (hlists n l).1 hn with hd | hs
    · rcases (hlists n' l').1 hn' with hd' | hs'
      · exact hapart.delivered n n' l l' hne hd hd'
      · exact hmixed n n' l l' hd hs'
    · rcases (hlists n' l').1 hn' with hd' | hs'
      · exact (hmixed n' n l' l hd' hs).symm
      · exact hdisjoint n n' l l' hne hs.2.2 hs'.2.2

/-! ## Two queues -/

theorem recordedAs_new (n : CStr) : recordedAs Package.paths (dbOpen true true) n = none := by
  simp [recordedAs, dbGet, dbOpen]

theorem filesDisjoint_new : FilesDisjoint (recordedAs Package.paths (dbOpen true true)) := by
  intro n n' l l' _ hn
  rw [recordedAs_new] at hn
  exact absurd hn (by simp)

/-- Two packages, `a` at address 1 with `/x` and `b` everywhere else with `/y`. -/
def ownFiles : Heap := fun p => if p = 1 then bare "a" ["/x"] else bare "b" ["/y"]

/-- `a` and `b` are queued together, with files of their own. -/
theorem transPrepare_filesDisjoint_own :
    ∃ trans mem' t, Queued ownFiles trans ∧
      transPrepare (fun _ => none) ownFiles (dbOpen true true) trans = some (.ok, mem', t) ∧
      t.plan.map (·.pkgName) = [cstr "a", cstr "b"] ∧
      FilesDisjoint (applyPlanAs Package.paths mem' t.plan (recordedAs Package.paths (dbOpen true true))) := by
  have hq : Queued ownFiles { installPkgs := [1, 2] } := Queued.install 2 (Queued.install 1 Queued.new)
  have hrun : (transPrepare (fun _ => none) ownFiles (dbOpen true true) { installPkgs := [1, 2] }).map
      (fun r => (r.1, r.2.2.plan.map (·.pkgName))) = some (.ok, [cstr "a", cstr "b"]) := by decide
  have hgraph : (transGraph ownFiles (dbOpen true true) { installPkgs := [1, 2] }).isSome := by decide
  obtain ⟨⟨err, mem', t⟩, h, hres⟩ := Option.map_eq_some_iff.1 hrun
  obtain ⟨g, hg⟩ := Option.isSome_iff_exists.1 hgraph
  simp only [Prod.mk.injEq] at hres
  obtain ⟨rfl, hplan⟩ := hres
  refine ⟨_, mem', t, hq, h, hplan, ?_⟩
  have hknown : FilesKnown (fun _ => none) ownFiles { installPkgs := [1, 2] } := by
    intro p _ _ files hfiles
    exact absurd hfiles (by simp)
  refine (transPrepare_filesDisjoint_iff hq (Reachable.new true true) hknown filesDisjoint_new hg h).2 ?_
  -- whatever is delivered is one of the two, and nothing stays
  have hone : ∀ n l, Delivered ownFiles (dbOpen true true) { installPkgs := [1, 2] } g n l →
      (n = cstr "a" ∧ l = [cstr "/x"]) ∨ (n = cstr "b" ∧ l = [cstr "/y"]) := by
    intro n l hd
    rcases hd.2 with ⟨p, hp, -⟩ | ⟨-, p, hp, rfl⟩
    · simp [lastUpgrade, findPkg] at hp
    · have hname := firstQueued_name hp.2.2
      by_cases hp1 : p = 1
      · left
        simp only [ownFiles, if_pos hp1] at hname ⊢
        exact ⟨(Option.some.inj hname).symm, rfl⟩
      · right
        simp only [ownFiles, if_neg hp1] at hname ⊢
        exact ⟨(Option.some.inj hname).symm, rfl⟩
  have hstays : ∀ n l, ¬Stays ownFiles (dbOpen true true) { installPkgs := [1, 2] } n l := by
    intro n l hs
    have hrec := hs.2.2
    rw [recordedAs_new] at hrec
    exact absurd hrec (by simp)
  refine ⟨fun n n' l l' hne hd hd' => ?_, fun n n' l l' _ _ hs => ?_, fun n n' l l' _ _ hs => ?_⟩
  · rcases hone n l hd with ⟨rfl, rfl⟩ | ⟨rfl, rfl⟩ <;> rcases hone n' l' hd' with ⟨rfl, rfl⟩ | ⟨rfl, rfl⟩
    · exact absurd rfl hne
    · rw [List.disjoint_singleton]
      decide
    · rw [List.disjoint_singleton]
      decide
    · exact absurd rfl hne
  · exact absurd hs (hstays n' l')
  · exact absurd hs (hstays n' l')

/-- Two packages, `a` at address 1 and `b` everywhere else, that list `/x`. -/
def sharesX : Heap := fun p => if p = 1 then bare "a" ["/x"] else bare "b" ["/x"]

theorem sharesX_known (trans : ApgTrans) : FilesKnown (fun _ => none) sharesX trans := by
  intro p _ _ files hfiles
  exact absurd hfiles (by simp)

/-- `a` and `b` are queued together. -/
theorem transPrepare_filesDisjoint_pair :
    ∃ trans mem' t, FilesDisjoint (recordedAs Package.paths (dbOpen true true)) ∧ Queued sharesX trans ∧
      FilesKnown (fun _ => none) sharesX trans ∧
      transPrepare (fun _ => none) sharesX (dbOpen true true) trans = some (.ok, mem', t) ∧
      ¬FilesDisjoint (applyPlanAs Package.paths mem' t.plan (recordedAs Package.paths (dbOpen true true))) := by
  have hq : Queued sharesX { installPkgs := [1, 2] } := Queued.install 2 (Queued.install 1 Queued.new)
  have hrun : (transPrepare (fun _ => none) sharesX (dbOpen true true) { installPkgs := [1, 2] }).map
      (fun r => (r.1, applyPlanAs Package.paths r.2.1 r.2.2.plan (fun _ => none) (cstr "a"),
        applyPlanAs Package.paths r.2.1 r.2.2.plan (fun _ => none) (cstr "b"))) =
      some (.ok, some [cstr "/x"], some [cstr "/x"]) := rfl
  obtain ⟨⟨err, mem', t⟩, h, hres⟩ := Option.map_eq_some_iff.1 hrun
  simp only [Prod.mk.injEq] at hres
  obtain ⟨rfl, ha, hb⟩ := hres
  refine ⟨_, mem', t, filesDisjoint_new, hq, sharesX_known _, h, fun hafter => ?_⟩
  have hnew : recordedAs Package.paths (dbOpen true true) = fun _ => none := funext recordedAs_new
  rw [hnew] at hafter
  have hdis := hafter (cstr "a") (cstr "b") _ _ (by decide) ha hb
  exact hdis (List.mem_singleton_self _) (List.mem_singleton_self _)

end Apg
