import Apg.Proof.Resolve

/-!
# Several names resolve as in one pass

`dep_graph_resolve_parallel` resolves every name on its own, from a fresh state,
and merges the orders. Against it stands `resolveShared`: one search over the names
from left to right, with one set of colours and one list.

* `depGraphResolveFinishing_eq`: the order in which the threads finish does not
  matter.
* `depGraphResolveParallel_shared`: **the merged result is that of the one pass.**
-/

namespace Apg

open Relation

variable {g : DepGraph}

/-- Where the search for a name starts. -/
def rootOf (g : DepGraph) (name : CStr) : Except DepFail ℕ :=
  match depGraphLookup g name with
  | none => .error (.fail .missing none)
  | some root => .ok root

/-- What a search from the start leaves as a result. -/
def searchResult (g : DepGraph) : Dfs.Out DepFail × Dfs.St ℕ → Except DepFail (List CStr)
  | (.ok, s) => .ok (s.order.map (nodeName g))
  | (.cycle, _) => .error (.fail .cycle none)
  | (.err e, _) => .error e

/-- **One sequential resolution of several names**: the same search over the names
from left to right, with one shared state. -/
def resolveShared (g : DepGraph) (pkgNames : List CStr) : Option (Except DepFail (List CStr)) :=
  (Dfs.visitAll (dfs g) (pkgNames.map (rootOf g)) .start).map (searchResult g)

/-! ## The threads -/

theorem foldl_set_getElem? {α : Type*} (f : ℕ → α) : ∀ (finish : List ℕ) (tasks : List α) (i : ℕ), i < tasks.length →
    (finish.foldl (fun tasks i => tasks.set i (f i)) tasks)[i]? = if i ∈ finish then some (f i) else tasks[i]? := by
  intro finish
  induction finish with
  | nil => intro tasks i _; simp
  | cons j finish ih =>
    intro tasks i hi
    rw [List.foldl_cons, ih _ i (by rwa [List.length_set]), List.getElem?_set]
    by_cases hij : j = i
    · subst hij; simp [hi]
    · have hji : i ≠ j := fun e => hij e.symm
      simp [hij, hji]

/-- Every task is written once, whatever the order. -/
theorem resolveTasks_eq (pkgNames : List CStr) {finish : List ℕ} (h : finish.Perm (List.range pkgNames.length)) :
    resolveTasks g pkgNames finish = pkgNames.map (depGraphResolve g) := by
  have hlen : ∀ (finish : List ℕ) (tasks : List (Option (Except DepFail (List CStr)))),
      (finish.foldl (fun tasks i => tasks.set i (pkgNames[i]?.bind (depGraphResolve g))) tasks).length =
        tasks.length := by
    intro finish
    induction finish with
    | nil => intro tasks; rfl
    | cons j finish ih => intro tasks; rw [List.foldl_cons, ih, List.length_set]
  refine List.ext_getElem? ?_
  intro i
  by_cases hi : i < pkgNames.length
  · have hmem : i ∈ finish := h.mem_iff.2 (List.mem_range.2 hi)
    unfold resolveTasks
    rw [foldl_set_getElem? _ finish _ i (by rwa [List.length_replicate]), if_pos hmem, List.getElem?_map,
      List.getElem?_eq_getElem hi]
    rfl
  · have hle : pkgNames.length ≤ i := by omega
    rw [List.getElem?_eq_none (by unfold resolveTasks; rw [hlen, List.length_replicate]; exact hle),
      List.getElem?_eq_none (by rw [List.length_map]; exact hle)]

/-- **The order in which the threads finish does not matter.** -/
theorem depGraphResolveFinishing_eq (pkgNames : List CStr) {finish : List ℕ}
    (h : finish.Perm (List.range pkgNames.length)) :
    depGraphResolveFinishing g pkgNames finish = depGraphResolveParallel g pkgNames := by
  match pkgNames, h with
  | [], _ => rfl
  | [name], _ => rfl
  | name :: name' :: names, h =>
    unfold depGraphResolveFinishing depGraphResolveParallel
    simp only [resolveTasks_eq _ h, List.mapM_map]
    rfl

/-! ## Merging -/

/-- Merging an order appends what is new in it. -/
theorem foldl_mergeStep_eq : ∀ (names : List CStr) (acc : StrMap × List CStr), Seen acc → names.Nodup →
    Seen (names.foldl mergeStep acc) ∧ (names.foldl mergeStep acc).2 = acc.2 ++ names.filter (· ∉ acc.2) := by
  intro names
  induction names with
  | nil => intro acc h _; exact ⟨h, by simp⟩
  | cons name names ih =>
    intro acc h hnd
    obtain ⟨hnotin, hnd'⟩ := List.nodup_cons.1 hnd
    obtain ⟨hseen, hstep⟩ := mergeStep_seen h name
    obtain ⟨hseen', hrest⟩ := ih (mergeStep acc name) hseen hnd'
    refine ⟨hseen', ?_⟩
    rw [List.foldl_cons, hrest, hstep]
    by_cases hin : name ∈ acc.2
    · rw [if_pos hin, List.filter_cons_of_neg (by simpa using hin)]
    · -- the new name is not among those that follow
      have hsame : names.filter (· ∉ acc.2 ++ [name]) = names.filter (· ∉ acc.2) := by
        refine List.filter_congr ?_
        intro n hn
        have hne : n ≠ name := fun e => hnotin (e ▸ hn)
        simp [hne]
      rw [if_neg hin, hsame, List.filter_cons_of_pos (by simpa using hin), List.append_assoc, List.singleton_append]

/-- The names of the nodes that are new are the names that are new. -/
theorem map_nodeName_filter (hg : GraphOK g) {l k : List ℕ} (hl : ∀ i ∈ l, i < g.nodes.length)
    (hk : ∀ i ∈ k, i < g.nodes.length) :
    (k.filter (· ∉ l)).map (nodeName g) = (k.map (nodeName g)).filter (· ∉ l.map (nodeName g)) := by
  rw [List.filter_map]
  congr 1
  refine List.filter_congr ?_
  intro i hi
  have hiff : i ∈ l ↔ nodeName g i ∈ l.map (nodeName g) := by
    refine ⟨fun h => List.mem_map_of_mem h, ?_⟩
    intro h
    obtain ⟨j, hj, hji⟩ := List.mem_map.1 h
    rw [← nodeName_inj hg (hl j hj) (hk i hi) hji]; exact hj
  simp [hiff]

/-! ## One name after the others -/

theorem depGraphResolve_search (hg : GraphOK g) {name : CStr} {root : ℕ} (hl : depGraphLookup g name = some root) :
    ∃ o s, dfs g root .start = some (o, s) ∧ depGraphResolve g name = some (searchResult g (o, s)) := by
  obtain ⟨o, s, hdfs⟩ := dfs_start hg hl
  refine ⟨o, s, hdfs, ?_⟩
  unfold depGraphResolve
  rw [hl]
  simp only [hdfs]
  cases o <;> rfl

/-- The state of the one pass between two names: what is listed is finished, and
nothing is being visited. -/
structure Between (g : DepGraph) (t : Dfs.St ℕ) : Prop where
  ok : Dfs.OK (depEdges g) t
  grey : ∀ i, t.colour i ≠ .grey
  lt : ∀ i ∈ t.order, i < g.nodes.length

theorem between_start : Between g .start := ⟨Dfs.start_ok, by simp [Dfs.St.start], by simp [Dfs.St.start]⟩

/-- A state between two names is the start with the listed nodes behind it. -/
theorem Between.behind {t : Dfs.St ℕ} (h : Between g t) : Dfs.Behind t.order .start t := by
  refine ⟨?_, by simp [Dfs.St.start], by simp [Dfs.St.start]⟩
  intro i
  have hblack := h.ok.black i
  have hgrey := h.grey i
  by_cases hi : i ∈ t.order
  · rw [if_pos hi]; exact hblack.2 hi
  · rw [if_neg hi]
    cases hc : t.colour i with
    | white => rfl
    | grey => exact absurd hc hgrey
    | black => exact absurd (hblack.1 hc) hi

/-- One name: the pass ends it like a resolution of its own, and lists what that
one lists and was not there yet. -/
theorem Between.next (hg : GraphOK g) {t : Dfs.St ℕ} (h : Between g t) {name : CStr} {root : ℕ}
    (hl : depGraphLookup g name = some root) {o : Dfs.Out DepFail} {s : Dfs.St ℕ}
    (hs : dfs g root .start = some (o, s)) :
    ∃ t', dfs g root t = some (o, t') ∧ (o = .ok → Between g t' ∧ t'.order = t.order ++ s.order.filter (· ∉ t.order) ∧
      (∀ i ∈ s.order, i < g.nodes.length) ∧ s.order.Nodup) := by
  obtain ⟨t', ht', hbehind⟩ := Dfs.visit_behind h.ok.topo h.ok.nodup _ root .start t s o h.behind hs
  refine ⟨t', ht', ?_⟩
  rintro rfl
  obtain ⟨hok, hext, -⟩ := Dfs.visit_ok _ root t t' h.ok ht'
  have horder := dfs_order hg hs
  have hlt : ∀ i ∈ s.order, i < g.nodes.length := fun i hi => reach_lt hg hl ((horder.mem i).1 hi)
  refine ⟨⟨hok, ?_, ?_⟩, hbehind.order, hlt, horder.nodup⟩
  · intro i hi
    exact h.grey i ((hext.grey i).1 hi)
  · intro i hi
    rw [hbehind.order, List.mem_append, List.mem_filter] at hi
    rcases hi with hi | ⟨hi, -⟩
    · exact h.lt i hi
    · exact hlt i hi

/-- All names of the list resolve before the one that fails. -/
def FirstFailing (g : DepGraph) (pkgNames : List CStr) (e : DepFail) : Prop :=
  ∃ before name after, pkgNames = before ++ name :: after ∧
    (∀ b ∈ before, ∃ order, depGraphResolve g b = some (.ok order)) ∧ depGraphResolve g name = some (.error e)

/-- **The names one after the other.** Either every name resolves, and the pass
lists what merging the orders lists, or the pass ends with the error of the first
name that fails. -/
theorem visitAll_names (hg : GraphOK g) : ∀ (names : List CStr) (acc : StrMap × List CStr) (t : Dfs.St ℕ),
    Seen acc → Between g t → acc.2 = t.order.map (nodeName g) →
    (∃ (orders : List (List CStr)) (t' : Dfs.St ℕ), names.mapM (depGraphResolve g) = some (orders.map Except.ok) ∧
      Dfs.visitAll (dfs g) (names.map (rootOf g)) t = some (.ok, t') ∧ Between g t' ∧
      (orders.flatten.foldl mergeStep acc).2 = t'.order.map (nodeName g)) ∨
    ∃ e o t', FirstFailing g names e ∧ Dfs.visitAll (dfs g) (names.map (rootOf g)) t = some (o, t') ∧
      searchResult g (o, t') = .error e := by
  intro names
  induction names with
  | nil => intro acc t _ ht hacc; exact Or.inl ⟨[], t, rfl, rfl, ht, hacc⟩
  | cons name names ih =>
    intro acc t hseen ht hacc
    cases hl : depGraphLookup g name with
    | none =>
      have hroot : rootOf g name = .error (.fail .missing none) := by unfold rootOf; rw [hl]
      refine Or.inr ⟨.fail .missing none, .err (.fail .missing none), t, ⟨[], name, names, rfl, by simp, ?_⟩, ?_, rfl⟩
      · unfold depGraphResolve; rw [hl]
      · rw [List.map_cons, hroot]; rfl
    | some root =>
      have hroot : rootOf g name = .ok root := by unfold rootOf; rw [hl]
      obtain ⟨o, s, hs, hres⟩ := depGraphResolve_search hg hl
      obtain ⟨t₁, ht₁, hnext⟩ := ht.next hg hl hs
      cases o with
      | ok =>
        obtain ⟨hbetween, horder, hlt, hnd⟩ := hnext rfl
        -- both sides append the names that are new
        obtain ⟨hseen₁, hmerge⟩ := foldl_mergeStep_eq (s.order.map (nodeName g)) acc hseen (nodeName_nodup hg hnd hlt)
        have hacc₁ : ((s.order.map (nodeName g)).foldl mergeStep acc).2 = t₁.order.map (nodeName g) := by
          rw [hmerge, horder, List.map_append, map_nodeName_filter hg ht.lt hlt, ← hacc]
        have hwalk : ∀ r, Dfs.visitAll (dfs g) (names.map (rootOf g)) t₁ = some r →
            Dfs.visitAll (dfs g) ((name :: names).map (rootOf g)) t = some r := by
          intro r hr
          rw [List.map_cons, hroot]
          simp only [Dfs.visitAll, ht₁]
          exact hr
        rcases ih _ t₁ hseen₁ hbetween hacc₁ with ⟨orders, t', hm, hv, hb', hord⟩ | ⟨e, o, t', hfail, hv, hsr⟩
        · refine Or.inl ⟨s.order.map (nodeName g) :: orders, t', ?_, hwalk _ hv, hb', ?_⟩
          · rw [List.mapM_cons, hres, hm]; rfl
          · rw [List.flatten_cons, List.foldl_append]; exact hord
        · obtain ⟨before, name', after, rfl, hbefore, herr⟩ := hfail
          refine Or.inr ⟨e, o, t', ⟨name :: before, name', after, rfl, ?_, herr⟩, hwalk _ hv, hsr⟩
          intro b hb
          rcases List.mem_cons.1 hb with rfl | hb
          · exact ⟨_, hres⟩
          · exact hbefore b hb
      | cycle =>
        refine Or.inr ⟨.fail .cycle none, .cycle, t₁, ⟨[], name, names, rfl, by simp, hres⟩, ?_, rfl⟩
        rw [List.map_cons, hroot]
        simp only [Dfs.visitAll, ht₁]
      | err e =>
        refine Or.inr ⟨e, .err e, t₁, ⟨[], name, names, rfl, by simp, hres⟩, ?_, rfl⟩
        rw [List.map_cons, hroot]
        simp only [Dfs.visitAll, ht₁]

/-- The error code, which is all that `dep_graph_resolve_parallel` returns of a
failure. -/
def DepFail.code : DepFail → Option DepError
  | .fail err _ => some err
  | .null => none

theorem inWorker_code (e : DepFail) : (inWorker e).code = e.code := by cases e <;> rfl

theorem firstErr_oks (orders : List (List CStr)) : firstErr (orders.map .ok) = .ok orders := by
  induction orders with
  | nil => rfl
  | cons order orders ih =>
    simp only [List.map_cons, firstErr, ih]
    rfl

theorem firstErr_failing (e : DepFail) (rest : List (Except DepFail (List CStr))) : ∀ (orders : List (List CStr)),
    firstErr (orders.map .ok ++ .error e :: rest) = if .error .null ∈ rest then .error .null else .error (inWorker e) := by
  intro orders
  induction orders with
  | nil => rfl
  | cons order orders ih =>
    simp only [List.map_cons, List.cons_append, firstErr, ih]
    split <;> rfl

theorem depGraphResolve_isSome (hg : GraphOK g) (name : CStr) : ∃ r, depGraphResolve g name = some r := by
  obtain ⟨root, order, -, -, -, h⟩ | ⟨e, h, -⟩ := depGraphResolve_cases hg name
  · exact ⟨_, h⟩
  · exact ⟨_, h⟩

theorem mapM_resolve (hg : GraphOK g) : ∀ names : List CStr, ∃ tasks,
    names.mapM (depGraphResolve g) = some tasks ∧ ∀ r ∈ tasks, ∃ name ∈ names, depGraphResolve g name = some r := by
  intro names
  induction names with
  | nil => exact ⟨[], rfl, by simp⟩
  | cons name names ih =>
    obtain ⟨tasks, htasks, hmem⟩ := ih
    obtain ⟨r, hr⟩ := depGraphResolve_isSome hg name
    refine ⟨r :: tasks, by rw [List.mapM_cons, hr, htasks]; rfl, ?_⟩
    intro r' hr'
    rcases List.mem_cons.1 hr' with rfl | hr'
    · exact ⟨name, List.mem_cons_self, hr⟩
    · obtain ⟨name', hn, h⟩ := hmem r' hr'
      exact ⟨name', List.mem_cons_of_mem _ hn, h⟩

/-- What the threads make of a name that fails: its error, unless a later name
takes the process down. -/
theorem mapM_failing (hg : GraphOK g) {names : List CStr} {e : DepFail} (h : FirstFailing g names e) :
    ∃ tasks, names.mapM (depGraphResolve g) = some tasks ∧ (firstErr tasks = .error (inWorker e) ∨
      firstErr tasks = .error .null ∧ ∃ name ∈ names, depGraphResolve g name = some (.error .null)) := by
  obtain ⟨before, name, after, rfl, hbefore, herr⟩ := h
  have hoks : ∃ orders : List (List CStr), before.mapM (depGraphResolve g) = some (orders.map .ok) := by
    clear herr
    induction before with
    | nil => exact ⟨[], rfl⟩
    | cons b before ih =>
      obtain ⟨order, hb⟩ := hbefore b List.mem_cons_self
      obtain ⟨orders, ho⟩ := ih fun b hb => hbefore b (List.mem_cons_of_mem _ hb)
      exact ⟨order :: orders, by rw [List.mapM_cons, hb, ho]; rfl⟩
  obtain ⟨orders, horders⟩ := hoks
  obtain ⟨rest, hrest, hmem⟩ := mapM_resolve hg after
  refine ⟨orders.map .ok ++ .error e :: rest, ?_, ?_⟩
  · rw [List.mapM_append, List.mapM_cons, horders, herr, hrest]; rfl
  · rw [firstErr_failing]
    split
    · rename_i hnull
      obtain ⟨name', hn, h⟩ := hmem _ hnull
      exact Or.inr ⟨rfl, name', List.mem_append_right _ (List.mem_cons_of_mem _ hn), h⟩
    · exact Or.inl rfl

/-- `idxs` are the nodes that one of the names needs, each once and after all the
nodes its dependencies lead to. -/
structure IsUnionOrder (g : DepGraph) (pkgNames : List CStr) (idxs : List ℕ) : Prop where
  nodup : idxs.Nodup
  mem : ∀ i, i ∈ idxs ↔ ∃ name ∈ pkgNames, ∃ root, depGraphLookup g name = some root ∧ ReflTransGen (DependsOn g) root i
  after : ∀ i ∈ idxs, ∃ l₁ l₂, idxs = l₁ ++ i :: l₂ ∧ ∀ j, DependsOn g i j → j ∈ l₁

theorem Between.unionOrder (hg : GraphOK g) {t : Dfs.St ℕ} (h : Between g t) {names : List CStr}
    (hmem : ∀ n, n ∈ t.order.map (nodeName g) ↔ NeededFrom g names n) : IsUnionOrder g names t.order := by
  refine ⟨h.ok.nodup, ?_, ?_⟩
  · intro i
    constructor
    · intro hi
      obtain ⟨name, hn, root, j, hl, hj, hji⟩ := (hmem (nodeName g i)).1 (List.mem_map_of_mem hi)
      rw [← nodeName_inj hg (reach_lt hg hl hj) (h.lt i hi) hji]
      exact ⟨name, hn, root, hl, hj⟩
    · rintro ⟨name, hn, root, hl, hi⟩
      obtain ⟨j, hj, hji⟩ := List.mem_map.1 ((hmem (nodeName g i)).2 ⟨name, hn, root, i, hl, hi, rfl⟩)
      rw [← nodeName_inj hg (h.lt j hj) (reach_lt hg hl hi) hji]
      exact hj
  · intro i hi
    obtain ⟨l₁, l₂, he, hbefore⟩ := h.ok.topo.before i hi
    refine ⟨l₁, l₂, he, ?_⟩
    intro j hij
    obtain ⟨j', hj', hjj⟩ := hbefore _ (edge_of_dependsOn hg (fun e => h.ok.topo.no_error hi e) hij)
    rw [Except.ok.injEq] at hjj
    rw [hjj]; exact hj'

/-- A single name is not merged: the pass is its own search. -/
theorem depGraphResolve_pass (hg : GraphOK g) {name : CStr} {t : Dfs.St ℕ}
    (hv : Dfs.visitAll (dfs g) ([name].map (rootOf g)) .start = some (.ok, t)) :
    depGraphResolve g name = some (.ok (t.order.map (nodeName g))) := by
  cases hl : depGraphLookup g name with
  | none =>
    have hroot : rootOf g name = .error (.fail .missing none) := by unfold rootOf; rw [hl]
    simp [hroot, Dfs.visitAll] at hv
  | some root =>
    have hroot : rootOf g name = .ok root := by unfold rootOf; rw [hl]
    obtain ⟨o, s, hs, hres⟩ := depGraphResolve_search hg hl
    simp only [List.map_cons, List.map_nil, hroot, Dfs.visitAll, hs] at hv
    cases o with
    | ok =>
      simp only [Option.some.injEq, Prod.mk.injEq, true_and] at hv
      rw [← hv]; exact hres
    | cycle => exact absurd hv (by simp)
    | err e => exact absurd hv (by simp)

/-- Names that all resolve. -/
theorem depGraphResolveParallel_oks (hg : GraphOK g) {names : List CStr} {orders : List (List CStr)} {t : Dfs.St ℕ}
    (hm : names.mapM (depGraphResolve g) = some (orders.map Except.ok))
    (hv : Dfs.visitAll (dfs g) (names.map (rootOf g)) .start = some (.ok, t))
    (hmerge : merge orders = t.order.map (nodeName g)) :
    depGraphResolveParallel g names = some (.ok (t.order.map (nodeName g))) := by
  cases names with
  | nil =>
    simp only [List.map_nil, Dfs.visitAll, Option.some.injEq, Prod.mk.injEq, true_and] at hv
    rw [← hv]; rfl
  | cons name rest =>
    cases rest with
    | nil => exact depGraphResolve_pass hg hv
    | cons name' rest =>
      unfold depGraphResolveParallel
      simp only [hm, Option.map_some, firstErr_oks, Except.map, hmerge]

/-- Names of which one fails. -/
theorem depGraphResolveParallel_failing (hg : GraphOK g) {names : List CStr} {e' : DepFail}
    (hfail : FirstFailing g names e') :
    ∃ e, depGraphResolveParallel g names = some (.error e) ∧
      (e.code = e'.code ∨ e = .null ∧ ∃ name ∈ names, depGraphResolve g name = some (.error .null)) := by
  cases names with
  | nil =>
    obtain ⟨before, name, after, hnames, -⟩ := hfail
    exact absurd hnames (by simp)
  | cons name rest =>
    cases rest with
    | nil =>
      obtain ⟨before, name', after, hnames, -, herr⟩ := hfail
      cases before with
      | nil =>
        rw [List.nil_append, List.cons.injEq] at hnames
        rw [← hnames.1] at herr
        exact ⟨e', herr, Or.inl rfl⟩
      | cons b before => exact absurd hnames (by simp)
    | cons name' rest =>
      obtain ⟨tasks, htasks, hfirst⟩ := mapM_failing hg hfail
      have hpar : depGraphResolveParallel g (name :: name' :: rest) = some ((firstErr tasks).map merge) := by
        unfold depGraphResolveParallel
        rw [htasks]; rfl
      rcases hfirst with hfirst | ⟨hfirst, hnull⟩
      · exact ⟨inWorker e', by rw [hpar, hfirst]; rfl, Or.inl (inWorker_code e')⟩
      · exact ⟨.null, by rw [hpar, hfirst]; rfl, Or.inr ⟨rfl, hnull⟩⟩

/-- What the two ways of resolving have in common. -/
theorem resolve_both (hg : GraphOK g) (names : List CStr) :
    (∃ idxs, depGraphResolveParallel g names = some (.ok (idxs.map (nodeName g))) ∧
      resolveShared g names = some (.ok (idxs.map (nodeName g))) ∧ IsUnionOrder g names idxs) ∨
    ∃ e e', depGraphResolveParallel g names = some (.error e) ∧ resolveShared g names = some (.error e') ∧
      FirstFailing g names e' ∧
      (e.code = e'.code ∨ e = .null ∧ ∃ name ∈ names, depGraphResolve g name = some (.error .null)) := by
  rcases visitAll_names hg names (strMapInit, []) .start seen_init between_start rfl with
    ⟨orders, t, hm, hv, hb, hord⟩ | ⟨e', o, t, hfail, hv, hsr⟩
  · have hmerge : merge orders = t.order.map (nodeName g) := hord
    have hmem : ∀ n, n ∈ t.order.map (nodeName g) ↔ NeededFrom g names n := by
      intro n
      rw [← hmerge, mem_merge]
      exact (mapM_depGraphResolve_ok hg names orders hm).2 n
    have hshared : resolveShared g names = some (.ok (t.order.map (nodeName g))) := by
      unfold resolveShared
      rw [hv]; rfl
    exact Or.inl ⟨t.order, depGraphResolveParallel_oks hg hm hv hmerge, hshared, hb.unionOrder hg hmem⟩
  · have hshared : resolveShared g names = some (.error e') := by
      unfold resolveShared
      rw [hv, Option.map_some, hsr]
    obtain ⟨e, hpar, hcode⟩ := depGraphResolveParallel_failing hg hfail
    exact Or.inr ⟨e, e', hpar, hshared, hfail, hcode⟩

/-- **`dep_graph_resolve_parallel` equals one sequential resolution.** On a built
graph, for every list of names and every order in which the threads finish, both
return; they return the same order, which is a topological order of everything one
of the names needs, or the same error code, that of the first name that fails. The
one exception is a later name that leads to a dependency without a name, where a
thread takes the process down. -/
theorem depGraphResolveParallel_shared (hb : Built g) (pkgNames : List CStr) {finish : List ℕ}
    (hfinish : finish.Perm (List.range pkgNames.length)) :
    (∃ idxs, depGraphResolveFinishing g pkgNames finish = some (.ok (idxs.map (nodeName g))) ∧
      resolveShared g pkgNames = some (.ok (idxs.map (nodeName g))) ∧ IsUnionOrder g pkgNames idxs ∧
      (idxs.map (nodeName g)).Nodup) ∨
    ∃ e e', depGraphResolveFinishing g pkgNames finish = some (.error e) ∧
      resolveShared g pkgNames = some (.error e') ∧ FirstFailing g pkgNames e' ∧
      (e.code = e'.code ∨ e = .null ∧ ∃ name ∈ pkgNames, depGraphResolve g name = some (.error .null)) := by
  have hg := built_ok hb
  rw [depGraphResolveFinishing_eq pkgNames hfinish]
  rcases resolve_both hg pkgNames with ⟨idxs, h1, h2, h3⟩ | h
  · refine Or.inl ⟨idxs, h1, h2, h3, nodeName_nodup hg h3.nodup ?_⟩
    intro i hi
    obtain ⟨name, -, root, hl, hreach⟩ := (h3.mem i).1 hi
    exact reach_lt hg hl hreach
  · exact Or.inr h

/-- A name, an alias of what it needs, and the name again. -/
theorem depGraphResolveParallel_shared_alias :
    ∃ g, Built g ∧ [2, 0, 1].Perm (List.range 3) ∧
      depGraphResolveFinishing g [cstr "app", cstr "ssl", cstr "app"] [2, 0, 1] =
        some (.ok [cstr "libssl", cstr "app"]) ∧
      resolveShared g [cstr "app", cstr "ssl", cstr "app"] = some (.ok [cstr "libssl", cstr "app"]) := by
  have hrun : ((addNodes false [
      { name := some (cstr "app"), dependencies := [⟨some (cstr "ssl"), .any, none⟩] },
      { name := some (cstr "libssl"), provides := [some (cstr "ssl")] }] depGraphNew).bind fun g =>
        depGraphResolveFinishing g [cstr "app", cstr "ssl", cstr "app"] [2, 0, 1]) =
      some (.ok [cstr "libssl", cstr "app"]) := by
    decide
  obtain ⟨g, hg, horder⟩ := Option.bind_eq_some_iff.1 hrun
  have hb : Built g := addNodes_built _ Built.new hg
  have hperm : [2, 0, 1].Perm (List.range 3) := by decide
  refine ⟨g, hb, hperm, horder, ?_⟩
  rcases depGraphResolveParallel_shared hb [cstr "app", cstr "ssl", cstr "app"] hperm with
    ⟨idxs, h1, h2, -⟩ | ⟨e, e', h1, -⟩
  · rw [horder, Option.some.injEq, Except.ok.injEq] at h1
    rw [h1]; exact h2
  · rw [horder] at h1; exact absurd h1 (by simp)

end Apg
