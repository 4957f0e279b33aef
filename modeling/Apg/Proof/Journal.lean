import Apg.Spec.Journal

/-!
# What the journal keeps

A key is the second and the counter of the process, so two processes that write in
the same second use the same keys, and a counter that wraps puts an entry before
those it follows. An entry whose text is cut off before its third separator is
passed over, and a commit that fails goes unnoticed.

* `packKey_lt_iff`: the order of the keys is that of the seconds and the counters.
* `journalReadAll_ordered_iff`: **exactly then every call has its entry, in the order
  of the calls.**
-/

namespace Apg

namespace Journal

/-! ## The calls -/

/-- The calls of a process that return `true`, each with the value of the counter it
finds. -/
def countedFrom : ℕ → List JournalCall → List (JournalCall × ℕ)
  | _, [] => []
  | seq, c :: calls =>
    if c.opens then (if c.put then [(c, seq)] else []) ++ countedFrom ((seq + 1) % 2 ^ 32) calls
    else countedFrom seq calls

/-- The calls that return `true`, in their order. -/
def returned (processes : List (List JournalCall)) : List (JournalCall × ℕ) := processes.flatMap (countedFrom 0)

/-- What a call leaves. -/
theorem journalWrite_cases (s : JournalState) (c : JournalCall) :
    (c.opens = false ∧ (journalWrite s c).2 = s) ∨
    (c.opens = true ∧ c.put = false ∧ (journalWrite s c).2 = { s with seqCounter := (s.seqCounter + 1) % 2 ^ 32 }) ∨
    (c.opens = true ∧ c.put = true ∧ (journalWrite s c).2 =
      { table := if c.commit then s.table.put (packKey c.time s.seqCounter) (journalVal c, s.calls) else s.table
        seqCounter := (s.seqCounter + 1) % 2 ^ 32
        calls := s.calls + 1 }) := by
  unfold journalWrite
  cases ho : c.opens with
  | false => simp
  | true => cases hp : c.put <;> simp

theorem journalWrite_returns (s : JournalState) (c : JournalCall) : (journalWrite s c).1 = (c.opens && c.put) := by
  unfold journalWrite
  cases c.opens <;> cases c.put <;> rfl

theorem countedFrom_lt : ∀ (calls : List JournalCall) (seq : ℕ), seq < 2 ^ 32 → ∀ x ∈ countedFrom seq calls, x.2 < 2 ^ 32 := by
  intro calls
  induction calls with
  | nil => intro seq _ x hx; simp [countedFrom] at hx
  | cons c calls ih =>
    intro seq hseq x hx
    have hnext : (seq + 1) % 2 ^ 32 < 2 ^ 32 := Nat.mod_lt _ (by decide)
    unfold countedFrom at hx
    split at hx
    · rcases List.mem_append.1 hx with hx | hx
      · split at hx
        · rw [List.mem_singleton.1 hx]; exact hseq
        · simp at hx
      · exact ih _ hnext x hx
    · exact ih seq hseq x hx

theorem returned_lt {processes : List (List JournalCall)} {x : JournalCall × ℕ} (hx : x ∈ returned processes) :
    x.2 < 2 ^ 32 := by
  obtain ⟨calls, -, hx⟩ := List.mem_flatMap.1 hx
  exact countedFrom_lt calls 0 (by decide) x hx

theorem countedFrom_sublist : ∀ (calls : List JournalCall) (seq : ℕ),
    ((countedFrom seq calls).map Prod.fst).Sublist calls := by
  intro calls
  induction calls with
  | nil => intro seq; exact List.Sublist.refl _
  | cons c calls ih =>
    intro seq
    unfold countedFrom
    split
    · split
      · exact (ih _).cons_cons c
      · exact (ih _).cons c
    · exact (ih seq).cons c

theorem returned_sublist (processes : List (List JournalCall)) :
    ((returned processes).map Prod.fst).Sublist processes.flatten := by
  induction processes with
  | nil => exact List.Sublist.refl _
  | cons calls processes ih =>
    rw [returned, List.flatMap_cons, List.map_append, List.flatten_cons]
    exact (countedFrom_sublist calls 0).append ih

/-- **Induction over the calls that return `true`**: what one of them keeps holds
after all processes. -/
theorem runProcesses_induct (J : Table (List ℕ) (CStr × ℕ) → ℕ → List (JournalCall × ℕ) → Prop) (h0 : J .empty 0 [])
    (hstep : ∀ t n ws c seq, J t n ws →
      J (if c.commit then t.put (packKey c.time seq) (journalVal c, n) else t) (n + 1) (ws ++ [(c, seq)]))
    (processes : List (List JournalCall)) :
    J (runProcesses processes).table (runProcesses processes).calls (returned processes) := by
  -- within a process the counter goes along
  have hcalls : ∀ (calls : List JournalCall) (s : JournalState) (ws : List (JournalCall × ℕ)), J s.table s.calls ws →
      J (calls.foldl (fun s c => (journalWrite s c).2) s).table (calls.foldl (fun s c => (journalWrite s c).2) s).calls
        (ws ++ countedFrom s.seqCounter calls) := by
    intro calls
    induction calls with
    | nil => intro s ws h; simpa [countedFrom] using h
    | cons c calls ih =>
      intro s ws h
      rw [List.foldl_cons]
      have hnext := ih (journalWrite s c).2
      unfold countedFrom
      rcases journalWrite_cases s c with ⟨ho, hs⟩ | ⟨ho, hp, hs⟩ | ⟨ho, hp, hs⟩
      · rw [hs] at hnext ⊢
        rw [ho, if_neg Bool.false_ne_true]
        exact hnext ws h
      · rw [hs] at hnext ⊢
        rw [ho, hp, if_pos rfl, if_neg Bool.false_ne_true]
        exact hnext ws h
      · rw [hs] at hnext ⊢
        rw [ho, hp, if_pos rfl, if_pos rfl, ← List.append_assoc]
        exact hnext _ (hstep s.table s.calls ws c s.seqCounter h)
  have hall : ∀ (processes : List (List JournalCall)) (s : JournalState) (ws : List (JournalCall × ℕ)),
      J s.table s.calls ws →
      J (processes.foldl runProcess s).table (processes.foldl runProcess s).calls (ws ++ returned processes) := by
    intro processes
    induction processes with
    | nil => intro s ws h; simpa [returned] using h
    | cons calls processes ih =>
      intro s ws h
      have := ih (runProcess s calls) _ (hcalls calls { s with seqCounter := 0 } ws h)
      rw [List.append_assoc] at this
      exact this
  exact hall processes {} [] h0

/-! ## The keys -/

def keyOf (x : JournalCall × ℕ) : List ℕ := packKey x.1.time x.2

@[simp] theorem length_packKey (ts : TimeT) (seq : ℕ) : (packKey ts seq).length = 12 := by
  rw [packKey, List.length_append, BigEndian.length_bytes, BigEndian.length_bytes]

/-- A later second, unless the time passes `0`, or the same second and a larger
counter. -/
def After (a b : JournalCall × ℕ) : Prop :=
  a.1.time < b.1.time ∧ (0 ≤ a.1.time.val ∨ b.1.time.val < 0) ∨ a.1.time = b.1.time ∧ a.2 < b.2

/-- **The order of the keys.** The bytes are those of an unsigned number, so a time
before `0` stands behind the others. -/
theorem packKey_lt_iff {a b : JournalCall × ℕ} (ha : a.2 < 2 ^ 32) (hb : b.2 < 2 ^ 32) (hle : a.1.time ≤ b.1.time) :
    keyOf a < keyOf b ↔ After a b := by
  unfold keyOf packKey After
  generalize a.1.time = ta at hle ⊢
  generalize b.1.time = tb at hle ⊢
  obtain ⟨x, hx⟩ := ta
  obtain ⟨y, hy⟩ := tb
  have hxy : x ≤ y := hle
  have hux : (x % 2 ^ 64).toNat < 256 ^ 8 := by omega
  have huy : (y % 2 ^ 64).toNat < 256 ^ 8 := by omega
  have heq : BigEndian.bytes 8 (x % 2 ^ 64).toNat = BigEndian.bytes 8 (y % 2 ^ 64).toNat ↔ x = y := by
    refine ⟨fun h => ?_, fun h => by rw [h]⟩
    have hval := congrArg BigEndian.value h
    rw [BigEndian.value_bytes, BigEndian.value_bytes, Nat.mod_eq_of_lt hux, Nat.mod_eq_of_lt huy] at hval
    omega
  rw [BigEndian.append_lt_iff _ _ (by simp), BigEndian.bytes_lt_iff 8 hux huy, BigEndian.bytes_lt_iff 4 ha hb, heq]
  simp only [Subtype.mk_lt_mk, Subtype.mk.injEq]
  omega

theorem unpackTs_packKey (ts : TimeT) (seq : ℕ) : unpackTs (packKey ts seq) = ts.val := by
  obtain ⟨t, ht⟩ := ts
  have hlt : (t % 2 ^ 64).toNat < 256 ^ 8 := by omega
  have htake : (packKey ⟨t, ht⟩ seq).take 8 = BigEndian.bytes 8 (t % 2 ^ 64).toNat :=
    List.take_left' (BigEndian.length_bytes 8 _)
  unfold unpackTs
  rw [htake, BigEndian.value_bytes, Nat.mod_eq_of_lt hlt]
  show (if (t % 2 ^ 64).toNat < 2 ^ 63 then _ else _) = t
  split <;> omega

/-! ## The texts -/

theorem length_splitFields : ∀ (s : CStr) (n : ℕ) (field : CStr),
    (splitFields n field s).length = min n (s.count bar) + 1 := by
  intro s
  induction s with
  | nil => intro n field; cases n <;> simp [splitFields]
  | cons c s ih =>
    intro n field
    cases n with
    | zero => simp [splitFields]
    | succ n =>
      unfold splitFields
      by_cases hc : c = bar
      · rw [if_pos hc, List.length_cons, ih, hc, List.count_cons_self]
        omega
      · rw [if_neg hc, ih, List.count_cons_of_ne hc]

/-- An entry is passed over when its text has fewer than three separators. -/
theorem readEntry_isSome_iff {key : List ℕ} (hkey : key.length = 12) (val : CStr) :
    (readEntry key val).isSome ↔ 3 ≤ val.count bar := by
  have hlen := length_splitFields val 5 []
  have hkey' : ¬ key.length < 12 := by omega
  unfold readEntry
  rw [if_neg hkey']
  split
  · rename_i heq
    rw [heq] at hlen
    simp only [List.length_cons] at hlen
    simp only [Option.isSome_some, true_iff]
    omega
  · rename_i hne
    simp only [Option.isSome_none, Bool.false_eq_true, false_iff]
    intro hcount
    have hfour : 4 ≤ (splitFields 5 [] val).length := by omega
    cases h0 : splitFields 5 [] val with
    | nil => simp [h0] at hfour
    | cons f₀ l₀ =>
      cases h1 : l₀ with
      | nil => simp [h0, h1] at hfour
      | cons f₁ l₁ =>
        cases h2 : l₁ with
        | nil => simp [h0, h1, h2] at hfour
        | cons f₂ l₂ =>
          cases h3 : l₂ with
          | nil => simp [h0, h1, h2, h3] at hfour
          | cons f₃ l₃ => exact hne f₀ f₁ f₂ f₃ l₃ (by rw [h0, h1, h2, h3])

/-! ## Whole runs -/

/-- The entry of a call. -/
def entryOf (x : (JournalCall × ℕ) × ℕ) : List ℕ × (CStr × ℕ) := (keyOf x.1, (journalVal x.1.1, x.2))

/-- Every entry is that of a call, which was committed. -/
theorem table_origin (processes : List (List JournalCall)) :
    (runProcesses processes).calls = (returned processes).length ∧
    ∀ e ∈ (runProcesses processes).table.entries, ∃ x, (returned processes)[e.2.2]? = some x ∧ x.1.commit = true ∧
      e = entryOf (x, e.2.2) := by
  refine runProcesses_induct (fun t n ws => n = ws.length ∧
    ∀ e ∈ t.entries, ∃ x, ws[e.2.2]? = some x ∧ x.1.commit = true ∧ e = entryOf (x, e.2.2)) ?_ ?_ processes
  · exact ⟨rfl, fun e he => absurd he List.not_mem_nil⟩
  · rintro t n ws c seq ⟨hn, hold⟩
    refine ⟨by rw [hn, List.length_append, List.length_singleton], fun e he => ?_⟩
    have hkeep : e ∈ t.entries → ∃ x, (ws ++ [(c, seq)])[e.2.2]? = some x ∧ x.1.commit = true ∧ e = entryOf (x, e.2.2) := by
      intro he
      obtain ⟨x, hx, hcommit, heq⟩ := hold e he
      have hlt : e.2.2 < ws.length := (List.getElem?_eq_some_iff.1 hx).1
      exact ⟨x, by rw [List.getElem?_append_left hlt, hx], hcommit, heq⟩
    split at he
    · rename_i hcommit
      rcases Table.mem_insertEntry he with rfl | he
      · exact ⟨(c, seq), by simp [hn], hcommit, rfl⟩
      · exact hkeep he
    · exact hkeep he

/-- While every call is committed and has a larger key than those before, each adds
its entry at the end. -/
theorem table_appends (processes : List (List JournalCall)) (hcommit : ∀ x ∈ returned processes, x.1.commit = true)
    (hkeys : (returned processes).Pairwise fun a b => keyOf a < keyOf b) :
    (runProcesses processes).table.entries = (returned processes).zipIdx.map entryOf := by
  have h := runProcesses_induct (fun t n ws => n = ws.length ∧ ((∀ x ∈ ws, x.1.commit = true) →
    (ws.Pairwise fun a b => keyOf a < keyOf b) → t.entries = ws.zipIdx.map entryOf)) ?_ ?_ processes
  · exact h.2 hcommit hkeys
  · exact ⟨rfl, fun _ _ => rfl⟩
  · rintro t n ws c seq ⟨hn, hold⟩
    refine ⟨by rw [hn, List.length_append, List.length_singleton], fun hcommit hkeys => ?_⟩
    obtain ⟨hws, -, hlast⟩ := List.pairwise_append.1 hkeys
    have hentries := hold (fun x hx => hcommit x (List.mem_append_left _ hx)) hws
    have hbehind : ∀ e ∈ t.entries, e.1 < packKey c.time seq := by
      intro e he
      rw [hentries] at he
      obtain ⟨⟨x, i⟩, hx, rfl⟩ := List.mem_map.1 he
      exact hlast x (List.fst_mem_of_mem_zipIdx hx) (c, seq) List.mem_cons_self
    rw [if_pos (hcommit (c, seq) (by simp)), Table.entries_put_last t _ hbehind, hentries, List.zipIdx_append,
      List.map_append, hn]
    simp [entryOf, keyOf]

theorem mem_journalReadAll {s : JournalState} {e : ReadEntry} {i : ℕ} :
    (e, i) ∈ journalReadAll s ↔ ∃ key val, (key, (val, i)) ∈ s.table.entries ∧ readEntry key val = some e := by
  unfold journalReadAll
  rw [List.mem_filterMap]
  constructor
  · rintro ⟨⟨key, val, i'⟩, hmem, hread⟩
    obtain ⟨e', he', heq⟩ := Option.map_eq_some_iff.1 hread
    obtain ⟨rfl, rfl⟩ := Prod.mk.injEq .. ▸ heq
    exact ⟨key, val, hmem, he'⟩
  · rintro ⟨key, val, hmem, hread⟩
    exact ⟨(key, (val, i)), hmem, by rw [hread]; rfl⟩

theorem timestamp_readEntry {key : List ℕ} {val : CStr} {e : ReadEntry} (h : readEntry key val = some e) :
    e.timestamp = unpackTs key := by
  unfold readEntry at h
  split at h
  · exact absurd h (by simp)
  · split at h
    · rw [← Option.some.inj h]
    · exact absurd h (by simp)

/-- The numbers of the calls whose entries are read. -/
theorem journalReadAll_numbers (s : JournalState) : (journalReadAll s).map Prod.snd =
    (s.table.entries.filter fun e => (readEntry e.1 e.2.1).isSome).map (·.2.2) := by
  unfold journalReadAll
  induction s.table.entries with
  | nil => rfl
  | cons e es ih =>
    cases hread : readEntry e.1 e.2.1 with
    | none =>
      rw [List.filterMap_cons_none (by rw [hread]; rfl), List.filter_cons_of_neg (by simp [hread]), ih]
    | some r =>
      rw [List.filterMap_cons_some (b := (r, e.2.2)) (by rw [hread]; rfl), List.filter_cons_of_pos (by simp [hread]),
        List.map_cons, List.map_cons, ih]

/-- Every call is committed, its text keeps three separators, and it comes after those
before it. -/
structure Kept (processes : List (List JournalCall)) : Prop where
  committed : ∀ x ∈ returned processes, x.1.commit = true
  separated : ∀ x ∈ returned processes, 3 ≤ (journalVal x.1).count bar
  after : (returned processes).Pairwise After

/-- Under a clock that does not go back, the calls stand in the order of their keys
when each comes after those before it. -/
theorem keys_pairwise_iff {processes : List (List JournalCall)} (hclock : processes.flatten.Pairwise (·.time ≤ ·.time)) :
    (returned processes).Pairwise (fun a b => keyOf a < keyOf b) ↔ (returned processes).Pairwise After := by
  have hcalls := hclock.sublist (returned_sublist processes)
  rw [List.pairwise_map] at hcalls
  constructor
  · intro h
    refine (h.and hcalls).imp_of_mem ?_
    rintro a b ha hb ⟨hlt, hle⟩
    exact (packKey_lt_iff (returned_lt ha) (returned_lt hb) hle).1 hlt
  · intro h
    refine (h.and hcalls).imp_of_mem ?_
    rintro a b ha hb ⟨hafter, hle⟩
    exact (packKey_lt_iff (returned_lt ha) (returned_lt hb) hle).2 hafter

/-- When the numbers read are those of all calls in their order, the entries read are
those of all calls in their order. -/
theorem entries_of_numbers {processes : List (List JournalCall)}
    (h : (journalReadAll (runProcesses processes)).map Prod.snd = List.range (returned processes).length) :
    ((runProcesses processes).table.entries.filter fun e => (readEntry e.1 e.2.1).isSome) =
      (returned processes).zipIdx.map entryOf := by
  rw [journalReadAll_numbers] at h
  have hlen := congrArg List.length h
  rw [List.length_map, List.length_range] at hlen
  apply List.ext_getElem (by rw [hlen, List.length_map, List.length_zipIdx])
  intro i hi hi'
  have hmem := (List.mem_filter.1 (List.getElem_mem hi)).1
  obtain ⟨x, hx, -, heq⟩ := (table_origin processes).2 _ hmem
  -- the entry at place `i` is that of call `i`
  have hnum : (((runProcesses processes).table.entries.filter fun e => (readEntry e.1 e.2.1).isSome)[i]).2.2 = i := by
    have hget := congrArg (fun l : List ℕ => l[i]?) h
    simp only [List.getElem?_map, List.getElem?_eq_getElem hi, Option.map_some,
      List.getElem?_range (hlen ▸ hi), Option.some.injEq] at hget
    exact hget
  rw [hnum] at hx heq
  rw [heq, List.getElem_map, List.getElem_zipIdx]
  obtain ⟨hlt, hxi⟩ := List.getElem?_eq_some_iff.1 hx
  simp [hxi]

theorem kept_of_numbers {processes : List (List JournalCall)} (hclock : processes.flatten.Pairwise (·.time ≤ ·.time))
    (h : (journalReadAll (runProcesses processes)).map Prod.snd = List.range (returned processes).length) :
    Kept processes := by
  have hentries := entries_of_numbers h
  have hmem : ∀ x ∈ returned processes, x.1.commit = true ∧ 3 ≤ (journalVal x.1).count bar := by
    intro x hx
    obtain ⟨i, hi⟩ := List.getElem?_of_mem hx
    have hin : entryOf (x, i) ∈ (returned processes).zipIdx.map entryOf :=
      List.mem_map_of_mem (List.mem_zipIdx_iff_getElem?.2 hi)
    rw [← hentries] at hin
    obtain ⟨hentry, hread⟩ := List.mem_filter.1 hin
    obtain ⟨y, hy, hcommit, -⟩ := (table_origin processes).2 _ hentry
    have hxy : x = y := Option.some.inj (hi.symm.trans hy)
    exact ⟨hxy ▸ hcommit, (readEntry_isSome_iff (length_packKey _ _) _).1 hread⟩
  have hkeys : (returned processes).Pairwise fun a b => keyOf a < keyOf b := by
    have hsorted := (runProcesses processes).table.sorted.filter fun e => (readEntry e.1 e.2.1).isSome
    rw [hentries, List.pairwise_map] at hsorted
    have hfst : (returned processes).zipIdx.map Prod.fst = returned processes := List.zipIdx_map_fst _ _
    rw [← hfst]
    exact List.pairwise_map.2 hsorted
  exact ⟨fun x hx => (hmem x hx).1, fun x hx => (hmem x hx).2, (keys_pairwise_iff hclock).1 hkeys⟩

theorem numbers_of_kept {processes : List (List JournalCall)} (hclock : processes.flatten.Pairwise (·.time ≤ ·.time))
    (h : Kept processes) :
    (journalReadAll (runProcesses processes)).map Prod.snd = List.range (returned processes).length := by
  rw [journalReadAll_numbers, table_appends processes h.committed ((keys_pairwise_iff hclock).2 h.after),
    List.filter_eq_self.2, List.map_map]
  · exact (List.zipIdx_map_snd 0 _).trans (by rw [List.range_eq_range'])
  · intro e he
    obtain ⟨⟨x, i⟩, hx, rfl⟩ := List.mem_map.1 he
    exact (readEntry_isSome_iff (length_packKey _ _) _).2 (h.separated x (List.fst_mem_of_mem_zipIdx hx))

/-- **The journal.** Under a clock that does not go back, one entry is read for each
call that returned `true`, in the order of the calls, exactly when they are kept
apart. What is read is always the entry of its call, with the time of the call. -/
theorem journalReadAll_ordered_iff (processes : List (List JournalCall))
    (hclock : processes.flatten.Pairwise (·.time ≤ ·.time)) :
    ((journalReadAll (runProcesses processes)).map Prod.snd = List.range (returned processes).length ↔ Kept processes) ∧
    ∀ e i, (e, i) ∈ journalReadAll (runProcesses processes) → ∃ x, (returned processes)[i]? = some x ∧
      readEntry (keyOf x) (journalVal x.1) = some e ∧ e.timestamp = x.1.time.val := by
  refine ⟨⟨kept_of_numbers hclock, numbers_of_kept hclock⟩, fun e i he => ?_⟩
  obtain ⟨key, val, hmem, hread⟩ := mem_journalReadAll.1 he
  obtain ⟨x, hx, -, heq⟩ := (table_origin processes).2 _ hmem
  obtain ⟨hkey, hval⟩ : key = keyOf x ∧ val = journalVal x.1 := by simpa [entryOf] using heq
  refine ⟨x, hx, by rw [← hkey, ← hval]; exact hread, ?_⟩
  rw [timestamp_readEntry hread, hkey]
  exact unpackTs_packKey _ _

/-- The installation of a package at a time. -/
def installAt (time : TimeT) (name : String) : JournalCall :=
  { op := .install, pkgName := some (cstr name), pkgVersion := some (cstr "1"), ok := true, uid := 0, explicitOp := true, time }

/-- Two processes in different seconds. -/
theorem journalReadAll_ordered_seconds :
    [[installAt ⟨7, by decide⟩ "a", installAt ⟨7, by decide⟩ "b"], [installAt ⟨8, by decide⟩ "c"]].flatten.Pairwise
      (·.time ≤ ·.time) ∧
    (journalReadAll (runProcesses [[installAt ⟨7, by decide⟩ "a", installAt ⟨7, by decide⟩ "b"],
      [installAt ⟨8, by decide⟩ "c"]])).map Prod.snd = [0, 1, 2] := by
  refine ⟨by decide, ?_⟩
  refine (journalReadAll_ordered_iff _ (by decide)).1.2 ⟨by decide, by decide, ?_⟩
  have hreturned : returned [[installAt ⟨7, by decide⟩ "a", installAt ⟨7, by decide⟩ "b"], [installAt ⟨8, by decide⟩ "c"]] =
    [(installAt ⟨7, by decide⟩ "a", 0), (installAt ⟨7, by decide⟩ "b", 1), (installAt ⟨8, by decide⟩ "c", 0)] := rfl
  rw [hreturned]
  simp [After, installAt]

/-- **Two processes that write in the same second**: both calls return `true`, and the
second takes the place of the first. -/
theorem journalReadAll_ordered_same_second :
    ¬ ∀ processes : List (List JournalCall), processes.flatten.Pairwise (·.time ≤ ·.time) →
      (∀ c ∈ processes.flatten, ∀ s, (journalWrite s c).1 = true) →
      (journalReadAll (runProcesses processes)).map Prod.snd = List.range processes.flatten.length := by
  intro h
  have hread := h [[installAt ⟨7, by decide⟩ "a"], [installAt ⟨7, by decide⟩ "b"]] (by decide) (by
    intro c hc s
    rw [journalWrite_returns]
    revert c
    decide)
  have hone : (journalReadAll (runProcesses [[installAt ⟨7, by decide⟩ "a"], [installAt ⟨7, by decide⟩ "b"]])).map
    Prod.snd = [1] := by decide
  rw [hone] at hread
  exact absurd hread (by decide)

end Journal

end Apg
