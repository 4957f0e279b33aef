import Apg.Proof.Entry
import Apg.Proof.Logging

/-!
# What the journal has gained

The calls of `journal_write` that a handle makes are noted in `Db.journal`; the table gets
what `Journal` makes of them, under the seconds and the counter of the process.

* `writeEntries_appended_iff`: **when the table has gained exactly the entries of some
  calls**, each read as it was written.
* `transCommit_journal_iff`: **the journal after a commit, whatever step it fails at.**
-/

namespace Apg

namespace Journal

variable {s s' : JournalState} {uid : UInt32} {clock : ℕ → TimeT} {es : List JournalEntry}

/-! ## Entries that are written -/

/-- What the calls put into the table, from a number of the calls and a value of the counter
on. -/
def written (uid : UInt32) (clock : ℕ → TimeT) : ℕ → ℕ → List JournalEntry → List (List ℕ × (CStr × ℕ))
  | _, _, [] => []
  | n, seq, e :: es =>
    (packKey (clock n) seq, (journalVal (callOf uid (clock n) e), n)) :: written uid clock (n + 1) ((seq + 1) % 2 ^ 32) es

theorem writeEntries_eq (uid : UInt32) (clock : ℕ → TimeT) : ∀ (es : List JournalEntry) (s : JournalState),
    (writeEntries uid clock s es).table =
      (written uid clock s.calls s.seqCounter es).foldl (fun t w => t.put w.1 w.2) s.table := by
  intro es
  induction es with
  | nil => intro s; rfl
  | cons e es ih =>
    intro s
    have hcall : (journalWrite s (callOf uid (clock s.calls) e)).2 =
        { table := s.table.put (packKey (clock s.calls) s.seqCounter) (journalVal (callOf uid (clock s.calls) e), s.calls)
          seqCounter := (s.seqCounter + 1) % 2 ^ 32
          calls := s.calls + 1 } := rfl
    rw [writeEntries, hcall, ih]
    rfl

/-- The keys that the next calls take. -/
def nextKeys (clock : ℕ → TimeT) : ℕ → ℕ → ℕ → List (List ℕ)
  | _, _, 0 => []
  | n, seq, k + 1 => packKey (clock n) seq :: nextKeys clock (n + 1) ((seq + 1) % 2 ^ 32) k

theorem keys_written (uid : UInt32) (clock : ℕ → TimeT) : ∀ (es : List JournalEntry) (n seq : ℕ),
    (written uid clock n seq es).map Prod.fst = nextKeys clock n seq es.length := by
  intro es
  induction es with
  | nil => intro n seq; rfl
  | cons e es ih => intro n seq; rw [written, List.map_cons, ih]; rfl

/-- The keys of the next calls are behind those of the table, and increase. -/
structure Behind (clock : ℕ → TimeT) (s : JournalState) (k : ℕ) : Prop where
  table : ∀ e ∈ s.table.entries, ∀ key ∈ nextKeys clock s.calls s.seqCounter k, e.1 < key
  increase : (nextKeys clock s.calls s.seqCounter k).Pairwise (· < ·)

/-- What is read of an entry of the table, with the number of its call. -/
def readNumbered (e : List ℕ × (CStr × ℕ)) : ℕ × Option (JournalEntry × ℕ × ℤ) :=
  (e.2.2, (readEntry e.1 e.2.1).map fun r => (r.toJournalEntry, r.uid, r.timestamp))

/-- **The table has gained one entry for each of these**, behind the others and in their order,
which is read as it was written. -/
def Appended (uid : UInt32) (clock : ℕ → TimeT) (s s' : JournalState) (es : List JournalEntry) : Prop :=
  ∃ new, s'.table.entries = s.table.entries ++ new ∧
    new.map readNumbered = (es.zipIdx s.calls).map fun x => (x.2, some (x.1, uid.toNat, (clock x.2).val))

/-- An entry that can be told when it is read: neither its name nor its version is a dash or
has a bar, and it is not too long for the buffer. -/
def Told (uid : UInt32) (e : JournalEntry) : Prop :=
  let c := callOf uid ⟨0, by decide⟩ e
  Storable c.pkgName ∧ Storable c.pkgVersion ∧ headLength c ≤ 511 ∧
    TailFits (511 - headLength c) c.ok c.uid.toNat c.explicitOp

theorem readNumbered_iff (time : TimeT) (seq n : ℕ) (e : JournalEntry) :
    readNumbered (packKey time seq, (journalVal (callOf uid time e), n)) = (n, some (e, uid.toNat, time.val)) ↔
      Told uid e := by
  unfold readNumbered
  rw [Prod.mk.injEq, eq_self, true_and, Option.map_eq_some_iff]
  constructor
  · rintro ⟨r, hr, hfields⟩
    simp only [Prod.mk.injEq] at hfields
    exact @fits_of_readEntry (callOf uid time e) seq r hr hfields.1 hfields.2.1
  · rintro ⟨hname, hversion, hhead, htail⟩
    obtain ⟨r, hr, hentry, huid⟩ := @readEntry_of_fits (callOf uid time e) hname hversion hhead htail seq
    have htime : r.timestamp = time.val := (timestamp_readEntry hr).trans (unpackTs_packKey time seq)
    exact ⟨r, hr, by rw [hentry, huid, htime]; rfl⟩

theorem read_written_iff (uid : UInt32) (clock : ℕ → TimeT) : ∀ (es : List JournalEntry) (n seq : ℕ),
    (written uid clock n seq es).map readNumbered =
        (es.zipIdx n).map (fun x => (x.2, some (x.1, uid.toNat, (clock x.2).val))) ↔ ∀ e ∈ es, Told uid e := by
  intro es
  induction es with
  | nil => intro n seq; simp [written]
  | cons e es ih =>
    intro n seq
    rw [written, List.map_cons, List.zipIdx_cons, List.map_cons, List.cons.injEq, readNumbered_iff, ih,
      List.forall_mem_cons]

theorem written_numbers (uid : UInt32) (clock : ℕ → TimeT) : ∀ (es : List JournalEntry) (n seq : ℕ),
    (written uid clock n seq es).map (·.2.2) = List.range' n es.length := by
  intro es
  induction es with
  | nil => intro n seq; rfl
  | cons e es ih => intro n seq; rw [written, List.map_cons, ih]; rfl

theorem behind_iff (clock : ℕ → TimeT) (s : JournalState) (es : List JournalEntry) :
    Behind clock s es.length ↔
      (∀ e ∈ s.table.entries, ∀ w ∈ written uid clock s.calls s.seqCounter es, e.1 < w.1) ∧
        (written uid clock s.calls s.seqCounter es).Pairwise fun a b => a.1 < b.1 := by
  have hkeys := keys_written uid clock es s.calls s.seqCounter
  constructor
  · rintro ⟨htable, hpair⟩
    rw [← hkeys] at htable hpair
    exact ⟨fun e he w hw => htable e he w.1 (List.mem_map_of_mem hw), List.pairwise_map.1 hpair⟩
  · rintro ⟨htable, hpair⟩
    refine ⟨fun e he key hkey => ?_, ?_⟩
    · rw [← hkeys] at hkey
      obtain ⟨w, hw, rfl⟩ := List.mem_map.1 hkey
      exact htable e he w hw
    · rw [← hkeys]
      exact List.pairwise_map.2 hpair

/-- What the table has gained is what was put into it. -/
theorem new_eq_written {new : List (List ℕ × (CStr × ℕ))}
    (hentries : (writeEntries uid clock s es).table.entries = s.table.entries ++ new)
    (hnumbers : new.map (·.2.2) = List.range' s.calls es.length) :
    new = written uid clock s.calls s.seqCounter es := by
  have hwritten := written_numbers uid clock es s.calls s.seqCounter
  have hlen : new.length = es.length := by simpa using congrArg List.length hnumbers
  have hlen' : (written uid clock s.calls s.seqCounter es).length = es.length := by
    simpa using congrArg List.length hwritten
  have hsorted := (writeEntries uid clock s es).table.sorted
  rw [hentries, List.pairwise_append] at hsorted
  have hnumber : ∀ {l : List (List ℕ × (CStr × ℕ))}, l.map (·.2.2) = List.range' s.calls es.length →
      ∀ k (hk : k < l.length), (l[k]).2.2 = s.calls + k := by
    intro l hl k hk
    have hget := congrArg (fun l : List ℕ => l[k]?) hl
    have hlt : k < es.length := by
      have := congrArg List.length hl
      simp only [List.length_map, List.length_range'] at this
      omega
    simpa [hk, hlt] using hget
  refine List.ext_getElem (hlen.trans hlen'.symm) fun k hk hk' => ?_
  -- an entry behind those of the table was put there
  have hput : new[k] ∈ written uid clock s.calls s.seqCounter es := by
    have hmem : new[k] ∈ (writeEntries uid clock s es).table.entries := by
      rw [hentries]
      exact List.mem_append_right _ (List.getElem_mem hk)
    rw [writeEntries_eq] at hmem
    refine (Table.mem_foldl_put _ _ hmem).resolve_left fun hold => ?_
    exact absurd (hsorted.2.2 _ hold _ (List.getElem_mem hk)) (lt_irrefl _)
  obtain ⟨j, hj, heq⟩ := List.getElem_of_mem hput
  have hjk := hnumber hwritten j hj
  rw [heq, hnumber hnumbers k hk] at hjk
  obtain rfl : k = j := by omega
  exact heq.symm

/-- **When the entries of some calls are what the table has gained**: their keys are behind
those of the table and increase, and each entry can be told. -/
theorem writeEntries_appended_iff (uid : UInt32) (clock : ℕ → TimeT) (s : JournalState) (es : List JournalEntry) :
    Appended uid clock s (writeEntries uid clock s es) es ↔ Behind clock s es.length ∧ ∀ e ∈ es, Told uid e := by
  rw [@behind_iff uid, ← read_written_iff uid clock es s.calls s.seqCounter, ← Table.entries_foldl_put_iff,
    ← writeEntries_eq]
  constructor
  · rintro ⟨new, hentries, hread⟩
    have hnumbers : new.map (·.2.2) = List.range' s.calls es.length := by
      have hfst := congrArg (List.map Prod.fst) hread
      rw [List.map_map, List.map_map] at hfst
      exact hfst.trans (List.zipIdx_map_snd _ _)
    obtain rfl := new_eq_written hentries hnumbers
    exact ⟨hentries, hread⟩
  · rintro ⟨hentries, hread⟩
    exact ⟨_, hentries, hread⟩

/-- Then `journal_read_all` has gained the same. -/
theorem Appended.journalReadAll (h : Appended uid clock s s' es) :
    ∃ gained, journalReadAll s' = journalReadAll s ++ gained ∧ gained.map (·.1.toJournalEntry) = es := by
  obtain ⟨new, hentries, hread⟩ := h
  refine ⟨new.filterMap fun e => (readEntry e.1 e.2.1).map (·, e.2.2), ?_, ?_⟩
  · unfold Journal.journalReadAll
    rw [hentries, List.filterMap_append]
  · have hall : ∀ (new : List (List ℕ × (CStr × ℕ))) (es : List JournalEntry) (n : ℕ), new.map readNumbered =
        (es.zipIdx n).map (fun x => (x.2, some (x.1, uid.toNat, (clock x.2).val))) →
        (new.filterMap fun e => (readEntry e.1 e.2.1).map (·, e.2.2)).map (·.1.toJournalEntry) = es := by
      intro new
      induction new with
      | nil =>
        intro es n h
        cases es with
        | nil => rfl
        | cons e es => cases h
      | cons w new ih =>
        intro es n h
        cases es with
        | nil => cases h
        | cons e es =>
          rw [List.map_cons, List.zipIdx_cons, List.map_cons, List.cons.injEq] at h
          obtain ⟨hone, hrest⟩ := h
          obtain ⟨r, hr, hfields⟩ := Option.map_eq_some_iff.1 (Prod.mk.inj hone).2
          simp only [Prod.mk.injEq] at hfields
          rw [List.filterMap_cons_some (by rw [hr]; rfl), List.map_cons, ih es (n + 1) hrest, hfields.1]
    exact hall new es s.calls hread

end Journal

/-! ## Commits -/

open Journal

variable {out : Outside} {t t' : ApgTrans} {mem : Heap} {db : Db} {err : TransError} {w : World}

/-- **The journal after a commit.** The calls are one for each attempted step, in the order of
the plan, and if the last one failed one for each step undone, the last one first; the
table has gained exactly their entries when their keys are behind those of the table and
increase, and their names and versions can be told. Whatever `trans_commit` returns, the
journal is no longer suppressed. -/
theorem transCommit_journal_iff (h : transCommit out mem db t = some (err, t', w)) (uid : UInt32) (clock : ℕ → TimeT)
    (s : JournalState) :
    (db.suppressJournal = false → w.db.suppressJournal = false) ∧
      (PastKeyring out t → t.dryRun = false → JournalOpens out t mem db →
        w.db.suppressJournal = false ∧ ∃ es, w.db.journal = db.journal ++ es ∧ CommitEntries out t mem db err es ∧
          (Appended uid clock s (writeEntries uid clock s es) es ↔ Behind clock s es.length ∧ ∀ e ∈ es, Told uid e)) := by
  obtain ⟨hoff, hpast⟩ := transCommit_journal h
  refine ⟨hoff, fun hkey hdry hopens => ?_⟩
  obtain ⟨hsup, es, hjournal, hes⟩ := hpast hkey hdry hopens
  exact ⟨hsup, es, hjournal, hes, writeEntries_appended_iff uid clock s es⟩

/-- No record can be written. -/
def noRecord : Outside := { addIo := fun _ _ => .failed }

/-- All calls in one second. -/
def atSeven : ℕ → TimeT := fun _ => ⟨7, by decide⟩

/-- The entries of an upgrade of `a` that is not recorded, and is undone. -/
def undoneUpgrade : List JournalEntry :=
  [⟨.install, some (cstr "a"), none, false, false⟩, ⟨.rollback, some (cstr "a"), none, true, false⟩]

theorem undoneUpgrade_behind : Behind atSeven {} undoneUpgrade.length := by
  refine ⟨fun e he => ?_, by decide⟩
  cases he

theorem undoneUpgrade_told : ∀ e ∈ undoneUpgrade, Told 0 e := by
  have hstorable : ∀ s, s = some (cstr "a") ∨ s = none → Storable s := by
    rintro s (rfl | rfl) x hx
    · rw [← Option.mem_some.1 hx]
      decide
    · cases hx
  intro e he
  simp only [undoneUpgrade, List.mem_cons, List.not_mem_nil, or_false] at he
  obtain rfl | rfl := he
  · exact ⟨hstorable _ (Or.inl rfl), hstorable _ (Or.inr rfl), by decide, Or.inl (by decide +kernel)⟩
  · exact ⟨hstorable _ (Or.inl rfl), hstorable _ (Or.inr rfl), by decide, Or.inl (by decide +kernel)⟩

/-- The record of `a` cannot be written, so its upgrade is undone. -/
theorem transCommit_journal_unrecorded :
    ∃ db trans mem t w es, transPrepare (fun _ => none) (fun _ => bare "a" []) db trans = some (.ok, mem, t) ∧
      transCommit noRecord mem db t = some (.db, t, w) ∧ w.db.journal = db.journal ++ es ∧
      es = undoneUpgrade ∧ Appended 0 atSeven {} (writeEntries 0 atSeven {} es) es := by
  have hruns : ∃ db, dbAdd (fun _ => .success) (dbOpen true true) (bare "a" []) = some (true, db) ∧
      ∃ mem t w, transPrepare (fun _ => none) (fun _ => bare "a" []) db { upgradePkgs := [1] } = some (.ok, mem, t) ∧
        PastKeyring noRecord t ∧ t.dryRun = false ∧ t.plan = [⟨.upgrade, cstr "a", none, false, some 1⟩] ∧
        Barred db ∧ transCommit noRecord mem db t = some (.db, t, w) :=
    ⟨_, rfl, _, _, _, rfl, ⟨rfl, rfl, by decide⟩, rfl, rfl, ⟨by decide, by decide⟩, rfl⟩
  obtain ⟨db, -, mem, t, w, hprep, hpast, hdry, hplan, hbarred, hcommit⟩ := hruns
  obtain ⟨-, es, hjournal, hes, hiff⟩ := (transCommit_journal_iff hcommit 0 atSeven {}).2 hpast hdry (hbarred.opens hdry)
  have hentries : es = undoneUpgrade := by
    obtain ⟨herr, -⟩ | ⟨-, done, step, rest, st, st', hsplit, -, -, rfl, hundone⟩ := hes
    · exact absurd herr (by decide)
    rw [hplan] at hsplit
    obtain rfl : done = [] := by
      have hlen := congrArg List.length hsplit
      simp only [List.length_append, List.length_cons, List.length_nil] at hlen
      exact List.length_eq_zero_iff.1 (by omega)
    rw [List.nil_append, List.cons.injEq] at hsplit
    obtain ⟨rfl, -⟩ := hsplit
    -- it failed at its record, so it is the one step undone
    have hone : st'.committed.map (·.step) = [⟨.upgrade, cstr "a", none, false, some 1⟩] := by
      simpa [undoneToo] using hundone
    obtain ⟨c, hc, hcs⟩ := List.map_eq_singleton_iff.1 hone
    rw [hc]
    simp [TransStep.entry, TransStep.undoneEntry, hcs, undoneUpgrade]
  refine ⟨db, _, mem, t, w, es, hprep, hcommit, hjournal, hentries, hiff.2 ?_⟩
  subst hentries
  exact ⟨undoneUpgrade_behind, undoneUpgrade_told⟩

/-- A package with a bar in its name is installed. -/
theorem transCommit_journal_barred :
    ∃ db trans mem t t' w es, Queued (fun _ => bare "a|b" []) trans ∧
      transPrepare (fun _ => none) (fun _ => bare "a|b" []) db trans = some (.ok, mem, t) ∧
      PastKeyring {} t ∧ t.dryRun = false ∧ JournalOpens {} t mem db ∧
      transCommit {} mem db t = some (.ok, t', w) ∧ w.db.journal = db.journal ++ es ∧
      es = [⟨.install, some (cstr "a|b"), none, true, true⟩] ∧
      ((journalReadAll (writeEntries 0 atSeven {} es)).map fun x => (x.1.pkgName, x.1.pkgVersion, x.1.ok)) =
        [(some (cstr "a"), some (cstr "b"), false)] ∧
      ¬Appended 0 atSeven {} (writeEntries 0 atSeven {} es) es := by
  have hruns : ∃ db, dbAdd (fun _ => .success) (dbOpen true true) (bare "a" []) = some (true, db) ∧ Barred db ∧
      ∃ mem t t' w, transPrepare (fun _ => none) (fun _ => bare "a|b" []) db { installPkgs := [1] } = some (.ok, mem, t) ∧
        PastKeyring {} t ∧ t.dryRun = false ∧ transCommit {} mem db t = some (.ok, t', w) ∧
        w.db.journal = db.journal ++ [⟨.install, some (cstr "a|b"), none, true, true⟩] :=
    ⟨_, rfl, ⟨by decide, by decide⟩, _, _, _, _, rfl, ⟨rfl, rfl, by decide⟩, rfl, rfl, rfl⟩
  obtain ⟨db, -, hbarred, mem, t, t', w, hprep, hpast, hdry, hcommit, hjournal⟩ := hruns
  refine ⟨db, _, mem, t, t', w, _, Queued.install 1 Queued.new, hprep, hpast, hdry, hbarred.opens hdry, hcommit, hjournal,
    rfl, by decide, fun happ => ?_⟩
  have htold := ((writeEntries_appended_iff 0 atSeven {} _).1 happ).2 _ (List.mem_singleton_self _)
  exact (htold.1 _ rfl).1 (by decide)

end Apg
