import Apg.Spec.Archive

/-!
# What extraction promises

* `isSafeRelativePath_safe`: the accepted targets of hard links are the relative paths
  without a segment `..`, and no part of one leads out of the destination.
* `extractToDir_ok_iff`: when success means that the archive was complete.
-/

namespace Apg

/-! ## Segments -/

/-- What the slashes of a path separate. -/
def segments (path : CStr) : List CStr := path.splitOn .slash

/-- A step along one segment, by its name alone. -/
def lexicalStep (dir : List CStr) (seg : CStr) : List CStr :=
  if seg = [] ∨ seg = cstr "." then dir else if seg = cstr ".." then dir.dropLast else dir ++ [seg]

/-- Where the segments lead from a directory, if every name on the way is a directory. -/
def lexicalResolve (dir segs : List CStr) : List CStr := segs.foldl lexicalStep dir

theorem prefix_lexicalResolve : ∀ {segs dir : List CStr}, cstr ".." ∉ segs → dir <+: lexicalResolve dir segs := by
  intro segs
  induction segs with
  | nil => intro dir _; exact List.prefix_refl dir
  | cons seg segs ih =>
    intro dir h
    rw [List.mem_cons, not_or] at h
    obtain ⟨hseg, hsegs⟩ := h
    have hstep : dir <+: lexicalStep dir seg := by
      unfold lexicalStep
      split_ifs with h1 h2
      · exact List.prefix_refl dir
      · exact absurd h2.symm hseg
      · exact List.prefix_append dir [seg]
    exact hstep.trans (ih hsegs)

theorem cstr_dots : cstr ".." = [.dot, .dot] := by decide

/-- The test on a segment compares it with `..`. -/
theorem segment_test (p : CStr) :
    (p.takeWhile (· ≠ .slash)).length = 2 ∧ p[0]? = some .dot ∧ p[1]? = some .dot ↔
      p.takeWhile (· ≠ .slash) = cstr ".." := by
  have hdot : CChar.dot ≠ .slash := by decide
  rw [cstr_dots]
  constructor
  · rintro ⟨hlen, h0, h1⟩
    obtain ⟨a, b, hab⟩ := List.length_eq_two.1 hlen
    obtain ⟨rest, hrest⟩ : [a, b] <+: p := hab ▸ List.takeWhile_prefix _
    rw [← hrest] at h0 h1
    obtain rfl : a = .dot := by simpa using h0
    obtain rfl : b = .dot := by simpa using h1
    exact hab
  · intro h
    obtain ⟨rest, hrest⟩ : [.dot, .dot] <+: p := h ▸ List.takeWhile_prefix _
    refine ⟨by rw [h]; rfl, ?_, ?_⟩ <;> rw [← hrest] <;> rfl

/-- Without a slash there is one segment. -/
theorem segments_last {p : CStr} (h : strchrNext p .slash = none) : segments p = [p.takeWhile (· ≠ .slash)] := by
  unfold strchrNext at h
  split at h
  · rename_i hs
    have hall := List.dropWhile_eq_nil_iff.1 hs
    have hnone : CChar.slash ∉ p := fun hc => by simpa using hall _ hc
    unfold segments
    rw [List.splitOn_eq_singleton hnone, List.takeWhile_eq_self_iff.2 hall]
  · simp at h

/-- The rest of the segments stand behind the first slash. -/
theorem segments_next {p next : CStr} (h : strchrNext p .slash = some next) :
    segments p = p.takeWhile (· ≠ .slash) :: segments next := by
  unfold strchrNext at h
  split at h
  · simp at h
  · rename_i x t hs
    obtain rfl := Option.some.inj h
    have hx : x = .slash := by
      have := List.head?_dropWhile_not (fun y => decide (y ≠ CChar.slash)) p
      rw [hs] at this
      simpa using this
    have hseg : CChar.slash ∉ p.takeWhile (· ≠ .slash) := fun hc => by simpa using List.mem_takeWhile_imp hc
    have hsplit : p = p.takeWhile (· ≠ .slash) ++ .slash :: t := by
      conv_lhs => rw [← List.takeWhile_append_dropWhile (p := fun y => decide (y ≠ CChar.slash)) (l := p), hs, hx]
    unfold segments
    conv_lhs => rw [hsplit]
    exact List.splitOn_append_cons_self_of_not_mem hseg t

/-- **The loop looks at every segment.** -/
theorem safeSegments_iff (p : CStr) : safeSegments p = true ↔ cstr ".." ∉ segments p := by
  fun_induction safeSegments p with
  | case1 =>
    rw [cstr_dots]
    decide
  | case2 p hp segLen htest =>
    have hfirst : ∃ rest, segments p = cstr ".." :: rest := by
      rw [← (segment_test p).1 htest]
      cases hnext : strchrNext p .slash with
      | none => exact ⟨_, segments_last hnext⟩
      | some next => exact ⟨_, segments_next hnext⟩
    obtain ⟨rest, hrest⟩ := hfirst
    simp [hrest]
  | case3 p hp segLen htest hnext =>
    rw [segment_test] at htest
    simpa [segments_last hnext] using Ne.symm htest
  | case4 p hp segLen htest next hnext ih =>
    rw [segment_test] at htest
    rw [segments_next hnext, List.mem_cons, not_or, ih]
    exact ⟨fun h => ⟨fun h' => htest h'.symm, h⟩, fun h => h.2⟩

theorem isSafeRelativePath_iff (path : CStr) :
    isSafeRelativePath (some path) = true ↔
      path ≠ [] ∧ path.head? ≠ some .slash ∧ cstr ".." ∉ segments path := by
  simp only [isSafeRelativePath]
  rw [← List.head?_eq_getElem?, ← safeSegments_iff]
  by_cases h1 : path = []
  · simp [h1]
  · by_cases h2 : path.head? = some .slash <;> simp [h1, h2]

theorem lexicalResolve_inside {path : CStr} (h : isSafeRelativePath (some path) = true) (dir : List CStr)
    {part : List CStr} (hpart : part <+: segments path) : dir <+: lexicalResolve dir part :=
  prefix_lexicalResolve fun hmem => ((isSafeRelativePath_iff path).1 h).2.2 (hpart.subset hmem)

/-- **Targets of hard links stay in the destination**: exactly the relative paths
without a segment `..` are accepted, and from no directory does a part of one lead
out of it. -/
theorem isSafeRelativePath_safe (path : CStr) :
    (isSafeRelativePath (some path) = true ↔
        path ≠ [] ∧ path.head? ≠ some .slash ∧ cstr ".." ∉ path.splitOn .slash) ∧
      (isSafeRelativePath (some path) = true →
        ∀ dir part, part <+: path.splitOn .slash → dir <+: lexicalResolve dir part) :=
  ⟨isSafeRelativePath_iff path, fun hsafe dir _ hpart => lexicalResolve_inside hsafe dir hpart⟩

/-- The names that only begin like `..`, an empty segment and a slash at the end are accepted. -/
theorem isSafeRelativePath_safe_dots :
    isSafeRelativePath (some (cstr "..a//./b/")) = true ∧
      ∀ dir part, part <+: (cstr "..a//./b/").splitOn .slash → dir <+: lexicalResolve dir part := by
  have hsafe : isSafeRelativePath (some (cstr "..a//./b/")) = true :=
    (isSafeRelativePath_iff _).2 (by unfold segments; decide)
  exact ⟨hsafe, (isSafeRelativePath_safe (cstr "..a//./b/")).2 hsafe⟩

/-! ## Extraction -/

/-- The header of the entry was given to the writer and written, and so was each of its
blocks, up to the end of its data. -/
structure Written (pathDest : CStr) (e : ArchiveEntry) : Prop where
  given : ∃ header, headerFor pathDest e = .ok header
  header : e.header = .ok
  blocks : ∀ write ∈ e.blocks, write = .ok
  dataEnd : e.dataEnd.1 = .eof

/-- Every header of the archive was read, and every entry is written. -/
structure Complete (pathDest : CStr) (stream : ArchiveStream) : Prop where
  opened : stream.opened = .ok
  headerEnd : stream.headerEnd.1 = .eof
  written : ∀ e ∈ stream.entries, Written pathDest e

theorem copyBlocks_eq (r : ArchiveStatus) (blocks : List ArchiveStatus) :
    copyBlocks r blocks = if ∀ write ∈ blocks, write = .ok then (r, true) else (.ok, false) := by
  induction blocks with
  | nil => simp [copyBlocks]
  | cons write blocks ih =>
    rw [copyBlocks]
    by_cases hw : write = .ok
    · rw [if_neg (not_not.2 hw), ih]
      simp [hw]
    · rw [if_pos hw, if_neg fun h => hw (h write List.mem_cons_self)]

/-- A round clears the flag unless the entry is written, and never sets it. -/
theorem extractEntry_ok (pathDest : CStr) (s : Extraction) (e : ArchiveEntry) :
    (extractEntry pathDest s e).ok = true ↔ s.ok = true ∧ Written pathDest e := by
  unfold extractEntry
  cases hgiven : headerFor pathDest e with
  | error msg =>
    have hnot : ¬ Written pathDest e := by
      rintro ⟨⟨header, h⟩, -, -, -⟩
      rw [hgiven] at h
      cases h
    simp [Extraction.fail, hnot]
  | ok header =>
    have hwritten : Written pathDest e ↔ e.header = .ok ∧ (∀ write ∈ e.blocks, write = .ok) ∧ e.dataEnd.1 = .eof :=
      ⟨fun h => ⟨h.header, h.blocks, h.dataEnd⟩, fun h => ⟨⟨header, hgiven⟩, h.1, h.2.1, h.2.2⟩⟩
    rw [hwritten]
    by_cases hheader : e.header = .ok
    · simp only [if_neg (not_not.2 hheader), copyBlocks_eq]
      by_cases hblocks : ∀ write ∈ e.blocks, write = .ok
      · -- only the read that ends the data can fail
        by_cases hend : e.dataEnd.1 = .eof
        · have hno : ¬ (ArchiveStatus.eof ≠ .eof ∧ ArchiveStatus.eof ≠ .ok) := fun h => h.1 rfl
          simp only [if_pos hblocks, hend, if_true, if_neg hno, hheader, true_and, and_true]
          exact ⟨fun h => ⟨h, hblocks⟩, fun h => h.1⟩
        · have hfail : e.dataEnd.1 ≠ .eof ∧ e.dataEnd.1 ≠ .ok := ⟨hend, e.dataEnd.2⟩
          simp [if_pos hblocks, hfail, Extraction.fail]
      · simp [hblocks, Extraction.fail]
    · simp [hheader, Extraction.fail]

theorem extractAll_ok (pathDest : CStr) : ∀ (entries : List ArchiveEntry) (s : Extraction),
    (entries.foldl (extractEntry pathDest) s).ok = true ↔ s.ok = true ∧ ∀ e ∈ entries, Written pathDest e := by
  intro entries
  induction entries with
  | nil => intro s; simp
  | cons e entries ih =>
    intro s
    rw [List.foldl_cons, ih, extractEntry_ok, List.forall_mem_cons, and_assoc]

/-- What success means: the archive opened and every entry before the loop ended is written. -/
theorem extractToDir_ok (archivePath pathDest : CStr) (stream : ArchiveStream) :
    (extractToDir archivePath pathDest stream).ok = true ↔
      stream.opened = .ok ∧ ∀ e ∈ stream.entries, Written pathDest e := by
  unfold extractToDir
  by_cases hopen : stream.opened = .ok
  · rw [if_neg (not_not.2 hopen), extractAll_ok]
    simp [hopen]
  · simp [hopen, Extraction.fail]

/-- **Success tells a complete archive** exactly when the headers end with the archive,
or something else has failed: no other end of the headers is noticed. -/
theorem extractToDir_complete_iff (archivePath pathDest : CStr) (stream : ArchiveStream) :
    ((extractToDir archivePath pathDest stream).ok = true ↔ Complete pathDest stream) ↔
      stream.headerEnd.1 = .eof ∨ stream.opened ≠ .ok ∨ ∃ e ∈ stream.entries, ¬ Written pathDest e := by
  rw [extractToDir_ok]
  constructor
  · intro h
    by_cases hopen : stream.opened = .ok
    · by_cases hall : ∀ e ∈ stream.entries, Written pathDest e
      · exact Or.inl (h.1 ⟨hopen, hall⟩).headerEnd
      · push Not at hall
        exact Or.inr (Or.inr hall)
    · exact Or.inr (Or.inl hopen)
  · intro h
    refine ⟨fun hok => ⟨hok.1, ?_, hok.2⟩, fun hc => ⟨hc.opened, hc.written⟩⟩
    rcases h with h | h | ⟨e, he, h⟩
    · exact h
    · exact absurd hok.1 h
    · exact absurd (hok.2 e he) h

/-- A regular file of one block. -/
def wholeFile : ArchiveEntry where
  pathname := cstr "data/bin/a"
  blocks := [.ok]
  dataEnd := ⟨.eof, by decide⟩

/-- An archive cut off behind its first entry. -/
def cutOff : ArchiveStream where
  entries := [wholeFile]
  headerEnd := ⟨.fatal, by decide⟩

/-- A cut off archive is extracted with success. -/
theorem extractToDir_cutOff :
    (extractToDir (cstr "/x.apg") (cstr "/tmp/x") cutOff).ok = true ∧ ¬ Complete (cstr "/tmp/x") cutOff := by
  refine ⟨by decide, fun h => ?_⟩
  have := h.headerEnd
  revert this
  decide

/-! ## Links -/

/-- Every link that is given to the writer leads from the destination along an accepted target. -/
theorem headerFor_link {pathDest fullPath fullLink : CStr} {e : ArchiveEntry}
    (h : headerFor pathDest e = .ok (fullPath, some fullLink)) :
    ∃ hardlink, isSafeRelativePath (some hardlink) = true ∧ fullLink = pathDest ++ .slash :: hardlink := by
  unfold headerFor at h
  cases hpath : joinDest pathDest (entryName e) with
  | none => simp [hpath] at h
  | some fullPath' =>
    cases hlink : e.hardlink with
    | none => simp [hpath, hlink] at h
    | some hardlink =>
      by_cases hsafe : isSafeRelativePath (some hardlink) = true
      · cases hjoin : joinDest pathDest hardlink with
        | none => simp [hpath, hlink, hsafe, hjoin] at h
        | some fullLink' =>
          simp only [hpath, hlink, hsafe, hjoin, Bool.true_eq_false, if_false, Except.ok.injEq, Prod.mk.injEq,
            Option.some.injEq] at h
          unfold joinDest at hjoin
          split at hjoin
          · cases hjoin
          · exact ⟨hardlink, hsafe, by rw [← h.2, ← Option.some.inj hjoin]⟩
      · simp [hpath, hlink, hsafe] at h

theorem extractEntry_headers (pathDest : CStr) (s : Extraction) (e : ArchiveEntry) {header : CStr × Option CStr}
    (h : header ∈ (extractEntry pathDest s e).headers) :
    header ∈ s.headers ∨ headerFor pathDest e = .ok header := by
  unfold extractEntry at h
  cases hgiven : headerFor pathDest e with
  | error msg =>
    rw [hgiven] at h
    exact Or.inl h
  | ok header' =>
    have hmem : header ∈ s.headers ++ [header'] := by
      rw [hgiven] at h
      simp only at h
      split_ifs at h <;> exact h
    rcases List.mem_append.1 hmem with hmem | hmem
    · exact Or.inl hmem
    · rw [List.mem_singleton.1 hmem]
      exact Or.inr rfl

/-- **No link leaves the destination**, at any part of the way that extraction adds to it. -/
theorem extractToDir_links_inside {archivePath pathDest fullPath fullLink : CStr} {stream : ArchiveStream}
    (h : (fullPath, some fullLink) ∈ (extractToDir archivePath pathDest stream).headers) :
    segments pathDest <+: segments fullLink ∧
      ∀ part, segments pathDest <+: part → part <+: segments fullLink →
        lexicalResolve [] (segments pathDest) <+: lexicalResolve [] part := by
  have hall : ∀ (entries : List ArchiveEntry) (s : Extraction),
      (∀ header ∈ s.headers, ∃ e, headerFor pathDest e = .ok header) →
      ∀ header ∈ (entries.foldl (extractEntry pathDest) s).headers, ∃ e, headerFor pathDest e = .ok header := by
    intro entries
    induction entries with
    | nil => intro s hs; exact hs
    | cons e entries ih =>
      intro s hs
      refine ih _ fun header hheader => ?_
      rcases extractEntry_headers pathDest s e hheader with h | h
      · exact hs header h
      · exact ⟨e, h⟩
  have hgiven : ∃ e, headerFor pathDest e = .ok (fullPath, some fullLink) := by
    unfold extractToDir at h
    split at h
    · simp [Extraction.fail] at h
    · exact hall _ _ (by simp) _ h
  obtain ⟨e, he⟩ := hgiven
  obtain ⟨hardlink, hsafe, rfl⟩ := headerFor_link he
  have hsegs : segments (pathDest ++ .slash :: hardlink) = segments pathDest ++ segments hardlink :=
    List.splitOn_append_cons_self pathDest hardlink
  rw [hsegs]
  refine ⟨List.prefix_append _ _, ?_⟩
  rintro _ ⟨rest, rfl⟩ hpart
  unfold lexicalResolve
  rw [List.foldl_append]
  exact lexicalResolve_inside hsafe _ ((List.prefix_append_right_inj _).1 hpart)

end Apg
