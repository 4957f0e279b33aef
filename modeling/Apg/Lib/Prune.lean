import Apg.Lib.Posix

/-!
# A file system with less in it

Taking something away leads no path to a new directory: a path that still leads to one
led there before (`reach_of_less`). So what is told of the links of a file system stays
true while entries of it are taken away.
-/

namespace Apg.Posix

variable {ν β τ : Type*} [LinearOrder ν] {fs fs' fs'' : Fs ν β τ} {q : List ν}

/-- Everything in the first file system is in the other one. -/
def Less (fs' fs : Fs ν β τ) : Prop := ∀ q e, fs'.get q = some e → fs.get q = some e

theorem Less.refl (fs : Fs ν β τ) : Less fs fs := fun _ _ h => h

theorem Less.trans (h : Less fs'' fs') (h' : Less fs' fs) : Less fs'' fs := fun q e he => h' q e (h q e he)

theorem Less.erase (fs : Fs ν β τ) (q : List ν) : Less (fs.erase q) fs := by
  intro r e he
  rw [Fs.get_erase] at he
  split at he
  · cases he
  · exact he

theorem Less.isDirAt (h : Less fs' fs) (hd : fs'.isDirAt q = true) : fs.isDirAt q = true := by
  rw [Fs.isDirAt_iff] at hd ⊢
  rcases hd with hq | ⟨m, hm⟩
  · exact Or.inl hq
  · exact Or.inr ⟨m, h q _ hm⟩

/-- The names in a directory are those of the entries in it. -/
theorem mem_list {x : ν} : x ∈ list fs q ↔ fs.get (q ++ [x]) ≠ none := by
  unfold list
  rw [List.mem_filterMap]
  constructor
  · rintro ⟨r, hr, hx⟩
    obtain ⟨⟨r', e⟩, he, rfl⟩ := List.mem_map.1 hr
    split at hx
    · rename_i hq
      have hplace : r' = q ++ [x] := by
        rw [← hq]
        exact (List.dropLast_append_getLast? x hx).symm
      rw [← hplace, Fs.get, (fs.table.get_eq_some).2 he]
      simp
    · cases hx
  · intro h
    obtain ⟨e, he⟩ := Option.ne_none_iff_exists'.1 h
    exact ⟨q ++ [x], List.mem_map.2 ⟨(q ++ [x], e), (fs.table.get_eq_some).1 he, rfl⟩, by simp⟩

/-- There are at least as many entries as names on the way to one of them. -/
theorem length_le_entries (h : fs.get q ≠ none) : q.length ≤ fs.table.entries.length := by
  -- each of them leads to an entry of its own
  have hsub : (List.range q.length).map (fun k => q.take (k + 1)) ⊆ fs.table.entries.map Prod.fst := by
    intro p hp
    obtain ⟨k, hk, rfl⟩ := List.mem_map.1 hp
    have hlt := List.mem_range.1 hk
    have hne : q.take (k + 1) ≠ [] := by
      rw [← List.length_pos_iff, List.length_take]
      omega
    have hget : fs.get (q.take (k + 1)) ≠ none := by
      by_cases heq : q.take (k + 1) = q
      · rw [heq]; exact h
      · obtain hnil | ⟨m, hm⟩ := (fs.isDirAt_iff _).1 (Fs.isDirAt_above (List.take_prefix _ q) heq h)
        · exact absurd hnil hne
        · rw [hm]; simp
    obtain ⟨e, he⟩ := Option.ne_none_iff_exists'.1 hget
    exact List.mem_map.2 ⟨(_, e), (fs.table.get_eq_some).1 he, rfl⟩
  have hnd : ((List.range q.length).map fun k => q.take (k + 1)).Nodup := by
    refine List.Nodup.map_on (fun i hi j hj hij => ?_) List.nodup_range
    have hlen := congrArg List.length hij
    rw [List.mem_range] at hi hj
    rw [List.length_take, List.length_take] at hlen
    omega
  have hle := (List.subperm_of_subset hnd hsub).length_le
  simpa using hle

section

variable [LinkText τ ν]

theorem reachIn_of_less (h : Less fs' fs) {next next' : List ν → List (Comp ν) → Option (List ν)}
    (hd : fs'.isDirAt q = true) (hnext : ∀ cur path, next cur path = some q → next' cur path = some q) :
    ∀ (path : List (Comp ν)) (cur : List ν), reachIn fs' next cur path = some q → reachIn fs next' cur path = some q := by
  intro path
  induction path with
  | nil => intro cur hr; exact hr
  | cons c path ih =>
    intro cur hr
    cases c with
    | up => exact ih _ hr
    | name x =>
      -- a way that ends here does not end at a directory
      have hend : (∀ m, fs'.get (cur ++ [x]) ≠ some (.dir m)) →
          (if path = [] then some (cur ++ [x]) else none) ≠ some q := by
        intro hno heq
        split at heq
        · rw [Option.some.injEq] at heq
          subst heq
          obtain hnil | ⟨m, hm⟩ := (fs'.isDirAt_iff _).1 hd
          · simp at hnil
          · exact hno m hm
        · cases heq
      rw [reachIn] at hr ⊢
      cases hget : fs'.get (cur ++ [x]) with
      | none =>
        rw [hget] at hr
        exact absurd hr (hend (by rw [hget]; simp))
      | some e =>
        rw [hget] at hr
        rw [h _ _ hget]
        cases e with
        | dir m => exact ih _ hr
        | link t => exact hnext _ _ hr
        | file c m => exact absurd hr (hend (by rw [hget]; simp))
        | special => exact absurd hr (hend (by rw [hget]; simp))

theorem reachN_of_less (h : Less fs' fs) (hd : fs'.isDirAt q = true) : ∀ (n : ℕ) (cur : List ν) (path : List (Comp ν)),
    reachN fs' n cur path = some q → reachN fs n cur path = some q := by
  intro n
  induction n with
  | zero => intro cur path hr; exact reachIn_of_less h hd (fun _ _ hn => hn) path cur hr
  | succ n ih => intro cur path hr; exact reachIn_of_less h hd ih path cur hr

/-- **A path that leads to a directory leads there as well with more in the file system.** -/
theorem reach_of_less (h : Less fs' fs) (hd : fs'.isDirAt q = true) {path : List (Comp ν)}
    (hr : reach fs' path = some q) : reach fs path = some q :=
  reachN_of_less h hd maxLinks [] path hr

theorem stat_dir_of_less (h : Less fs' fs) {path : List (Comp ν)} {m : ℕ} (hs : stat fs' path = some (.dir m)) :
    stat fs path = some (.dir m) := by
  obtain ⟨q, hr, he⟩ := Option.bind_eq_some_iff.1 hs
  have hd : fs'.isDirAt q = true := by
    unfold entryAt at he
    split at he
    · rename_i hq
      rw [hq]; exact fs'.isDirAt_top
    · exact Fs.isDirAt_of_get he
  unfold stat
  rw [reach_of_less h hd hr, Option.bind_some]
  unfold entryAt at he ⊢
  split at he
  · rename_i hq
    rw [if_pos hq]; exact he
  · rename_i hq
    rw [if_neg hq]; exact h _ _ he

theorem unlink_less (fs : Fs ν β τ) (path : List (Comp ν)) : Less ((unlink fs path).getD fs) fs := by
  cases hun : unlink fs path with
  | none => exact Less.refl fs
  | some fs' =>
    unfold unlink at hun
    obtain ⟨q, -, hun⟩ := Option.bind_eq_some_iff.1 hun
    split at hun
    · cases hun
    · cases hun
    · rw [← Option.some.inj hun]
      exact Less.erase fs q

/-- **A path names the place it named before something else came.** -/
theorem locate_of_less (h : Less fs' fs) {path : List (Comp ν)} (hq : locate fs' path = some q) : locate fs path = some q := by
  have hreach : ∀ {path : List (Comp ν)} {p}, (reach fs' path).filter (fs'.isDirAt ·) = some p →
      (reach fs path).filter (fs.isDirAt ·) = some p := by
    intro path p hp
    obtain ⟨hr, hd⟩ := Option.filter_eq_some_iff.1 hp
    rw [reach_of_less h hd hr]
    exact Option.filter_eq_some_iff.2 ⟨rfl, h.isDirAt hd⟩
  unfold locate at hq ⊢
  split
  · rename_i x hx
    rw [hx] at hq
    obtain ⟨p, hp, rfl⟩ := Option.map_eq_some_iff.1 hq
    rw [hreach hp]
    rfl
  · rename_i hx
    split at hq
    · rename_i x hx'
      exact absurd hx' (hx x)
    · exact hreach hq

/-- With no link at its end a path leads nowhere but to the place it names. -/
theorem reach_eq_of_locate {path : List (Comp ν)} {r : List ν} (hl : locate fs path = some q)
    (hlink : ∀ t, fs.get q ≠ some (.link t)) (hr : reach fs path = some r) : r = q := by
  cases path using List.reverseRecOn with
  | nil =>
    unfold locate at hl
    simp only [List.getLast?_nil] at hl
    rw [hr] at hl
    exact Option.some.inj (Option.filter_eq_some_iff.1 hl).1
  | append_singleton path c =>
    obtain ⟨p, hp, hd, hend⟩ := reach_concat hr
    unfold locate at hl
    rw [List.getLast?_concat, List.dropLast_concat] at hl
    cases c with
    | up =>
      simp only [hr] at hl
      exact Option.some.inj (Option.filter_eq_some_iff.1 hl).1
    | name x =>
      simp only [hp, Option.filter_some, hd, if_true, Option.map_some, Option.some.injEq] at hl
      subst hl
      exact hend.resolve_right fun ⟨t, ht⟩ => hlink t ht

/-- What has been made is where its path leads. -/
theorem reach_of_create {path : List (Comp ν)} {r : List ν} {e : Entry β τ} (h : create fs path e = some fs')
    (he : ∀ t, e ≠ .link t) (hr : reach fs' path = some r) : locate fs path = some r := by
  unfold create at h
  obtain ⟨q, hq, h⟩ := Option.bind_eq_some_iff.1 h
  split at h
  · rename_i hnone
    obtain rfl := Option.some.inj h
    have hne : q ≠ [] := by
      rintro rfl
      simp [entryAt] at hnone
    rw [entryAt_of_ne fs hne] at hnone
    have hless : Less fs (fs.set q e) := by
      intro p e' hp
      by_cases hfits : fs.Fits q e
      · rw [Fs.get_set hfits, if_neg]
        · exact hp
        · rintro rfl
          rw [hnone] at hp
          cases hp
      · rw [Fs.set, dif_neg hfits]
        exact hp
    rw [hq, reach_eq_of_locate (locate_of_less hless hq) (fun t ht => ?_) hr]
    by_cases hfits : fs.Fits q e
    · rw [Fs.get_set hfits, if_pos rfl] at ht
      exact he t (Option.some.inj ht)
    · rw [Fs.set, dif_neg hfits, hnone] at ht
      cases ht
  · cases h

/-- What `mkdir` has made is no file. -/
theorem mkdir_not_file {path : List (Comp ν)} {r : List ν} {m m' : ℕ} {c : β} (h : mkdir fs path m = some fs')
    (hr : reach fs' path = some r) : fs'.get r ≠ some (.file c m') := by
  have hplace := reach_of_create h (by simp) hr
  unfold mkdir create at h
  rw [hplace, Option.bind_some] at h
  split at h
  · rename_i hnone
    obtain rfl := Option.some.inj h
    by_cases hfits : fs.Fits r (.dir m)
    · rw [Fs.get_set hfits, if_pos rfl]
      simp
    · rw [Fs.set, dif_neg hfits]
      intro hfile
      unfold entryAt at hnone
      split at hnone
      · cases hnone
      · rw [hfile] at hnone
        cases hnone
  · cases h

/-- What can be unlinked is gone, what is left is no link. -/
theorem unlink_free {path : List (Comp ν)} (hq : locate ((unlink fs path).getD fs) path = some q) (t : τ) :
    ((unlink fs path).getD fs).get q ≠ some (.link t) := by
  have hold := locate_of_less (unlink_less fs path) hq
  intro ht
  have hget := unlink_less fs path _ _ ht
  have hun : unlink fs path = some (fs.erase q) := by
    unfold unlink
    rw [hold, Option.bind_some, hget]
  rw [hun, Option.getD_some, Fs.get_erase, if_pos (List.prefix_refl q)] at ht
  cases ht

end

end Apg.Posix
