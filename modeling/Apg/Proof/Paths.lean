import Apg.Lib.Runs
import Apg.Spec.Util

/-!
# Joined paths

`concat_dirs` joins two paths and squeezes the slashes in the buffer it returns.

* `concatDirsInPlace_eq`: the loop over the buffer computes `concatDirs`.
* `concatDirs_assoc`: **joining is associative**, whatever slashes the parts have.
-/

namespace Apg

open Posix Runs

/-! ## The list version -/

theorem collapseSlashes_eq (s : CStr) : collapseSlashes s = squeeze .slash s := by
  induction s with
  | nil => rfl
  | cons c s ih =>
    cases s with
    | nil => rfl
    | cons c' s => rw [collapseSlashes, squeeze_cons_cons, ih]

theorem concatDirs_eq (path1 path2 : CStr) : concatDirs path1 path2 = squeeze .slash (path1 ++ .slash :: path2) :=
  collapseSlashes_eq _

/-- Squeezing the second part first changes nothing. -/
theorem concatDirs_squeeze (a b : CStr) : concatDirs a (squeeze .slash b) = concatDirs a b := by
  rw [concatDirs_eq, concatDirs_eq]
  have h := squeeze_append_right CChar.slash (a ++ [.slash]) b
  simpa using h

/-- A slash that the second part begins with is no other than the one between them. -/
theorem concatDirs_slash (a b : CStr) : concatDirs a (.slash :: b) = concatDirs a b := by
  rw [concatDirs_eq, concatDirs_eq, ← squeeze_append_right .slash a (.slash :: .slash :: b), squeeze_cons_cons,
    if_pos ⟨rfl, rfl⟩, squeeze_append_right]

/-- **Joining is associative.** -/
theorem concatDirs_assoc (a b c : CStr) : concatDirs (concatDirs a b) c = concatDirs a (concatDirs b c) := by
  rw [concatDirs_eq b c, concatDirs_squeeze, concatDirs_eq, concatDirs_eq a b, squeeze_append_left, concatDirs_eq]
  simp

/-! ## Components -/

theorem comps_fileName (x : FileName) : comps x.1 = names [x] := by
  unfold comps
  rw [List.splitOn_eq_singleton x.2.2.2.2]
  have hone : comp x.1 = some (.name x) := by
    unfold comp
    rw [if_neg x.2.2.2.1, dif_pos x.2]
  rw [List.filterMap_cons_some hone]
  rfl

theorem comps_join (a b : CStr) : comps (a ++ .slash :: b) = comps a ++ comps b := by
  unfold comps
  rw [List.splitOn_append_cons_self, List.filterMap_append]

theorem comps_slash (s : CStr) : comps (.slash :: s) = comps s := comps_join [] s

theorem squeeze_append_of_notMem {l : CStr} (h : CChar.slash ∉ l) (m : CStr) :
    squeeze .slash (l ++ m) = l ++ squeeze .slash m := by
  induction l with
  | nil => rfl
  | cons c l ih =>
    rw [List.mem_cons, not_or] at h
    rw [List.cons_append, squeeze_cons_of_ne (Ne.symm h.1), ih h.2, List.cons_append]

theorem comps_dropWhile (s : CStr) : comps (s.dropWhile (· = .slash)) = comps s := by
  induction s with
  | nil => rfl
  | cons c s ih =>
    by_cases hc : c = .slash
    · subst hc
      rw [List.dropWhile_cons_of_pos (by simp), ih, comps_slash]
    · rw [List.dropWhile_cons_of_neg (by simpa using hc)]

/-- Squeezing slashes keeps the components. -/
theorem comps_squeeze (s : CStr) : comps (squeeze .slash s) = comps s := by
  induction hn : s.length using Nat.strong_induction_on generalizing s with
  | _ n ih =>
    by_cases hs : CChar.slash ∈ s
    · obtain ⟨seg, rest, rfl, hseg⟩ := List.eq_append_cons_of_mem hs
      have hshort : (rest.dropWhile (· = .slash)).length < n := by
        have := List.length_dropWhile_le (fun x => decide (x = CChar.slash)) rest
        rw [List.length_append, List.length_cons] at hn
        omega
      rw [squeeze_append_of_notMem hseg, squeeze_cons_sep, comps_join, comps_join, ih _ hshort _ rfl, comps_dropWhile]
    · have := squeeze_append_of_notMem hs []
      rw [List.append_nil, squeeze_nil, List.append_nil] at this
      rw [this]

theorem comps_concatDirs (dst : CStr) (name : FileName) :
    comps (concatDirs dst name.1) = comps dst ++ [.name name] := by
  rw [concatDirs_eq, comps_squeeze, comps_join, comps_fileName]
  rfl

/-! ## The buffer -/

/-- The buffer holds the string and its terminator from index `i` on. -/
def HoldsAt (buf : List Cell) (i : ℕ) (s : CStr) : Prop := ∃ rest, buf.drop i = s.map some ++ none :: rest

theorem cstrAt_append (s : CStr) (rest : List Cell) : cstrAt (s.map some ++ none :: rest) = s := by
  unfold cstrAt
  induction s with
  | nil => rfl
  | cons c s ih => simp [ih]

theorem HoldsAt.cstrAt_eq {buf : List Cell} {s : CStr} (h : HoldsAt buf 0 s) : cstrAt buf = s := by
  obtain ⟨rest, h⟩ := h
  rw [List.drop_zero] at h
  rw [h, cstrAt_append]

theorem HoldsAt.getD_cons {buf : List Cell} {i : ℕ} {c : CChar} {s : CStr} (h : HoldsAt buf i (c :: s)) :
    i < buf.length ∧ buf.getD i none = some c ∧ HoldsAt buf (i + 1) s := by
  obtain ⟨rest, h⟩ := h
  have hget : buf[i]? = some (some c) := by
    rw [← Nat.add_zero i, ← List.getElem?_drop, h]; rfl
  refine ⟨(List.getElem?_eq_some_iff.1 hget).1, by simp [List.getD_eq_getElem?_getD, hget], rest, ?_⟩
  rw [← List.drop_drop, h]
  rfl

theorem HoldsAt.getD_nil {buf : List Cell} {i : ℕ} (h : HoldsAt buf i []) : i < buf.length ∧ buf.getD i none = none := by
  obtain ⟨rest, h⟩ := h
  have hget : buf[i]? = some none := by
    rw [← Nat.add_zero i, ← List.getElem?_drop, h]; rfl
  exact ⟨(List.getElem?_eq_some_iff.1 hget).1, by simp [List.getD_eq_getElem?_getD, hget]⟩

/-- Writing below `i` leaves what is read from `i` on. -/
theorem HoldsAt.set {buf : List Cell} {i j : ℕ} {s : CStr} (h : HoldsAt buf i s) (hji : j < i) (b : Cell) :
    HoldsAt (buf.set j b) i s := by
  obtain ⟨rest, h⟩ := h
  exact ⟨rest, by rw [List.drop_set_of_lt hji, h]⟩

/-- The characters of a string go to the places from `i` on. -/
theorem copyChars_spec : ∀ (str : CStr) (result : List Cell) (i : ℕ), i + str.length ≤ result.length →
    copyChars result i str = result.take i ++ str.map some ++ result.drop (i + str.length) := by
  intro str
  induction str with
  | nil => intro result i _; simp [copyChars]
  | cons c str ih =>
    intro result i hlen
    rw [List.length_cons] at hlen
    rw [copyChars, ih _ _ (by rw [List.length_set]; omega)]
    rw [List.take_add_one, List.take_set_of_le le_rfl, List.drop_set_of_lt (by omega)]
    have hi : i < result.length := by omega
    simp [hi, show i + 1 + str.length = i + (str.length + 1) by omega]

theorem concat_spec (junk : ℕ → Cell) (str1 str2 : CStr) : HoldsAt (concat junk str1 str2) 0 (str1 ++ str2) := by
  unfold concat
  simp only
  set block := malloc junk (str1.length + str2.length + 1) with hblock
  have hlen : block.length = str1.length + str2.length + 1 := by simp [hblock, malloc]
  have h1 : copyChars block 0 str1 = str1.map some ++ block.drop str1.length := by
    rw [copyChars_spec str1 block 0 (by omega), List.take_zero, List.nil_append, Nat.zero_add]
  have h2 : copyChars (copyChars block 0 str1) str1.length str2 =
      (str1 ++ str2).map some ++ block.drop (str1.length + str2.length) := by
    rw [h1, copyChars_spec _ _ _ (by simp; omega)]
    simp [List.drop_append]
  -- the byte that is left takes the terminator
  have hlast : (block.drop (str1.length + str2.length)).length = 1 := by
    rw [List.length_drop]
    omega
  obtain ⟨b, hb⟩ := List.length_eq_one_iff.1 hlast
  refine ⟨[], ?_⟩
  rw [List.drop_zero, h2, hb, ← List.length_append, List.set_append_right _ _ (by simp)]
  simp

/-! ## The loop -/

theorem skipSlashes_holds {buf : List Cell} : ∀ {s : CStr} {i : ℕ}, HoldsAt buf i s →
    HoldsAt buf (skipSlashes buf i) (s.dropWhile (· = .slash)) := by
  intro s
  induction s with
  | nil =>
    intro i h
    rw [skipSlashes, if_neg (by rw [h.getD_nil.2]; simp)]
    exact h
  | cons c s ih =>
    intro i h
    obtain ⟨hi, hget, hrest⟩ := h.getD_cons
    rw [skipSlashes]
    by_cases hc : c = .slash
    · rw [if_pos ⟨hi, by rw [hget, hc]⟩, List.dropWhile_cons_of_pos (by simpa using hc)]
      exact ih hrest
    · rw [if_neg (by rw [hget]; simpa using fun _ => hc), List.dropWhile_cons_of_neg (by simpa using hc)]
      exact h

/-- **The loop over the buffer**: what stands below `j` is kept, and what is read
from `i` on is squeezed behind it. -/
theorem squeezeLoop_spec {s : CStr} : ∀ {buf : List Cell} {i j : ℕ} {done : CStr}, j ≤ i → HoldsAt buf i s →
    buf.take j = done.map some → cstrAt (squeezeLoop buf i j) = done ++ squeeze .slash s := by
  induction hn : s.length using Nat.strong_induction_on generalizing s with
  | _ n ih =>
    intro buf i j done hji h hdone
    cases s with
    | nil =>
      obtain ⟨hi, hget⟩ := h.getD_nil
      rw [squeezeLoop, if_neg fun hx => hx.2 hget, List.set_eq_take_append_cons_drop, if_pos (by omega), hdone,
        cstrAt_append, squeeze_nil, List.append_nil]
    | cons c s =>
      obtain ⟨hi, hget, hrest⟩ := h.getD_cons
      rw [squeezeLoop, if_pos ⟨hi, by rw [hget]; simp⟩, hget]
      -- the write is at or below the place that is read
      have hset : HoldsAt (buf.set j (some c)) (i + 1) s := hrest.set (by omega) _
      have hread : (buf.set j (some c)).getD i none = some c := by
        rw [List.getD_eq_getElem?_getD, List.getElem?_set]
        rw [List.getD_eq_getElem?_getD] at hget
        split_ifs <;> simp_all
      have hdone' : (buf.set j (some c)).take (j + 1) = (done ++ [c]).map some := by
        rw [List.take_add_one, List.take_set_of_le le_rfl, hdone]
        simp [show j < buf.length by omega]
      unfold nextIndex
      rw [hread]
      by_cases hc : c = .slash
      · subst hc
        rw [if_pos rfl, squeeze_cons_sep, skipSlashes, if_pos ⟨by simpa using hi, hread⟩]
        have hshort : (s.dropWhile (· = .slash)).length < n := by
          have := List.length_dropWhile_le (fun x => decide (x = CChar.slash)) s
          rw [List.length_cons] at hn; omega
        rw [ih _ hshort rfl (by have := le_skipSlashes (buf.set j (some .slash)) (i + 1); omega)
          (skipSlashes_holds hset) hdone']
        simp
      · rw [if_neg (by simpa using hc), squeeze_cons_of_ne hc,
          ih _ (by rw [← hn]; exact Nat.lt_succ_self _) rfl (by omega) hset hdone']
        simp

/-- The loops of `concat_dirs` compute `concatDirs`. -/
theorem concatDirsInPlace_eq (junk junk' : ℕ → Cell) (path1 path2 : CStr) :
    concatDirsInPlace junk junk' path1 path2 = concatDirs path1 path2 := by
  unfold concatDirsInPlace
  simp only
  rw [(concat_spec junk path1 [.slash]).cstrAt_eq]
  have hnone : (concat junk' (path1 ++ [.slash]) path2).take 0 = ([] : CStr).map some := rfl
  have h := squeezeLoop_spec le_rfl (concat_spec junk' (path1 ++ [.slash]) path2) hnone
  rw [h, concatDirs_eq]
  simp

/-- **Path joining is canonical and associative**: the loops join the parts with a
slash and keep one slash of every run, so that no two stand side by side and joins
may be grouped in any way. -/
theorem concatDirs_canonical (junk junk' : ℕ → Cell) (a b c : CStr) :
    concatDirsInPlace junk junk' a b =
        ((a ++ CChar.slash :: b).splitBy fun x y => x = CChar.slash && y = CChar.slash).flatMap (·.take 1) ∧
      (concatDirsInPlace junk junk' a b).IsChain (fun x y => ¬ (x = CChar.slash ∧ y = CChar.slash)) ∧
      concatDirsInPlace junk junk' (concatDirsInPlace junk junk' a b) c =
        concatDirsInPlace junk junk' a (concatDirsInPlace junk junk' b c) := by
  simp only [concatDirsInPlace_eq]
  refine ⟨?_, ?_, concatDirs_assoc a b c⟩
  · rw [concatDirs_eq, squeeze_eq_runs]
  · rw [concatDirs_eq]
    exact isChain_squeeze CChar.slash _

end Apg
