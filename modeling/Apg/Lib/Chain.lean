import Mathlib

/-!
# Hash tables with chaining

A table is a list of buckets, and a bucket the chain of its entries. An entry
stands in the bucket of its key's hash modulo the number of buckets. New entries
go to the front of their chain; growing the table moves every entry, in order,
to the front of its new chain.

* `OK`: entries stand in their bucket and keys are unique. Every operation keeps
  it (`push_ok`, `assign_ok`, `rehash_ok`).
* `find_push`, `find_assign`, `find_rehash`: **the table is a finite map**;
  growing it changes nothing a lookup can see.
-/

namespace Apg.Chain

variable {κ ν : Type*} [DecidableEq κ] (h : κ → ℕ)

/-- The chain a key belongs to. -/
def chain (bs : List (List (κ × ν))) (k : κ) : List (κ × ν) := bs.getD (h k % bs.length) []

/-- Walk the key's chain to the first entry with that key. -/
def find (bs : List (List (κ × ν))) (k : κ) : Option ν := (chain h bs k).lookup k

/-- A new entry at the front of its chain. -/
def push (bs : List (List (κ × ν))) (k : κ) (v : ν) : List (List (κ × ν)) :=
  bs.modify (h k % bs.length) ((k, v) :: ·)

/-- Overwrite the value of the first entry with key `k`. -/
def overwrite (k : κ) (v : ν) : List (κ × ν) → List (κ × ν)
  | [] => []
  | e :: c => if e.1 = k then (e.1, v) :: c else e :: overwrite k v c

def assign (bs : List (List (κ × ν))) (k : κ) (v : ν) : List (List (κ × ν)) :=
  bs.modify (h k % bs.length) (overwrite k v)

/-- Move every entry, bucket by bucket, to a table of `n` buckets. -/
def rehash (bs : List (List (κ × ν))) (n : ℕ) : List (List (κ × ν)) :=
  bs.flatten.foldl (fun nb e => push h nb e.1 e.2) (List.replicate n [])

/-- Entries stand in the bucket of their key, and keys are unique. -/
structure OK (bs : List (List (κ × ν))) : Prop where
  pos : 0 < bs.length
  placed : ∀ i, ∀ e ∈ bs.getD i [], h e.1 % bs.length = i
  nodup : (bs.flatten.map Prod.fst).Nodup

omit [DecidableEq κ] in
@[simp] theorem length_push (bs : List (List (κ × ν))) (k : κ) (v : ν) :
    (push h bs k v).length = bs.length := by simp [push]

@[simp] theorem length_assign (bs : List (List (κ × ν))) (k : κ) (v : ν) :
    (assign h bs k v).length = bs.length := by simp [assign]

variable {h}

/-! ## Lookup -/

theorem lookup_cons_ite (k k₀ : κ) (v₀ : ν) (c : List (κ × ν)) :
    ((k₀, v₀) :: c).lookup k = if k = k₀ then some v₀ else c.lookup k := by
  rw [List.lookup_cons]
  by_cases hk : k = k₀
  · simp [hk]
  · simp only [if_neg hk, (by simpa using hk : (k == k₀) = false)]

/-- Where only bucket `i` can hold the key, searching all buckets is searching
bucket `i`. -/
theorem lookup_flatten {k : κ} : ∀ (bs : List (List (κ × ν))) (i : ℕ),
    (∀ j, j ≠ i → ∀ e ∈ bs.getD j [], e.1 ≠ k) → bs.flatten.lookup k = (bs.getD i []).lookup k := by
  intro bs
  induction bs with
  | nil => intro i _; simp
  | cons c bs ih =>
    intro i hi
    rw [List.flatten_cons, List.lookup_append]
    cases i with
    | zero =>
      -- the key is in none of the later buckets
      have hn : bs.flatten.lookup k = none := by
        rw [List.lookup_eq_none_iff]
        intro e he
        obtain ⟨d, hd, hed⟩ := List.mem_flatten.1 he
        obtain ⟨j, hj, rfl⟩ := List.getElem_of_mem hd
        have := hi (j + 1) (by omega) e (by simpa [List.getD_eq_getElem?_getD, hj] using hed)
        simpa using this.symm
      rw [hn]; simp
    | succ i =>
      -- the key is not in the first one
      have hn : c.lookup k = none := by
        rw [List.lookup_eq_none_iff]
        intro e he
        simpa using (hi 0 (by omega) e (by simpa using he)).symm
      rw [hn, Option.none_or, ih i (fun j hj e he => hi (j + 1) (by omega) e (by simpa using he))]
      simp

theorem find_eq_lookup {bs : List (List (κ × ν))} (hb : OK h bs) (k : κ) :
    find h bs k = bs.flatten.lookup k := by
  refine (lookup_flatten bs _ ?_).symm
  rintro j hj e he rfl
  exact hj (hb.placed j e he).symm

theorem find_push {bs : List (List (κ × ν))} (hb : 0 < bs.length) (k k' : κ) (v : ν) :
    find h (push h bs k v) k' = if k' = k then some v else find h bs k' := by
  have hlt := Nat.mod_lt (h k) hb
  have hlt' := Nat.mod_lt (h k') hb
  simp only [find, chain, length_push]
  by_cases hi : h k' % bs.length = h k % bs.length
  · have hg : (push h bs k v).getD (h k' % bs.length) [] = (k, v) :: bs.getD (h k' % bs.length) [] := by
      simp [push, List.getD_eq_getElem?_getD, hi, hlt]
    rw [hg, lookup_cons_ite]
  · have hk : k' ≠ k := fun hk => hi (by rw [hk])
    rw [if_neg hk]
    congr 1
    simp [push, List.getD_eq_getElem?_getD, Ne.symm hi]

theorem lookup_overwrite (k k' : κ) (v : ν) : ∀ c : List (κ × ν), c.lookup k ≠ none →
    (overwrite k v c).lookup k' = if k' = k then some v else c.lookup k' := by
  intro c
  induction c with
  | nil => intro hc; simp at hc
  | cons e c ih =>
    intro hc
    simp only [overwrite]
    obtain ⟨k₀, v₀⟩ := e
    by_cases he : k₀ = k
    · subst he
      rw [if_pos rfl, lookup_cons_ite, lookup_cons_ite]
      split_ifs <;> rfl
    · have hc' : c.lookup k ≠ none := by
        rwa [lookup_cons_ite, if_neg (Ne.symm he)] at hc
      rw [if_neg he, lookup_cons_ite, lookup_cons_ite, ih hc']
      by_cases hk : k' = k₀
      · rw [if_pos hk, if_pos hk, if_neg (fun hkk => he (hk.symm.trans hkk))]
      · rw [if_neg hk, if_neg hk]

theorem find_assign {bs : List (List (κ × ν))} {k : κ} (hk : find h bs k ≠ none) (k' : κ) (v : ν) :
    find h (assign h bs k v) k' = if k' = k then some v else find h bs k' := by
  have hlt : h k % bs.length < bs.length := by
    by_contra hn
    simp [find, chain, List.getD_eq_getElem?_getD, List.getElem?_eq_none (not_lt.1 hn)] at hk
  simp only [find, chain, length_assign] at hk ⊢
  by_cases hi : h k' % bs.length = h k % bs.length
  · have hg : (assign h bs k v).getD (h k' % bs.length) [] =
        overwrite k v (bs.getD (h k' % bs.length) []) := by
      simp [assign, List.getD_eq_getElem?_getD, hi, hlt]
    rw [hg, hi]
    exact lookup_overwrite k k' v _ hk
  · have hne : k' ≠ k := fun hk => hi (by rw [hk])
    rw [if_neg hne]
    congr 1
    simp [assign, List.getD_eq_getElem?_getD, Ne.symm hi]

/-! ## The invariant -/

omit [DecidableEq κ] in
theorem perm_push {bs : List (List (κ × ν))} (hb : 0 < bs.length) (k : κ) (v : ν) :
    (push h bs k v).flatten.Perm ((k, v) :: bs.flatten) := by
  obtain ⟨l₁, c, l₂, h2, -, h3⟩ := List.exists_of_modify ((k, v) :: ·) (Nat.mod_lt (h k) hb)
  rw [push, h3, h2]
  simp only [List.flatten_append, List.flatten_cons, List.cons_append]
  exact List.perm_middle

theorem keys_overwrite (k : κ) (v : ν) (c : List (κ × ν)) :
    (overwrite k v c).map Prod.fst = c.map Prod.fst := by
  induction c with
  | nil => rfl
  | cons e c ih => simp only [overwrite]; split <;> simp [ih]

theorem keys_assign (bs : List (List (κ × ν))) (k : κ) (v : ν) :
    (assign h bs k v).flatten.map Prod.fst = bs.flatten.map Prod.fst := by
  by_cases hb : h k % bs.length < bs.length
  · obtain ⟨l₁, c, l₂, h2, -, h3⟩ := List.exists_of_modify (overwrite k v) hb
    rw [assign, h3, h2]
    simp [keys_overwrite]
  · rw [assign, List.modify_eq_self (not_lt.1 hb)]

theorem find_eq_none_iff {bs : List (List (κ × ν))} (hb : OK h bs) (k : κ) :
    find h bs k = none ↔ k ∉ bs.flatten.map Prod.fst := by
  rw [find_eq_lookup hb, List.lookup_eq_none_iff]
  simp only [List.mem_map, not_exists, not_and, bne_iff_ne]
  exact ⟨fun hk e he hek => hk e he hek.symm, fun hk e he hek => hk e he hek.symm⟩

/-- **A new key keeps the table well formed.** -/
theorem push_ok {bs : List (List (κ × ν))} (hb : OK h bs) {k : κ} (hk : find h bs k = none) (v : ν) :
    OK h (push h bs k v) := by
  refine ⟨by simpa using hb.pos, ?_, ?_⟩
  · intro i e he
    rw [length_push]
    by_cases hi : i = h k % bs.length
    · subst hi
      have hlt := Nat.mod_lt (h k) hb.pos
      have hg : (push h bs k v).getD (h k % bs.length) [] = (k, v) :: bs.getD (h k % bs.length) [] := by
        simp [push, List.getD_eq_getElem?_getD, hlt]
      rw [hg] at he
      rcases List.mem_cons.1 he with rfl | he
      · rfl
      · exact hb.placed _ e he
    · refine hb.placed i e ?_
      simpa [push, List.getD_eq_getElem?_getD, Ne.symm hi] using he
  · have hp := (perm_push (h := h) hb.pos k v).map Prod.fst
    rw [hp.nodup_iff, List.map_cons, List.nodup_cons]
    exact ⟨(find_eq_none_iff hb k).1 hk, hb.nodup⟩

theorem assign_ok {bs : List (List (κ × ν))} (hb : OK h bs) (k : κ) (v : ν) : OK h (assign h bs k v) := by
  refine ⟨by simpa using hb.pos, ?_, by rw [keys_assign]; exact hb.nodup⟩
  intro i e he
  rw [length_assign]
  by_cases hi : i = h k % bs.length
  · subst hi
    have hlt := Nat.mod_lt (h k) hb.pos
    have he' : e.1 ∈ (overwrite k v (bs.getD (h k % bs.length) [])).map Prod.fst := by
      refine List.mem_map_of_mem ?_
      simpa [assign, List.getD_eq_getElem?_getD, hlt] using he
    rw [keys_overwrite] at he'
    obtain ⟨e', he', hee⟩ := List.mem_map.1 he'
    rw [← hee]; exact hb.placed _ e' he'
  · refine hb.placed i e ?_
    simpa [assign, List.getD_eq_getElem?_getD, Ne.symm hi] using he

omit [DecidableEq κ] in
theorem ok_replicate {n : ℕ} (hn : 0 < n) : OK h (List.replicate n ([] : List (κ × ν))) := by
  refine ⟨by simpa using hn, ?_, by simp⟩
  intro i e he
  rw [List.getD_eq_getElem?_getD, List.getElem?_replicate] at he
  split at he <;> simp at he

/-- Pushing a list of entries with new and distinct keys. -/
theorem foldl_push_ok : ∀ (es : List (κ × ν)) (bs : List (List (κ × ν))), OK h bs →
    (es.map Prod.fst).Nodup → (∀ e ∈ es, find h bs e.1 = none) →
    OK h (es.foldl (fun nb e => push h nb e.1 e.2) bs) ∧
      (es.foldl (fun nb e => push h nb e.1 e.2) bs).length = bs.length ∧
      (es.foldl (fun nb e => push h nb e.1 e.2) bs).flatten.Perm (es ++ bs.flatten) := by
  intro es
  induction es with
  | nil => intro bs hb _ _; exact ⟨hb, rfl, List.Perm.refl _⟩
  | cons e es ih =>
    intro bs hb hnd hnew
    simp only [List.map_cons, List.nodup_cons] at hnd
    simp only [List.foldl_cons]
    -- the keys still to come are new to the table with `e` too
    have hnew' : ∀ x ∈ es, find h (push h bs e.1 e.2) x.1 = none := by
      intro x hx
      have hxe : x.1 ≠ e.1 := fun hxe => hnd.1 (hxe ▸ List.mem_map_of_mem hx)
      rw [find_push hb.pos, if_neg hxe]; exact hnew x (List.mem_cons_of_mem _ hx)
    obtain ⟨h1, h2, h3⟩ := ih _ (push_ok hb (hnew e List.mem_cons_self) e.2) hnd.2 hnew'
    refine ⟨h1, by rw [h2, length_push], h3.trans ?_⟩
    exact ((perm_push hb.pos e.1 e.2).append_left es).trans List.perm_middle

variable {bs : List (List (κ × ν))} {n : ℕ}

theorem rehash_spec (hb : OK h bs) (hn : 0 < n) :
    OK h (rehash h bs n) ∧ (rehash h bs n).length = n ∧ (rehash h bs n).flatten.Perm bs.flatten := by
  have hnew : ∀ e ∈ bs.flatten, find h (List.replicate n ([] : List (κ × ν))) e.1 = none := by
    intro e _
    rw [find_eq_none_iff (ok_replicate hn)]; simp
  obtain ⟨h1, h2, h3⟩ := foldl_push_ok bs.flatten (List.replicate n []) (ok_replicate hn) hb.nodup hnew
  rw [List.length_replicate] at h2
  rw [List.flatten_replicate_nil, List.append_nil] at h3
  exact ⟨h1, h2, h3⟩

/-- **Growing keeps the table well formed.** -/
theorem rehash_ok (hb : OK h bs) (hn : 0 < n) : OK h (rehash h bs n) := (rehash_spec hb hn).1

theorem lookup_eq_some_iff_mem {l : List (κ × ν)} (hl : (l.map Prod.fst).Nodup) (k : κ) (v : ν) :
    l.lookup k = some v ↔ (k, v) ∈ l := by
  induction l with
  | nil => simp
  | cons e l ih =>
    simp only [List.map_cons, List.nodup_cons] at hl
    obtain ⟨k₀, v₀⟩ := e
    rw [lookup_cons_ite, List.mem_cons]
    by_cases hk : k = k₀
    · subst hk
      have hm : (k, v) ∉ l := fun hm => hl.1 (List.mem_map.2 ⟨_, hm, rfl⟩)
      simp [hm, eq_comm]
    · simp [hk, ih hl.2]

/-- **Growing changes nothing a lookup can see.** -/
theorem find_rehash (hb : OK h bs) (hn : 0 < n) (k : κ) : find h (rehash h bs n) k = find h bs k := by
  obtain ⟨h1, -, h3⟩ := rehash_spec hb hn
  rw [find_eq_lookup h1, find_eq_lookup hb]
  apply Option.ext
  intro v
  rw [lookup_eq_some_iff_mem h1.nodup, lookup_eq_some_iff_mem hb.nodup, h3.mem_iff]

end Apg.Chain
