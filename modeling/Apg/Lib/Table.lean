import Apg.Lib.Chain

/-!
# Sorted tables

A table of a key-value store: its entries stand in the order of their keys, each
key once. Two tables with the same lookups are equal (`ext_get`), so a table is a
finite map with one representation.
-/

namespace Apg

/-- Entries in the order of their keys. -/
structure Table (κ ν : Type*) [LinearOrder κ] where
  entries : List (κ × ν)
  sorted : entries.Pairwise fun a b => a.1 < b.1

namespace Table

variable {κ ν : Type*} [LinearOrder κ]

def empty : Table κ ν := ⟨[], List.Pairwise.nil⟩

def get (t : Table κ ν) (k : κ) : Option ν := t.entries.lookup k

/-- An entry put at its place, in place of one with the same key. -/
def insertEntry (k : κ) (v : ν) : List (κ × ν) → List (κ × ν)
  | [] => [(k, v)]
  | e :: es => if k < e.1 then (k, v) :: e :: es else if e.1 < k then e :: insertEntry k v es else (k, v) :: es

theorem mem_insertEntry {k : κ} {v : ν} {x : κ × ν} : ∀ {es : List (κ × ν)}, x ∈ insertEntry k v es →
    x = (k, v) ∨ x ∈ es := by
  intro es
  induction es with
  | nil => intro h; exact Or.inl (List.mem_singleton.1 h)
  | cons e es ih =>
    intro h
    unfold insertEntry at h
    split_ifs at h
    · exact List.mem_cons.1 h
    · rcases List.mem_cons.1 h with h | h
      · exact Or.inr (h ▸ List.mem_cons_self)
      · rcases ih h with h | h
        · exact Or.inl h
        · exact Or.inr (List.mem_cons_of_mem _ h)
    · rcases List.mem_cons.1 h with h | h
      · exact Or.inl h
      · exact Or.inr (List.mem_cons_of_mem _ h)

theorem sorted_insertEntry (k : κ) (v : ν) : ∀ {es : List (κ × ν)}, (es.Pairwise fun a b => a.1 < b.1) →
    (insertEntry k v es).Pairwise fun a b => a.1 < b.1 := by
  intro es
  induction es with
  | nil => intro _; exact List.pairwise_singleton _ _
  | cons e es ih =>
    intro h
    obtain ⟨he, hes⟩ := List.pairwise_cons.1 h
    unfold insertEntry
    split_ifs with h1 h2
    · refine List.pairwise_cons.2 ⟨?_, h⟩
      intro x hx
      rcases List.mem_cons.1 hx with rfl | hx
      · exact h1
      · exact h1.trans (he x hx)
    · refine List.pairwise_cons.2 ⟨?_, ih hes⟩
      intro x hx
      rcases mem_insertEntry hx with rfl | hx
      · exact h2
      · exact he x hx
    · -- the key of `e` is `k`
      have hk : e.1 = k := le_antisymm (not_lt.1 h1) (not_lt.1 h2)
      refine List.pairwise_cons.2 ⟨?_, hes⟩
      intro x hx
      rw [← hk]; exact he x hx

def put (t : Table κ ν) (k : κ) (v : ν) : Table κ ν := ⟨insertEntry k v t.entries, sorted_insertEntry k v t.sorted⟩

def del (t : Table κ ν) (k : κ) : Table κ ν := ⟨t.entries.filter (·.1 ≠ k), t.sorted.filter _⟩

/-- The entries whose keys are kept. -/
def keep (t : Table κ ν) (f : κ → Bool) : Table κ ν := ⟨t.entries.filter fun e => f e.1, t.sorted.filter _⟩

@[simp] theorem get_empty (k : κ) : (empty : Table κ ν).get k = none := rfl

@[simp] theorem get_put (t : Table κ ν) (k k' : κ) (v : ν) :
    (t.put k v).get k' = if k' = k then some v else t.get k' := by
  unfold put get
  simp only
  induction t.entries with
  | nil => rw [insertEntry, Chain.lookup_cons_ite]
  | cons e es ih =>
    obtain ⟨k₀, v₀⟩ := e
    rcases lt_trichotomy k k₀ with h | h | h
    · rw [insertEntry, if_pos h, Chain.lookup_cons_ite]
    · subst h
      rw [insertEntry, if_neg (lt_irrefl _), if_neg (lt_irrefl _), Chain.lookup_cons_ite, Chain.lookup_cons_ite]
      split_ifs <;> rfl
    · rw [insertEntry, if_neg (lt_asymm h), if_pos h, Chain.lookup_cons_ite, Chain.lookup_cons_ite, ih]
      by_cases hk : k' = k₀
      · rw [if_pos hk, if_pos hk, if_neg (hk ▸ ne_of_lt h)]
      · rw [if_neg hk, if_neg hk]

@[simp] theorem get_del (t : Table κ ν) (k k' : κ) : (t.del k).get k' = if k' = k then none else t.get k' := by
  unfold del get
  simp only
  induction t.entries with
  | nil => simp
  | cons e es ih =>
    obtain ⟨k₀, v₀⟩ := e
    by_cases he : k₀ = k
    · rw [List.filter_cons_of_neg (by simpa using he), ih, Chain.lookup_cons_ite]
      split_ifs with h1 h2
      · rfl
      · exact absurd (h2.trans he) h1
      · rfl
    · rw [List.filter_cons_of_pos (by simpa using he), Chain.lookup_cons_ite, Chain.lookup_cons_ite, ih]
      split_ifs with h1 h2 h2
      · exact absurd (h1.symm.trans h2) he
      · rfl
      · rfl
      · rfl

@[simp] theorem get_keep (t : Table κ ν) (f : κ → Bool) (k : κ) :
    (t.keep f).get k = if f k = true then t.get k else none := by
  unfold keep get
  simp only
  induction t.entries with
  | nil => simp
  | cons e es ih =>
    obtain ⟨k₀, v₀⟩ := e
    by_cases he : f k₀ = true
    · rw [List.filter_cons_of_pos (by simpa using he), Chain.lookup_cons_ite, Chain.lookup_cons_ite, ih]
      split_ifs with h1 h2
      · rfl
      · exact absurd (h1 ▸ he) h2
      · rfl
      · rfl
    · rw [List.filter_cons_of_neg (by simpa using he), Chain.lookup_cons_ite, ih]
      split_ifs with h1 h2
      · exact absurd (h2 ▸ h1) he
      · rfl
      · rfl

theorem nodup_keys (t : Table κ ν) : (t.entries.map Prod.fst).Nodup := by
  refine List.pairwise_map.2 (t.sorted.imp ?_)
  intro a b hlt heq
  exact absurd hlt (heq ▸ lt_irrefl _)

/-- The entries are what a lookup finds. -/
theorem get_eq_some (t : Table κ ν) {k : κ} {v : ν} : t.get k = some v ↔ (k, v) ∈ t.entries :=
  Chain.lookup_eq_some_iff_mem t.nodup_keys k v

/-- A lookup finds the entry with the key, however keys are compared. -/
theorem get_eq_find [DecidableEq κ] (t : Table κ ν) (k : κ) :
    t.get k = (t.entries.find? fun e => e.1 = k).map Prod.snd := by
  cases hf : t.entries.find? fun e => e.1 = k with
  | none =>
    rw [Option.map_none, Option.eq_none_iff_forall_ne_some]
    intro v hv
    rw [get_eq_some] at hv
    have := List.find?_eq_none.1 hf (k, v) hv
    simp at this
  | some e =>
    have hk : e.1 = k := by simpa using List.find?_some hf
    rw [Option.map_some, get_eq_some, ← hk]
    exact List.mem_of_find?_eq_some hf

/-- **Tables with the same lookups are equal.** -/
theorem ext_get {t t' : Table κ ν} (h : ∀ k, t.get k = t'.get k) : t = t' := by
  have hmem : ∀ x, x ∈ t.entries ↔ x ∈ t'.entries := by
    rintro ⟨k, v⟩
    rw [← get_eq_some, ← get_eq_some, h]
  -- two sorted permutations of each other are equal
  have hperm : t.entries.Perm t'.entries :=
    (List.perm_ext_iff_of_nodup t.nodup_keys.of_map t'.nodup_keys.of_map).2 hmem
  have heq : t.entries = t'.entries :=
    hperm.eq_of_pairwise (fun a b _ _ hab hba => absurd hab (lt_asymm hba)) t.sorted t'.sorted
  cases t; cases t'; simpa using heq

/-- A key behind all others goes to the end. -/
theorem entries_put_last (t : Table κ ν) {k : κ} (v : ν) (h : ∀ e ∈ t.entries, e.1 < k) :
    (t.put k v).entries = t.entries ++ [(k, v)] := by
  show insertEntry k v t.entries = t.entries ++ [(k, v)]
  generalize t.entries = es at h
  induction es with
  | nil => rfl
  | cons e es ih =>
    have he : e.1 < k := h e List.mem_cons_self
    rw [insertEntry, if_neg (lt_asymm he), if_pos he, ih fun x hx => h x (List.mem_cons_of_mem _ hx), List.cons_append]

/-- Entries put one after the other are all at the end, in their order, exactly when their
keys are behind the others and increase. -/
theorem entries_foldl_put_iff : ∀ (ws : List (κ × ν)) (t : Table κ ν),
    (ws.foldl (fun t w => t.put w.1 w.2) t).entries = t.entries ++ ws ↔
      (∀ e ∈ t.entries, ∀ w ∈ ws, e.1 < w.1) ∧ ws.Pairwise fun a b => a.1 < b.1 := by
  intro ws t
  constructor
  · intro h
    have hsorted := (ws.foldl (fun t w => t.put w.1 w.2) t).sorted
    rw [h, List.pairwise_append] at hsorted
    exact ⟨hsorted.2.2, hsorted.2.1⟩
  · induction ws generalizing t with
    | nil => intro _; simp
    | cons w ws ih =>
      rintro ⟨hbehind, hpair⟩
      obtain ⟨hfirst, hrest⟩ := List.pairwise_cons.1 hpair
      have hput := entries_put_last t w.2 fun e he => hbehind e he w List.mem_cons_self
      rw [List.foldl_cons, ih (t.put w.1 w.2) ⟨?_, hrest⟩, hput, List.append_assoc]
      · rfl
      · intro e he v hv
        rw [hput, List.mem_append, List.mem_singleton] at he
        rcases he with he | rfl
        · exact hbehind e he v (List.mem_cons_of_mem _ hv)
        · exact hfirst v hv

theorem mem_foldl_put {x : κ × ν} : ∀ (ws : List (κ × ν)) (t : Table κ ν),
    x ∈ (ws.foldl (fun t w => t.put w.1 w.2) t).entries → x ∈ t.entries ∨ x ∈ ws := by
  intro ws
  induction ws with
  | nil => exact fun t h => Or.inl h
  | cons w ws ih =>
    intro t h
    rcases ih _ h with h | h
    · rcases mem_insertEntry h with rfl | h
      · exact Or.inr List.mem_cons_self
      · exact Or.inl h
    · exact Or.inr (List.mem_cons_of_mem _ h)

end Table

end Apg
