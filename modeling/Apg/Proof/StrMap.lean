import Apg.Spec.StrMap

/-!
# The string map is a finite map

`StrMap.OK` is the invariant of every map the interface can build: the chains are
well formed, `entry_count` counts the entries, and the table is at most three
quarters full. `strMapGet_set` reads a map after one `str_map_set`.

A run of `str_map_set` from an empty map (`strMapSets`) is read back by
`strMapSets_refines`.

The dependency graph and the candidate set use a map as the index of a list
(`Indexes`).
-/

namespace Apg

/-- The invariant of a string map. -/
structure StrMap.OK (m : StrMap) : Prop where
  chains : Chain.OK fnv1a m.buckets
  count : m.entryCount = m.buckets.flatten.length
  load : m.entryCount ≤ m.buckets.length - m.buckets.length / 4

theorem strMapInit_ok : StrMap.OK strMapInit := by
  refine ⟨Chain.ok_replicate (by omega), ?_, ?_⟩ <;> simp [strMapInit]

@[simp] theorem strMapGet_init (key : CStr) : strMapGet strMapInit key = none := by
  unfold strMapGet
  rw [Chain.find_eq_none_iff strMapInit_ok.chains]
  simp [strMapInit]

/-- Growing makes room for one entry and moves nothing a lookup can see. -/
theorem strMapGrow_spec {m : StrMap} (hm : m.OK) :
    (strMapGrow m).OK ∧ (strMapGrow m).entryCount + 1 ≤
        (strMapGrow m).buckets.length - (strMapGrow m).buckets.length / 4 ∧
      ∀ key, strMapGet (strMapGrow m) key = strMapGet m key := by
  have hpos := hm.chains.pos
  have hload := hm.load
  unfold strMapGrow
  split
  · obtain ⟨h1, h2, h3⟩ := Chain.rehash_spec hm.chains (n := m.buckets.length * 2) (by omega)
    refine ⟨⟨h1, ?_, ?_⟩, ?_, ?_⟩
    · unfold strMapRehash
      rw [hm.count]; exact h3.length_eq.symm
    · simp only [strMapRehash, h2]; omega
    · simp only [strMapRehash, h2]; omega
    · intro key
      exact Chain.find_rehash hm.chains (by omega) key
  · exact ⟨hm, by omega, fun _ => rfl⟩

theorem strMapSet_ok {m : StrMap} (hm : m.OK) (key : CStr) (value : ℕ) : (strMapSet m key value).OK := by
  unfold strMapSet
  cases hk : strMapGet m key with
  | some w =>
    refine ⟨Chain.assign_ok hm.chains key value, ?_, by simpa using hm.load⟩
    have := congrArg List.length (Chain.keys_assign (h := fnv1a) m.buckets key value)
    rw [List.length_map, List.length_map] at this
    simpa [this] using hm.count
  | none =>
    obtain ⟨hg, hroom, hget⟩ := strMapGrow_spec hm
    -- growing first does not make the key appear
    have hnew : Chain.find fnv1a (strMapGrow m).buckets key = none := (hget key).trans hk
    refine ⟨Chain.push_ok hg.chains hnew value, ?_, by simpa using hroom⟩
    have hp := (Chain.perm_push (h := fnv1a) hg.chains.pos key value).length_eq
    rw [List.length_cons, ← hg.count] at hp
    exact hp.symm

/-- **A string map is a finite map**: `str_map_set` is the update of one key. -/
theorem strMapGet_set {m : StrMap} (hm : m.OK) (key key' : CStr) (value : ℕ) :
    strMapGet (strMapSet m key value) key' = if key' = key then some value else strMapGet m key' := by
  unfold strMapSet
  cases hk : strMapGet m key with
  | some w => exact Chain.find_assign (by unfold strMapGet at hk; rw [hk]; simp) key' value
  | none =>
    obtain ⟨hg, -, hget⟩ := strMapGrow_spec hm
    rw [← hget key']
    exact Chain.find_push hg.chains.pos key key' value

/-! ## Runs -/

/-- The map after a run of `str_map_set` on an initialised one. -/
def strMapSets (sets : List (CStr × ℕ)) : StrMap := sets.foldl (fun m e => strMapSet m e.1 e.2) strMapInit

/-- The value last set under a key equal to `key`. -/
def lastSet (sets : List (CStr × ℕ)) (key : CStr) : Option ℕ :=
  (sets.reverse.find? fun e => e.1 = key).map Prod.snd

theorem strMapSets_concat (sets : List (CStr × ℕ)) (e : CStr × ℕ) :
    strMapSets (sets ++ [e]) = strMapSet (strMapSets sets) e.1 e.2 := by
  unfold strMapSets
  rw [List.foldl_concat]

theorem lastSet_concat (sets : List (CStr × ℕ)) (e : CStr × ℕ) (key : CStr) :
    lastSet (sets ++ [e]) key = if key = e.1 then some e.2 else lastSet sets key := by
  unfold lastSet
  rw [List.reverse_concat, List.find?_cons]
  by_cases hk : key = e.1
  · simp [hk]
  · simp [hk, Ne.symm hk]

theorem lastSet_eq_none (sets : List (CStr × ℕ)) (key : CStr) :
    lastSet sets key = none ↔ ∀ value, (key, value) ∉ sets := by
  unfold lastSet
  rw [Option.map_eq_none_iff, List.find?_eq_none]
  constructor
  · intro h value hmem
    exact h (key, value) (List.mem_reverse.2 hmem) (by simp)
  · rintro h ⟨key', value⟩ hmem hk
    obtain rfl : key' = key := by simpa using hk
    exact h value (List.mem_reverse.1 hmem)

/-- The table starts with 16 buckets and is only ever doubled. -/
theorem length_strMapSet {m : StrMap} (hok : m.OK) (key : CStr) (value : ℕ) (hm : 4 ∣ m.buckets.length) :
    4 ∣ (strMapSet m key value).buckets.length := by
  have hpos := hok.chains.pos
  unfold strMapSet
  cases strMapGet m key with
  | some w => simpa using hm
  | none =>
    simp only [Chain.length_push]
    unfold strMapGrow
    split
    · unfold strMapRehash
      rw [(Chain.rehash_spec hok.chains (n := m.buckets.length * 2) (by omega)).2.1]
      exact hm.mul_right 2
    · exact hm

/-- What every run keeps: the invariant, a number of buckets that has quarters,
and lookups that find the last value set. -/
theorem strMapSets_inv (sets : List (CStr × ℕ)) :
    (strMapSets sets).OK ∧ 4 ∣ (strMapSets sets).buckets.length ∧
      ∀ key, strMapGet (strMapSets sets) key = lastSet sets key := by
  induction sets using List.reverseRecOn with
  | nil => exact ⟨strMapInit_ok, ⟨4, rfl⟩, fun key => strMapGet_init key⟩
  | append_singleton sets e ih =>
    obtain ⟨hok, hquarter, hget⟩ := ih
    rw [strMapSets_concat]
    refine ⟨strMapSet_ok hok _ _, length_strMapSet hok _ _ hquarter, ?_⟩
    intro key
    rw [strMapGet_set hok, hget key, lastSet_concat]

/-- A key is stored once it was set. -/
theorem mem_keys_strMapSets (sets : List (CStr × ℕ)) (key : CStr) :
    key ∈ (strMapSets sets).buckets.flatten.map Prod.fst ↔ key ∈ sets.map Prod.fst := by
  obtain ⟨hok, -, hget⟩ := strMapSets_inv sets
  rw [← not_iff_not, ← Chain.find_eq_none_iff hok.chains]
  have hnone := hget key
  unfold strMapGet at hnone
  rw [hnone, lastSet_eq_none]
  simp

/-- **The string map is a finite map over every run**: a lookup finds the value
last set under the key and fails for a key never set; entries stand in the
bucket of their hash, each key once; and `entry_count` is the number of keys
set, at most three quarters of the buckets. -/
theorem strMapSets_refines (sets : List (CStr × ℕ)) :
    (∀ key, strMapGet (strMapSets sets) key = lastSet sets key) ∧
      (∀ key, strMapGet (strMapSets sets) key = none ↔ ∀ value, (key, value) ∉ sets) ∧
      (∀ i, ∀ e ∈ (strMapSets sets).buckets.getD i [], fnv1a e.1 % (strMapSets sets).buckets.length = i) ∧
      ((strMapSets sets).buckets.flatten.map Prod.fst).Nodup ∧
      (strMapSets sets).entryCount = (sets.map Prod.fst).toFinset.card ∧
      4 * (strMapSets sets).entryCount ≤ 3 * (strMapSets sets).buckets.length := by
  obtain ⟨hok, hquarter, hget⟩ := strMapSets_inv sets
  refine ⟨hget, ?_, hok.chains.placed, hok.chains.nodup, ?_, ?_⟩
  · intro key
    rw [hget, lastSet_eq_none]
  · -- the stored keys are the keys that were set, without repetitions
    have hkeys : ((strMapSets sets).buckets.flatten.map Prod.fst).toFinset = (sets.map Prod.fst).toFinset := by
      ext key
      rw [List.mem_toFinset, List.mem_toFinset, mem_keys_strMapSets]
    rw [hok.count, ← hkeys, List.toFinset_card_of_nodup hok.chains.nodup, List.length_map]
  · have := hok.load
    omega

/-- The map takes each key of the list to its position. -/
def Indexes (m : StrMap) (keys : List CStr) : Prop := ∀ key i, strMapGet m key = some i ↔ keys[i]? = some key

theorem indexes_init : Indexes strMapInit [] := by
  intro key i
  simp

/-- One more element stands at the end, unless it is there. -/
theorem eraseDups_concat {α : Type*} [BEq α] [LawfulBEq α] (l : List α) (x : α) [Decidable (x ∈ l)] :
    (l ++ [x]).eraseDups = if x ∈ l then l.eraseDups else l.eraseDups ++ [x] := by
  rw [List.eraseDups_append]
  by_cases h : x ∈ l
  · simp [List.removeAll, h]
  · simp [List.removeAll, h, List.eraseDups_cons]

theorem getElem?_concat_iff {α : Type*} (l : List α) (x y : α) (i : ℕ) :
    (l ++ [x])[i]? = some y ↔ l[i]? = some y ∨ i = l.length ∧ x = y := by
  rw [List.getElem?_append]
  split
  · have : i ≠ l.length := by omega
    simp [this]
  · have hl : l[i]? = none := List.getElem?_eq_none (by omega)
    simp only [hl, List.getElem?_singleton, reduceCtorEq, false_or]
    by_cases hi : i = l.length
    · simp [hi]
    · have : i - l.length ≠ 0 := by omega
      simp [hi, this]

/-- An update of one element that keeps what `f` reads keeps the list of readings. -/
theorem map_modify_eq {α β : Type*} {f : α → β} {u : α → α} (hu : ∀ x, f (u x) = f x) (l : List α) (i : ℕ) :
    (l.modify i u).map f = l.map f := by
  induction l generalizing i with
  | nil => simp
  | cons x l ih =>
    cases i with
    | zero => simp [hu]
    | succ i => simp [ih]

/-- **A new key is appended to the list and entered with its position.** -/
theorem indexes_concat {m : StrMap} (hm : m.OK) {keys : List CStr} (h : Indexes m keys) {key : CStr}
    (hk : strMapGet m key = none) : Indexes (strMapSet m key keys.length) (keys ++ [key]) := by
  intro key' i
  rw [strMapGet_set hm, getElem?_concat_iff]
  by_cases hkk : key' = key
  · subst hkk
    have hi : keys[i]? ≠ some key' := by
      intro hi
      rw [← h, hk] at hi
      exact absurd hi (by simp)
    simp [hi, eq_comm]
  · rw [if_neg hkk, h key' i]
    simp [Ne.symm hkk]

end Apg
