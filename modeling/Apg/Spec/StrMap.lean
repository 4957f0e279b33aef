import Apg.Lib.Chain
import Apg.Spec.CStr

/-!
# The string map

`hashmap.c`: a chained hash table from strings to `size_t`, the index behind the
dependency graph and the candidate set.
-/

namespace Apg

/-- `struct str_map`; `bucket_count` is the length of `buckets`. -/
structure StrMap where
  buckets : List (List (CStr × ℕ))
  entryCount : ℕ

def fnv1a (s : CStr) : ℕ :=
  s.foldl (fun h c => ((h ^^^ c.val) * 1099511628211) % 2 ^ 64) 14695981039346656037

def strMapInit : StrMap := ⟨List.replicate 16 [], 0⟩

def strMapGet (m : StrMap) (key : CStr) : Option ℕ := Chain.find fnv1a m.buckets key

def strMapRehash (m : StrMap) (newBucketCount : ℕ) : StrMap :=
  { m with buckets := Chain.rehash fnv1a m.buckets newBucketCount }

/-- The table a new entry goes to: doubled when it is three quarters full. -/
def strMapGrow (m : StrMap) : StrMap :=
  if m.entryCount + 1 > m.buckets.length - m.buckets.length / 4 then strMapRehash m (m.buckets.length * 2)
  else m

def strMapSet (m : StrMap) (key : CStr) (value : ℕ) : StrMap :=
  match strMapGet m key with
  | some _ => { m with buckets := Chain.assign fnv1a m.buckets key value }
  | none =>
    -- a new entry goes in front of its chain
    { buckets := Chain.push fnv1a (strMapGrow m).buckets key value
      entryCount := (strMapGrow m).entryCount + 1 }

end Apg
