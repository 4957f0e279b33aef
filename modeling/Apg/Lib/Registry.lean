import Mathlib

/-!
# Lists with owners, changed and changed back

Every name has a list of things, and a thing belongs to the name it was last given to.
A change writes the list of a name. There are two ways to take it back: to write the
list from before, which is left out if that was empty, or to take the name's list away.
Some changes are made one after the other, and then all of them are taken back, the
last one first (`undone`).

* `undone_lists_iff`: **when the list of a name is the same again.**
* `undone_owner_iff`: **when the owner of a thing is the same again**, given that the
  lists are.
-/

namespace Apg

/-- The lists of the names, and the owners of the things. -/
structure Registry (ν π : Type*) where
  lists : ν → List π
  owner : π → Option ν

/-- A change of the list of a name, if anything is `written`: the list that is kept,
and the things that are given to the name. It `restores` if it is taken back by
writing the list from before. -/
structure Change (ν π : Type*) where
  name : ν
  restores : Bool
  written : Option (List π × List π)

variable {ν π : Type*}

def Change.kept (c : Change ν π) : List π := (c.written.map Prod.fst).getD []

def Change.given (c : Change ν π) : List π := (c.written.map Prod.snd).getD []

/-- What the change gives to its name is on the list it keeps, if lists can keep it as
`K` says, and no others are. -/
structure Change.Backed (K : π → Prop) (c : Change ν π) : Prop where
  given : ∀ x ∈ c.given, K x → x ∈ c.kept
  kept : ∀ x ∈ c.kept, K x

namespace Registry

variable [DecidableEq ν] [DecidableEq π]

/-- The name loses the things of its list, and gets what it is given, whoever had it. -/
def put (r : Registry ν π) (n : ν) (kept given : List π) : Registry ν π where
  lists := Function.update r.lists n kept
  owner x := if x ∈ given then some n else if x ∈ r.lists n ∧ r.owner x = some n then none else r.owner x

def apply (r : Registry ν π) (c : Change ν π) : Registry ν π :=
  match c.written with
  | none => r
  | some w => r.put c.name w.1 w.2

/-- A change is taken back; `before` is the list it was made on. -/
def takeBack (r : Registry ν π) (c : Change ν π) (before : List π) : Registry ν π :=
  if c.restores then (if before = [] then r else r.put c.name before before) else r.put c.name [] []

/-- **All changes are made, and then taken back**, the last one first. -/
def undone (r : Registry ν π) : List (Change ν π) → Registry ν π
  | [] => r
  | c :: cs => (undone (r.apply c) cs).takeBack c (r.lists c.name)

/-- The name of the first change that goes back to a list with the thing. -/
def backTo (r : Registry ν π) : List (Change ν π) → π → Option ν
  | [], _ => none
  | c :: cs, x => if c.restores ∧ x ∈ r.lists c.name then some c.name else backTo (r.apply c) cs x

/-- The name the thing is last given to. -/
def lastGiven : List (Change ν π) → π → Option ν
  | [], _ => none
  | c :: cs, x => (lastGiven cs x).or (if x ∈ c.given then some c.name else none)

/-- What is asked of the changes of a name: the first one does not restore, and finds
an empty list; or it restores, and if it finds an empty list then the list stays
empty. -/
def ListKept (r : Registry ν π) (cs : List (Change ν π)) (n : ν) : Prop :=
  ∀ c, cs.find? (fun c => c.name = n) = some c →
    if c.restores then r.lists n = [] → ∀ c' ∈ cs, c'.name = n → c'.kept = [] else r.lists n = []

/-- What is asked of the changes about a thing: the first one that goes back to a list
with it is one of its owner, or of a name that has it only since; and if none does, a
thing that is given away had no owner. A thing that no list keeps, as `K` says, stays
with the name it is last given to. -/
structure OwnerKept (K : π → Prop) [DecidablePred K] (r : Registry ν π) (cs : List (Change ν π)) (x : π) : Prop where
  back : ∀ n, r.backTo cs x = some n → r.owner x = if x ∈ r.lists n then some n else none
  given : r.backTo cs x = none → ∀ n, lastGiven cs x = some n → r.owner x = if K x then none else some n

/-! ## Lists -/

section

variable {r : Registry ν π} {c : Change ν π} {cs : List (Change ν π)} {n : ν} {x : π}

theorem put_lists_ne {kept given : List π} {m : ν} (h : m ≠ n) : (r.put n kept given).lists m = r.lists m :=
  Function.update_of_ne h _ _

theorem put_lists_self (kept given : List π) : (r.put n kept given).lists n = kept := Function.update_self _ _ _

/-- A name without a list has nothing to lose. -/
theorem put_nil (h : r.lists n = []) : r.put n [] [] = r := by
  have hlists : Function.update r.lists n [] = r.lists := by
    rw [← h]
    exact Function.update_eq_self n r.lists
  unfold put
  rw [hlists]
  simp only [h, List.not_mem_nil, false_and, if_false]

theorem apply_lists_ne (h : c.name ≠ n) : (r.apply c).lists n = r.lists n := by
  unfold apply
  cases c.written with
  | none => rfl
  | some w => exact put_lists_ne (Ne.symm h)

/-- A change of an empty list leaves the list it keeps. -/
theorem apply_lists_nil (h : r.lists c.name = []) : (r.apply c).lists c.name = c.kept := by
  unfold apply Change.kept
  cases c.written with
  | none => exact h
  | some w => exact put_lists_self _ _

theorem takeBack_lists_ne {before : List π} (h : c.name ≠ n) : (r.takeBack c before).lists n = r.lists n := by
  unfold takeBack
  split_ifs
  · rfl
  · exact put_lists_ne (Ne.symm h)
  · exact put_lists_ne (Ne.symm h)

/-- A list that is not empty comes back if its changes restore. -/
theorem undone_lists_full : ∀ {cs : List (Change ν π)} {r : Registry ν π},
    (∀ c ∈ cs, c.name = n → c.restores = true) → r.lists n ≠ [] → (r.undone cs).lists n = r.lists n := by
  intro cs
  induction cs with
  | nil => intro r _ _; rfl
  | cons c cs ih =>
    intro r hall hfull
    rw [undone]
    by_cases hn : c.name = n
    · subst hn
      have hres := hall c List.mem_cons_self rfl
      unfold takeBack
      rw [if_pos hres, if_neg hfull]
      exact put_lists_self _ _
    · have hsame : (r.apply c).lists n = r.lists n := apply_lists_ne hn
      rw [takeBack_lists_ne hn, ih (fun c hc => hall c (List.mem_cons_of_mem _ hc)) (hsame ▸ hfull), hsame]

/-- An empty list is empty again only if nothing was kept in it. -/
theorem undone_lists_empty : ∀ {cs : List (Change ν π)} {r : Registry ν π},
    (∀ c ∈ cs, c.name = n → c.restores = true) → r.lists n = [] →
    ((r.undone cs).lists n = [] ↔ ∀ c ∈ cs, c.name = n → c.kept = []) := by
  intro cs
  induction cs with
  | nil => intro r _ hempty; simpa [undone] using hempty
  | cons c cs ih =>
    intro r hall hempty
    have hrest : ∀ c ∈ cs, c.name = n → c.restores = true := fun c hc => hall c (List.mem_cons_of_mem _ hc)
    rw [undone, List.forall_mem_cons]
    by_cases hn : c.name = n
    · subst hn
      -- nothing is written back, so what the changes behind it leave is left
      have hres := hall c List.mem_cons_self rfl
      have hback : ∀ r' : Registry ν π, r'.takeBack c (r.lists c.name) = r' := by
        intro r'
        unfold takeBack
        rw [if_pos hres, if_pos hempty]
      have hkept := apply_lists_nil hempty
      rw [hback]
      by_cases hnil : c.kept = []
      · rw [ih hrest (hkept.trans hnil)]
        exact ⟨fun h => ⟨fun _ => hnil, h⟩, fun h => h.2⟩
      · rw [undone_lists_full hrest (hkept ▸ hnil), hkept]
        exact ⟨fun h => absurd h hnil, fun h => h.1 rfl⟩
    · rw [takeBack_lists_ne hn, ih hrest ((apply_lists_ne hn).trans hempty)]
      exact ⟨fun h => ⟨fun heq => absurd heq hn, h⟩, fun h => h.2⟩

/-- A name whose first change does not restore ends up with nothing. -/
theorem undone_lists_dropped : ∀ {cs : List (Change ν π)} {r : Registry ν π} {c : Change ν π},
    cs.find? (fun c => c.name = n) = some c → c.restores = false → (r.undone cs).lists n = [] := by
  intro cs
  induction cs with
  | nil => intro r c h _; exact absurd h (by simp)
  | cons c cs ih =>
    intro r c₀ h hdrop
    rw [undone]
    by_cases hn : c.name = n
    · rw [List.find?_cons_of_pos (by simpa using hn), Option.some.injEq] at h
      subst h hn
      unfold takeBack
      rw [if_neg (by simp [hdrop])]
      exact put_lists_self _ _
    · rw [List.find?_cons_of_neg (by simpa using hn)] at h
      rw [takeBack_lists_ne hn]
      exact ih h hdrop

theorem undone_lists_ne : ∀ {cs : List (Change ν π)} {r : Registry ν π},
    (∀ c ∈ cs, c.name ≠ n) → (r.undone cs).lists n = r.lists n := by
  intro cs
  induction cs with
  | nil => intro r _; rfl
  | cons c cs ih =>
    intro r h
    have hn := h c List.mem_cons_self
    rw [undone, takeBack_lists_ne hn, ih fun c hc => h c (List.mem_cons_of_mem _ hc), apply_lists_ne hn]

omit [DecidableEq π] in
/-- If the first change of a name restores, then so do the others. -/
theorem restores_of_first (hmono : cs.Pairwise fun a b => a.name = b.name → a.restores = true → b.restores = true)
    (hfirst : cs.find? (fun c => c.name = n) = some c) (hres : c.restores = true) :
    ∀ b ∈ cs, b.name = n → b.restores = true := by
  obtain ⟨hname, as, bs, rfl, hbefore⟩ := List.find?_eq_some_iff_append.1 hfirst
  have hcn : c.name = n := by simpa using hname
  intro b hb hbn
  rcases List.mem_append.1 hb with hb | hb
  · have hne := hbefore b hb
    simp [hbn] at hne
  rcases List.mem_cons.1 hb with rfl | hb
  · exact hres
  · have hpair := (List.pairwise_cons.1 (List.pairwise_append.1 hmono).2.1).1 b hb
    exact hpair (hcn.trans hbn.symm) hres

/-- **When the list of a name is the same again.** -/
theorem undone_lists_iff (hmono : cs.Pairwise fun a b => a.name = b.name → a.restores = true → b.restores = true) :
    (r.undone cs).lists n = r.lists n ↔ r.ListKept cs n := by
  unfold ListKept
  cases hfirst : cs.find? fun c => c.name = n with
  | none =>
    have hne : ∀ c ∈ cs, c.name ≠ n := fun c hc hn => List.find?_eq_none.1 hfirst c hc (by simpa using hn)
    simp [undone_lists_ne hne]
  | some c =>
    simp only [Option.some.injEq, forall_eq']
    by_cases hres : c.restores = true
    · have hall := restores_of_first hmono hfirst hres
      rw [if_pos hres]
      by_cases hempty : r.lists n = []
      · rw [hempty, undone_lists_empty hall hempty]
        simp
      · rw [undone_lists_full hall hempty]
        simp [hempty]
    · rw [if_neg hres, undone_lists_dropped hfirst (by simpa using hres)]
      exact eq_comm

/-! ## Owners -/

/-- A thing that lists can keep is on the list of its owner, and no others are. -/
structure Backed (K : π → Prop) (r : Registry ν π) : Prop where
  owner : ∀ x n, K x → r.owner x = some n → x ∈ r.lists n
  lists : ∀ n, ∀ x ∈ r.lists n, K x

variable {K : π → Prop}

theorem put_backed {kept given : List π} (h : Backed K r) (hgiven : ∀ x ∈ given, K x → x ∈ kept)
    (hkept : ∀ x ∈ kept, K x) : Backed K (r.put n kept given) := by
  refine ⟨fun x m hx hm => ?_, fun m x hx => ?_⟩
  · simp only [put] at hm
    split_ifs at hm with hin hown
    · obtain rfl := Option.some.inj hm
      rw [put_lists_self]
      exact hgiven x hin hx
    · have hmem := h.owner x m hx hm
      -- what the name itself had it would have lost
      have hne : m ≠ n := by
        rintro rfl
        exact hown ⟨hmem, hm⟩
      rw [put_lists_ne hne]
      exact hmem
  · by_cases hm : m = n
    · subst hm
      rw [put_lists_self] at hx
      exact hkept x hx
    · rw [put_lists_ne hm] at hx
      exact h.lists m x hx

theorem apply_backed (h : Backed K r) (hc : c.Backed K) : Backed K (r.apply c) := by
  unfold apply
  cases hw : c.written with
  | none => exact h
  | some w =>
    have hgiven := hc.given
    have hkept := hc.kept
    unfold Change.given Change.kept at hgiven
    unfold Change.kept at hkept
    rw [hw] at hgiven hkept
    exact put_backed h hgiven hkept

theorem takeBack_backed {before : List π} (h : Backed K r) (hbefore : ∀ x ∈ before, K x) :
    Backed K (r.takeBack c before) := by
  unfold takeBack
  split_ifs
  · exact h
  · exact put_backed h (fun x hx _ => hx) hbefore
  · exact put_backed h (by simp) (by simp)

theorem undone_backed : ∀ {cs : List (Change ν π)} {r : Registry ν π}, Backed K r → (∀ c ∈ cs, c.Backed K) →
    Backed K (r.undone cs) := by
  intro cs
  induction cs with
  | nil => intro r h _; exact h
  | cons c cs ih =>
    intro r h hcs
    have hinner := ih (apply_backed h (hcs c List.mem_cons_self)) fun c hc => hcs c (List.mem_cons_of_mem _ hc)
    exact takeBack_backed hinner (h.lists c.name)

/-- A thing that is not given to the name keeps its owner, or the name loses it. -/
theorem put_owner {kept given : List π} (h : x ∉ given) :
    (r.put n kept given).owner x = r.owner x ∨ (r.put n kept given).owner x = none ∧ r.owner x = some n := by
  simp only [put]
  rw [if_neg h]
  split_ifs with hown
  · exact Or.inr ⟨rfl, hown.2⟩
  · exact Or.inl rfl

/-- The name does lose what it is not given again. -/
theorem put_takes {kept given : List π} (hr : Backed K r) (hx : K x) (h : x ∉ given)
    (howner : r.owner x = some n ∨ r.owner x = none) : (r.put n kept given).owner x = none := by
  simp only [put]
  rw [if_neg h]
  split_ifs with hown
  · rfl
  · rcases howner with howner | howner
    · exact absurd ⟨hr.owner x n hx howner, howner⟩ hown
    · exact howner

theorem apply_owner (h : x ∉ c.given) :
    (r.apply c).owner x = r.owner x ∨ (r.apply c).owner x = none ∧ r.owner x = some c.name := by
  unfold apply
  unfold Change.given at h
  cases hw : c.written with
  | none => exact Or.inl rfl
  | some w =>
    rw [hw] at h
    exact put_owner h

theorem apply_owner_given (h : x ∈ c.given) : (r.apply c).owner x = some c.name := by
  unfold apply
  unfold Change.given at h
  cases hw : c.written with
  | none => rw [hw] at h; exact absurd h (by simp)
  | some w =>
    rw [hw] at h
    exact if_pos h

theorem takeBack_owner {before : List π} (h : ¬(c.restores = true ∧ x ∈ before)) :
    (r.takeBack c before).owner x = r.owner x ∨
      (r.takeBack c before).owner x = none ∧ r.owner x = some c.name := by
  unfold takeBack
  split_ifs with hres hbefore
  · exact Or.inl rfl
  · have hout : x ∉ before := fun hin => h ⟨hres, hin⟩
    exact put_owner hout
  · exact put_owner (by simp)

/-- A change that is really taken back takes from the name what it had not before. -/
theorem takeBack_takes {before : List π} (hr : Backed K r) (hx : K x) (h : ¬(c.restores = true ∧ x ∈ before))
    (hreal : c.restores = true → before ≠ []) (howner : r.owner x = some c.name ∨ r.owner x = none) :
    (r.takeBack c before).owner x = none := by
  unfold takeBack
  split_ifs with hres hbefore
  · exact absurd hbefore (hreal hres)
  · have hout : x ∉ before := fun hin => h ⟨hres, hin⟩
    exact put_takes hr hx hout howner
  · exact put_takes hr hx (by simp) howner

/-- The first change does not go back to a list with the thing, or it is the one. -/
theorem backTo_cons (h : ¬(c.restores = true ∧ x ∈ r.lists c.name)) :
    r.backTo (c :: cs) x = (r.apply c).backTo cs x := by
  rw [backTo, if_neg h]

theorem not_back_of_none (h : r.backTo (c :: cs) x = none) : ¬(c.restores = true ∧ x ∈ r.lists c.name) := by
  intro hback
  rw [backTo, if_pos hback] at h
  exact absurd h (by simp)

theorem takeBack_owner_back (h : c.restores = true ∧ x ∈ r.lists c.name) (r' : Registry ν π) :
    (r'.takeBack c (r.lists c.name)).owner x = some c.name := by
  have hne : r.lists c.name ≠ [] := List.ne_nil_of_mem h.2
  unfold takeBack
  rw [if_pos h.1, if_neg hne]
  simp only [put]
  rw [if_pos h.2]

/-- A thing that some change gives back belongs to the name of the first such change,
or to nobody. -/
theorem undone_owner_back : ∀ {cs : List (Change ν π)} {r : Registry ν π}, r.backTo cs x = some n →
    (r.undone cs).owner x = some n ∨ (r.undone cs).owner x = none := by
  intro cs
  induction cs with
  | nil => intro r h; exact absurd h (by simp [backTo])
  | cons c cs ih =>
    intro r h
    rw [undone]
    by_cases hback : c.restores = true ∧ x ∈ r.lists c.name
    · rw [backTo, if_pos hback] at h
      rw [takeBack_owner_back hback, h]
      exact Or.inl rfl
    · rw [backTo_cons hback] at h
      rcases takeBack_owner hback with hsame | ⟨hnone, -⟩
      · rw [hsame]
        exact ih h
      · exact Or.inr hnone

/-- It belongs to the name if the list had it all along. -/
theorem undone_owner_had : ∀ {cs : List (Change ν π)} {r : Registry ν π}, r.backTo cs x = some n →
    x ∈ r.lists n → (∀ c, cs.find? (fun c => c.name = n) = some c → c.restores = true) →
    (r.undone cs).owner x = some n := by
  intro cs
  induction cs with
  | nil => intro r h; exact absurd h (by simp [backTo])
  | cons c cs ih =>
    intro r h hx hfirst
    rw [undone]
    by_cases hback : c.restores = true ∧ x ∈ r.lists c.name
    · rw [backTo, if_pos hback] at h
      rw [takeBack_owner_back hback, h]
    · have hn : c.name ≠ n := by
        rintro rfl
        exact hback ⟨hfirst c (by simp), hx⟩
      rw [backTo_cons hback] at h
      have hinner := ih h ((apply_lists_ne hn).symm ▸ hx) fun c₀ hc₀ => hfirst c₀ (by simpa [hn] using hc₀)
      rcases takeBack_owner (r := (r.apply c).undone cs) hback with hsame | ⟨-, hother⟩
      · rw [hsame, hinner]
      · rw [hinner, Option.some.injEq] at hother
        exact absurd hother.symm hn

theorem listKept_tail (hn : c.name ≠ n) (h : r.ListKept (c :: cs) n) : (r.apply c).ListKept cs n := by
  intro c₀ hc₀
  have hfirst := h c₀ (by simpa [hn] using hc₀)
  rw [apply_lists_ne hn]
  split_ifs at hfirst ⊢
  · intro hempty c' hc'
    exact hfirst hempty c' (List.mem_cons_of_mem _ hc')
  · exact hfirst

/-- No change goes back to a list that was always empty. -/
theorem backTo_ne_of_empty : ∀ {cs : List (Change ν π)} {r : Registry ν π}, r.lists n = [] →
    (∀ c ∈ cs, c.name = n → c.kept = []) → r.backTo cs x ≠ some n := by
  intro cs
  induction cs with
  | nil => intro r _ _; simp [backTo]
  | cons c cs ih =>
    intro r hempty hkept
    have hnext : (r.apply c).lists n = [] := by
      by_cases hn : c.name = n
      · subst hn
        rw [apply_lists_nil hempty]
        exact hkept c List.mem_cons_self rfl
      · rw [apply_lists_ne hn]
        exact hempty
    rw [backTo]
    split_ifs with hback
    · intro heq
      rw [Option.some.injEq] at heq
      rw [heq, hempty] at hback
      exact absurd hback.2 (by simp)
    · exact ih hnext fun c hc => hkept c (List.mem_cons_of_mem _ hc)

omit [DecidableEq π] in
/-- What the first change of a name asks for, seen from that change: either it is
really taken back, or the list stays empty. -/
theorem listKept_head (h : r.ListKept (c :: cs) c.name) :
    (c.restores = true → r.lists c.name ≠ []) ∨
      r.lists c.name = [] ∧ ∀ c' ∈ c :: cs, c'.name = c.name → c'.kept = [] := by
  have hfirst := h c (by simp)
  by_cases hres : c.restores = true
  · rw [if_pos hres] at hfirst
    by_cases hempty : r.lists c.name = []
    · exact Or.inr ⟨hempty, hfirst hempty⟩
    · exact Or.inl fun _ => hempty
  · exact Or.inl fun hf => absurd hf hres

/-- It belongs to nobody if the list has it only since. -/
theorem undone_owner_since (hx : K x) : ∀ {cs : List (Change ν π)} {r : Registry ν π}, Backed K r →
    (∀ c ∈ cs, c.Backed K) → r.ListKept cs n → r.backTo cs x = some n → x ∉ r.lists n →
    (r.undone cs).owner x = none := by
  intro cs
  induction cs with
  | nil => intro r _ _ _ h; exact absurd h (by simp [backTo])
  | cons c cs ih =>
    intro r hr hcs hkept h hnot
    have hrest : ∀ c ∈ cs, c.Backed K := fun c hc => hcs c (List.mem_cons_of_mem _ hc)
    have hnext := apply_backed hr (hcs c List.mem_cons_self)
    have hback : ¬(c.restores = true ∧ x ∈ r.lists c.name) := by
      intro hback
      rw [backTo, if_pos hback, Option.some.injEq] at h
      exact hnot (h ▸ hback.2)
    rw [backTo_cons hback] at h
    rw [undone]
    by_cases hn : c.name = n
    · subst hn
      rcases listKept_head hkept with hreal | ⟨hempty, hkept'⟩
      · exact takeBack_takes (undone_backed hnext hrest) hx hback hreal (undone_owner_back h)
      · have hnil : (r.apply c).lists c.name = [] :=
          (apply_lists_nil hempty).trans (hkept' c List.mem_cons_self rfl)
        exact absurd h (backTo_ne_of_empty hnil fun c' hc' => hkept' c' (List.mem_cons_of_mem _ hc'))
    · have hinner := ih hnext hrest (listKept_tail hn hkept) h ((apply_lists_ne hn).symm ▸ hnot)
      rcases takeBack_owner (r := (r.apply c).undone cs) hback with hsame | ⟨hnone, -⟩
      · rw [hsame, hinner]
      · exact hnone

omit [DecidableEq ν] in
theorem lastGiven_cons_none : lastGiven (c :: cs) x = none ↔ lastGiven cs x = none ∧ x ∉ c.given := by
  rw [lastGiven, Option.or_eq_none_iff]
  simp

omit [DecidableEq ν] in
theorem lastGiven_cons_some (h : lastGiven (c :: cs) x = some n) :
    lastGiven cs x = some n ∨ lastGiven cs x = none ∧ x ∈ c.given ∧ c.name = n := by
  rw [lastGiven] at h
  rcases Option.or_eq_some_iff.1 h with h | ⟨hlater, h⟩
  · exact Or.inl h
  · split_ifs at h with hin
    exact Or.inr ⟨hlater, hin, Option.some.inj h⟩

/-- A thing that nobody is given keeps its owner, if no change is about that one. -/
theorem undone_owner_same : ∀ {cs : List (Change ν π)} {r : Registry ν π}, r.backTo cs x = none →
    lastGiven cs x = none → (∀ m, r.owner x = some m → ∀ c ∈ cs, c.name ≠ m) →
    (r.undone cs).owner x = r.owner x := by
  intro cs
  induction cs with
  | nil => intro r _ _ _; rfl
  | cons c cs ih =>
    intro r hnone hgiven hother
    obtain ⟨hgiven', hnot⟩ := lastGiven_cons_none.1 hgiven
    have hback := not_back_of_none hnone
    rw [backTo_cons hback] at hnone
    -- the name of the change is not the owner, neither now nor later
    have hkeeps : ∀ o, o = r.owner x ∨ o = none ∧ r.owner x = some c.name → o = r.owner x := by
      rintro o (ho | ⟨-, ho⟩)
      · exact ho
      · exact absurd rfl (hother _ ho c List.mem_cons_self)
    have hnow := hkeeps _ (apply_owner hnot)
    have hinner := ih hnone hgiven' fun m hm c hc => hother m (hnow ▸ hm) c (List.mem_cons_of_mem _ hc)
    have hafter := takeBack_owner (r := (r.apply c).undone cs) hback
    rw [hinner, hnow] at hafter
    rw [undone]
    exact hkeeps _ hafter

/-- A thing that is given away belongs to the last one it is given to, or to nobody. -/
theorem undone_owner_given : ∀ {cs : List (Change ν π)} {r : Registry ν π}, r.backTo cs x = none →
    lastGiven cs x = some n ∨ lastGiven cs x = none ∧ (r.owner x = some n ∨ r.owner x = none) →
    (r.undone cs).owner x = some n ∨ (r.undone cs).owner x = none := by
  intro cs
  induction cs with
  | nil =>
    intro r _ h
    rcases h with h | ⟨-, h⟩
    · exact absurd h (by simp [lastGiven])
    · exact h
  | cons c cs ih =>
    intro r hnone h
    have hback := not_back_of_none hnone
    rw [backTo_cons hback] at hnone
    have hnext : lastGiven cs x = some n ∨
        lastGiven cs x = none ∧ ((r.apply c).owner x = some n ∨ (r.apply c).owner x = none) := by
      rcases h with h | ⟨h, howner⟩
      · rcases lastGiven_cons_some h with h | ⟨hlater, hin, hname⟩
        · exact Or.inl h
        · rw [apply_owner_given hin, hname]
          exact Or.inr ⟨hlater, Or.inl rfl⟩
      · obtain ⟨hlater, hnot⟩ := lastGiven_cons_none.1 h
        refine Or.inr ⟨hlater, ?_⟩
        rcases apply_owner (r := r) hnot with hsame | ⟨hlost, -⟩
        · rw [hsame]; exact howner
        · exact Or.inr hlost
    rw [undone]
    rcases takeBack_owner (r := (r.apply c).undone cs) hback with hsame | ⟨hlost, -⟩
    · rw [hsame]
      exact ih hnone hnext
    · exact Or.inr hlost

omit [DecidableEq ν] in
theorem mem_given_of_last : ∀ {cs : List (Change ν π)}, lastGiven cs x = some n →
    ∃ c ∈ cs, c.name = n ∧ x ∈ c.given := by
  intro cs
  induction cs with
  | nil => intro h; exact absurd h (by simp [lastGiven])
  | cons c cs ih =>
    intro h
    rcases lastGiven_cons_some h with h | ⟨-, hin, hname⟩
    · obtain ⟨c', hc', hname, hin⟩ := ih h
      exact ⟨c', List.mem_cons_of_mem _ hc', hname, hin⟩
    · exact ⟨c, List.mem_cons_self, hname, hin⟩

/-- In the end it belongs to nobody. -/
theorem undone_owner_lost (hx : K x) : ∀ {cs : List (Change ν π)} {r : Registry ν π}, Backed K r →
    (∀ c ∈ cs, c.Backed K) → r.ListKept cs n → r.backTo cs x = none → lastGiven cs x = some n →
    (r.undone cs).owner x = none := by
  intro cs
  induction cs with
  | nil => intro r _ _ _ _ h; exact absurd h (by simp [lastGiven])
  | cons c cs ih =>
    intro r hr hcs hkept hnone h
    have hrest : ∀ c ∈ cs, c.Backed K := fun c hc => hcs c (List.mem_cons_of_mem _ hc)
    have hnext := apply_backed hr (hcs c List.mem_cons_self)
    have hback := not_back_of_none hnone
    rw [backTo_cons hback] at hnone
    by_cases hn : c.name = n
    · subst hn
      rcases listKept_head hkept with hreal | ⟨hempty, hkept'⟩
      · have hinner : ((r.apply c).undone cs).owner x = some c.name ∨ ((r.apply c).undone cs).owner x = none := by
          apply undone_owner_given hnone
          rcases lastGiven_cons_some h with h | ⟨hlater, hin, -⟩
          · exact Or.inl h
          · exact Or.inr ⟨hlater, Or.inl (apply_owner_given hin)⟩
        rw [undone]
        exact takeBack_takes (undone_backed hnext hrest) hx hback hreal hinner
      · -- the list that the thing is on is not empty
        obtain ⟨c', hc', hname, hin⟩ := mem_given_of_last h
        have hmem := (hcs c' hc').given x hin hx
        rw [hkept' c' hc' hname] at hmem
        exact absurd hmem (by simp)
    · have hlater : lastGiven cs x = some n := by
        rcases lastGiven_cons_some h with h | ⟨-, -, hname⟩
        · exact h
        · exact absurd hname hn
      have hinner := ih hnext hrest (listKept_tail hn hkept) hnone hlater
      rw [undone]
      rcases takeBack_owner (r := (r.apply c).undone cs) hback with hsame | ⟨hlost, -⟩
      · rw [hsame, hinner]
      · exact hlost

/-- No change goes back to a list with a thing that lists cannot keep. -/
theorem backTo_unkept (hx : ¬K x) : ∀ {cs : List (Change ν π)} {r : Registry ν π}, Backed K r →
    (∀ c ∈ cs, c.Backed K) → r.backTo cs x = none := by
  intro cs
  induction cs with
  | nil => intro r _ _; rfl
  | cons c cs ih =>
    intro r hr hcs
    have hback : ¬(c.restores = true ∧ x ∈ r.lists c.name) := fun h => hx (hr.lists _ x h.2)
    rw [backTo_cons hback]
    exact ih (apply_backed hr (hcs c List.mem_cons_self)) fun c hc => hcs c (List.mem_cons_of_mem _ hc)

/-- Such a thing stays with the one it was last given to. -/
theorem undone_owner_unkept (hx : ¬K x) : ∀ {cs : List (Change ν π)} {r : Registry ν π}, Backed K r →
    (∀ c ∈ cs, c.Backed K) → (r.undone cs).owner x = (lastGiven cs x).or (r.owner x) := by
  intro cs
  induction cs with
  | nil => intro r _ _; rfl
  | cons c cs ih =>
    intro r hr hcs
    have hrest : ∀ c ∈ cs, c.Backed K := fun c hc => hcs c (List.mem_cons_of_mem _ hc)
    have hnext := apply_backed hr (hcs c List.mem_cons_self)
    -- no list has it, so it is taken from nobody
    have hput : ∀ (r' : Registry ν π) (kept given : List π), Backed K r' → x ∉ given →
        (r'.put c.name kept given).owner x = r'.owner x := by
      intro r' kept given hr' hnot
      have hout : ¬(x ∈ r'.lists c.name ∧ r'.owner x = some c.name) := fun h => hx (hr'.lists _ x h.1)
      simp only [put]
      rw [if_neg hnot, if_neg hout]
    have hback : ∀ r' : Registry ν π, Backed K r' → (r'.takeBack c (r.lists c.name)).owner x = r'.owner x := by
      intro r' hr'
      unfold takeBack
      split_ifs
      · rfl
      · exact hput r' _ _ hr' fun hin => hx (hr.lists _ x hin)
      · exact hput r' _ _ hr' (by simp)
    rw [undone, hback _ (undone_backed hnext hrest), ih hnext hrest, lastGiven, Option.or_assoc]
    congr 1
    by_cases hin : x ∈ c.given
    · rw [apply_owner_given hin, if_pos hin]
      rfl
    · rw [if_neg hin, Option.none_or]
      unfold apply
      unfold Change.given at hin
      cases hw : c.written with
      | none => rfl
      | some w =>
        rw [hw] at hin
        exact hput r _ _ hr hin

/-- No change is about the owner of a thing that none goes back to. -/
theorem not_about_owner : ∀ {cs : List (Change ν π)} {r : Registry ν π}, r.ListKept cs n → x ∈ r.lists n →
    r.backTo cs x = none → ∀ c ∈ cs, c.name ≠ n := by
  intro cs
  induction cs with
  | nil => intro r _ _ _ c hc; exact absurd hc (by simp)
  | cons c cs ih =>
    intro r hkept hin hnone
    have hback := not_back_of_none hnone
    have hn : c.name ≠ n := by
      rintro rfl
      have hfirst := hkept c (by simp)
      split_ifs at hfirst with hres
      · exact hback ⟨hres, hin⟩
      · rw [hfirst] at hin
        exact absurd hin (by simp)
    rw [backTo_cons hback] at hnone
    have hrest := ih (listKept_tail hn hkept) ((apply_lists_ne hn).symm ▸ hin) hnone
    exact List.forall_mem_cons.2 ⟨hn, hrest⟩

theorem ownerKept_of_back [DecidablePred K] (h : r.backTo cs x = some n) :
    r.OwnerKept K cs x ↔ r.owner x = if x ∈ r.lists n then some n else none := by
  refine ⟨fun hkept => hkept.back n h, fun howner => ⟨fun m hm => ?_, fun hnone => ?_⟩⟩
  · rw [h, Option.some.injEq] at hm
    rw [← hm, howner]
  · rw [h] at hnone
    exact absurd hnone (by simp)

theorem ownerKept_of_given [DecidablePred K] (h : r.backTo cs x = none) (hgiven : lastGiven cs x = some n) :
    r.OwnerKept K cs x ↔ r.owner x = if K x then none else some n := by
  refine ⟨fun hkept => hkept.given h n hgiven, fun howner => ⟨fun m hm => ?_, fun _ m hm => ?_⟩⟩
  · rw [h] at hm
    exact absurd hm (by simp)
  · rw [hgiven, Option.some.injEq] at hm
    rw [← hm, howner]

theorem ownerKept_of_none [DecidablePred K] (h : r.backTo cs x = none) (hgiven : lastGiven cs x = none) :
    r.OwnerKept K cs x := by
  refine ⟨fun m hm => ?_, fun _ m hm => ?_⟩
  · rw [h] at hm
    exact absurd hm (by simp)
  · rw [hgiven] at hm
    exact absurd hm (by simp)

/-- **When the owner of a thing is the same again.** -/
theorem undone_owner_iff [DecidablePred K] (hr : Backed K r) (hcs : ∀ c ∈ cs, c.Backed K)
    (hkept : ∀ n, r.ListKept cs n) : (r.undone cs).owner x = r.owner x ↔ r.OwnerKept K cs x := by
  by_cases hx : K x
  · cases hback : r.backTo cs x with
    | some n =>
      have howner : (r.undone cs).owner x = if x ∈ r.lists n then some n else none := by
        split_ifs with hin
        · apply undone_owner_had hback hin
          intro c hc
          have hfirst := hkept n c hc
          split_ifs at hfirst with hres
          · exact hres
          · rw [hfirst] at hin
            exact absurd hin (by simp)
        · exact undone_owner_since hx hr hcs (hkept n) hback hin
      rw [howner, ownerKept_of_back hback]
      exact eq_comm
    | none =>
      cases hgiven : lastGiven cs x with
      | some n =>
        rw [undone_owner_lost hx hr hcs (hkept n) hback hgiven, ownerKept_of_given hback hgiven, if_pos hx]
        exact eq_comm
      | none =>
        have hother : ∀ m, r.owner x = some m → ∀ c ∈ cs, c.name ≠ m := by
          intro m hm
          exact not_about_owner (hkept m) (hr.owner x m hx hm) hback
        exact iff_of_true (undone_owner_same hback hgiven hother) (ownerKept_of_none hback hgiven)
  · have hback := backTo_unkept hx hr hcs
    rw [undone_owner_unkept hx hr hcs]
    cases hgiven : lastGiven cs x with
    | some n =>
      rw [Option.some_or, ownerKept_of_given hback hgiven, if_neg hx]
      exact eq_comm
    | none => exact iff_of_true rfl (ownerKept_of_none hback hgiven)

/-- **When everything is the same again.** -/
theorem undone_iff [DecidablePred K] (hr : Backed K r) (hcs : ∀ c ∈ cs, c.Backed K)
    (hmono : cs.Pairwise fun a b => a.name = b.name → a.restores = true → b.restores = true) :
    ((∀ n, (r.undone cs).lists n = r.lists n) ∧ ∀ x, (r.undone cs).owner x = r.owner x) ↔
      (∀ n, r.ListKept cs n) ∧ ∀ x, r.OwnerKept K cs x := by
  have hlists : (∀ n, (r.undone cs).lists n = r.lists n) ↔ ∀ n, r.ListKept cs n :=
    forall_congr' fun n => undone_lists_iff hmono
  rw [hlists]
  refine and_congr_right fun hkept => forall_congr' fun x => ?_
  exact undone_owner_iff hr hcs hkept

end

end Registry

end Apg
