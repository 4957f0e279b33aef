import Apg.Proof.Install

/-!
# What a failed installation leaves

`install_package_in_root` promises to leave the root as it was when it fails. It takes
nothing back when the copy of its data is refused, and when the script after the
installation fails it takes back what the package ships, whoever put it there.

* `installInRoot_restores`: **when the root is as it was.**
-/

namespace Apg

open Posix

/-! ## The copy is refused -/

section

variable {io : CopyIo} {F : Forest} {D : List FileName} {fs : Host}

theorem Lays.eq_self {fs' : Host} {q : List FileName} (hq : q ≠ []) (h : Lays fs q (fs.get q) fs') : fs' = fs := by
  refine Fs.ext_get fun r => ?_
  by_cases hr : q <+: r
  · by_cases hne : r = q
    · rw [hne]; exact h.here
    · by_cases hd : ∃ m, fs.get q = some (.dir m)
      · obtain ⟨m, hm⟩ := hd
        exact h.below r m hm hr hne
      · have hno : ∀ m, fs.get q ≠ some (.dir m) := fun m hm => hd ⟨m, hm⟩
        rw [get_below hq hno hr hne]
        exact get_below hq (by rw [h.here]; exact hno) hr hne
  · exact h.away r hr

/-- What has been copied, from the `k`-th entry on, was there before. -/
def Untouched (io : CopyIo) (fs : Host) (D : List FileName) : ℕ → List (List FileName × Piece) → Prop
  | _, [] => True
  | k, x :: xs =>
    (laid io (io.fault k) (fs.get (D ++ x.1)) x.2).2 = fs.get (D ++ x.1) ∧
      ((laid io (io.fault k) (fs.get (D ++ x.1)) x.2).1 = true → Untouched io fs D (k + 1) xs)

/-- Every entry from the `k`-th on is copied. -/
def goesOn (io : CopyIo) (fs : Host) (D : List FileName) : ℕ → List (List FileName × Piece) → Bool
  | _, [] => true
  | k, x :: xs => (laid io (io.fault k) (fs.get (D ++ x.1)) x.2).1 && goesOn io fs D (k + 1) xs

/-- The places of entries that come before are left as they are. -/
theorem layAll_earlier (hF : F.distinct = true) {before after : List (List FileName × Piece)} {s : CopyState}
    (hsplit : F.pieces = before ++ after) (hplain : Plain s.fs D F)
    (hstands : ∀ x ∈ before, Stands s.fs (D ++ x.1) x.2) {x : List FileName × Piece} (hx : x ∈ before) :
    (layAll io (names D) after s).2.fs.get (D ++ x.1) = s.fs.get (D ++ x.1) := by
  have hstep : ∀ (fs fs' : Host) (path : List FileName) (piece : Piece) (fault : Fault),
      fs.get (D ++ x.1) = s.fs.get (D ++ x.1) → Plain fs D F → (path, piece) ∈ after →
      fs.isDirAt (D ++ path).dropLast = true →
      Lays fs (D ++ path) (laid io fault (fs.get (D ++ path)) piece).2 fs' →
      fs'.get (D ++ x.1) = s.fs.get (D ++ x.1) := by
    intro fs fs' path piece fault hsame _ hmem _ hlays
    rw [← hsame]
    refine hlays.away _ fun h => ?_
    -- a directory above `x` would have come before it
    have hpre : path <+: x.1 := append_prefix_append.1 h
    have hapart : ∀ y ∈ before, y.1 ≠ path := fun y hy => Forest.path_ne hF hsplit hy hmem
    have hne : path ≠ [] := Forest.path_ne_nil (by rw [hsplit]; exact List.mem_append_right _ hmem)
    obtain ⟨m, hm⟩ := Forest.dir_above_before hsplit hx hne hpre (hapart x hx).symm
    exact hapart _ hm rfl
  exact (layAll_keeps hF after before s hsplit hplain hstands hstep rfl).1

/-- The copy of a tree from an entry on, while nothing has been touched. -/
theorem layAll_untouched (hF : F.distinct = true) (hplain : Plain fs D F) :
    ∀ (after before : List (List FileName × Piece)) (k : ℕ), F.pieces = before ++ after →
    (∀ x ∈ before, Stands fs (D ++ x.1) x.2) →
    (Untouched io fs D k after → (layAll io (names D) after ⟨k, fs⟩).2.fs = fs) ∧
      ((∀ x ∈ F.pieces, (layAll io (names D) after ⟨k, fs⟩).2.fs.get (D ++ x.1) = fs.get (D ++ x.1)) →
        Untouched io fs D k after) := by
  intro after
  induction after with
  | nil => intro before k _ _; exact ⟨fun _ => rfl, fun _ => trivial⟩
  | cons x after ih =>
    obtain ⟨path, piece⟩ := x
    intro before k hsplit hstands
    have hmem : (path, piece) ∈ F.pieces := by rw [hsplit]; simp
    have hq : D ++ path ≠ [] := by simp [Forest.path_ne_nil hmem]
    have hsplit' : F.pieces = (before ++ [(path, piece)]) ++ after := by rw [hsplit]; simp
    obtain ⟨fs', -, hlays, hrun⟩ := layAll_step io (s := ⟨k, fs⟩) hsplit hplain hstands
    simp only at hlays hrun
    -- an entry that is as it was leaves everything as it was
    have hback : (laid io (io.fault k) (fs.get (D ++ path)) piece).2 = fs.get (D ++ path) → fs' = fs := by
      intro hsame
      rw [hsame] at hlays
      exact hlays.eq_self hq
    have hstands' : (laid io (io.fault k) (fs.get (D ++ path)) piece).1 = true →
        ∀ x ∈ before ++ [(path, piece)], Stands fs' (D ++ x.1) x.2 := by
      intro hok
      exact stands_after hF (fun x hx => by rw [hsplit]; simp [hx]) hmem
        (fun x hx => Forest.path_ne hF hsplit hx List.mem_cons_self) hstands hlays hok
    rw [hrun]
    refine ⟨?_, ?_⟩
    · rintro ⟨hsame, hrest⟩
      obtain rfl := hback hsame
      split
      · rename_i hok
        exact (ih _ (k + 1) hsplit' (hstands' hok)).1 (hrest hok)
      · rfl
    · intro hall
      have hplain' := hplain.after hF hmem hlays
      -- the place of the entry keeps what was put there
      have hplace : (laid io (io.fault k) (fs.get (D ++ path)) piece).2 = fs.get (D ++ path) := by
        have hfinal := hall _ hmem
        rw [← hlays.here, ← hfinal]
        split
        · rename_i hok
          exact (layAll_earlier hF (s := ⟨k + 1, fs'⟩) (x := (path, piece)) hsplit' hplain' (hstands' hok) (by simp)).symm
        · rfl
      refine ⟨hplace, fun hok => ?_⟩
      obtain rfl := hback hplace
      rw [if_pos hok] at hall
      exact (ih _ (k + 1) hsplit' (hstands' hok)).2 hall

/-- Whether a copy is refused is told by what was there before it. -/
theorem layAll_goesOn (hF : F.distinct = true) : ∀ (after before : List (List FileName × Piece)) (k : ℕ) (f : Host),
    F.pieces = before ++ after → Plain f D F → (∀ x ∈ before, Stands f (D ++ x.1) x.2) →
    (∀ x ∈ after, f.get (D ++ x.1) = fs.get (D ++ x.1)) →
    (layAll io (names D) after ⟨k, f⟩).1 = goesOn io fs D k after := by
  intro after
  induction after with
  | nil => intro before k f _ _ _ _; rfl
  | cons x after ih =>
    obtain ⟨path, piece⟩ := x
    intro before k f hsplit hplain hstands hsame
    have hmem : (path, piece) ∈ F.pieces := by rw [hsplit]; simp
    have hsplit' : F.pieces = (before ++ [(path, piece)]) ++ after := by rw [hsplit]; simp
    obtain ⟨f', -, hlays, hrun⟩ := layAll_step io (s := ⟨k, f⟩) hsplit hplain hstands
    simp only at hlays hrun
    rw [hrun, goesOn, ← hsame _ List.mem_cons_self]
    cases hok : (laid io (io.fault k) (f.get (D ++ path)) piece).1 with
    | false => rfl
    | true =>
      rw [if_pos rfl, Bool.true_and]
      refine ih _ (k + 1) f' hsplit' (hplain.after hF hmem hlays) ?_ ?_
      · exact stands_after hF (fun x hx => by rw [hsplit]; simp [hx]) hmem
          (fun x hx => Forest.path_ne hF hsplit hx List.mem_cons_self) hstands hlays hok
      · intro x hx
        rw [← hsame x (List.mem_cons_of_mem _ hx)]
        -- an entry that comes later is not touched before its turn
        have hne : path ≠ x.1 := Forest.path_ne hF hsplit' (List.mem_append_right _ (List.mem_singleton.2 rfl)) hx
        have hx' : x ∈ F.pieces := by rw [hsplit]; simp [hx]
        by_cases hpre : path <+: x.1
        · cases piece with
          | leaf l => exact absurd (Forest.leaf_above hF hmem hx' hpre) hne
          | dir m =>
            exact hlays.below_dir (by simp [Forest.path_ne_nil hmem]) (append_prefix_append.2 hpre)
              fun h => hne (List.append_cancel_left h).symm
        · exact hlays.away _ fun h => hpre (append_prefix_append.1 h)

/-- `copy_dir` into a directory that is there. -/
theorem copyDir_there (src : Folder) (hD : fs.isDirAt D = true) :
    copyDir io src (names D) fs =
      if io.fault 0 = .make ∨ io.fault 0 = .list then (false, fs)
      else ((copyItems io src.items (names D) ⟨1, fs⟩).1, (copyItems io src.items (names D) ⟨1, fs⟩).2.fs) := by
  have hstat : (stat fs (names D)).isSome = true := by
    rw [stat_names (NoLinks.of_isDirAt hD)]
    rcases (fs.isDirAt_iff D).1 hD with rfl | ⟨m, hm⟩
    · rfl
    · unfold entryAt; rw [hm]; split <;> rfl
  unfold copyDir makeDst
  simp only [hstat, if_true]
  cases hf : io.fault 0 <;> simp

end

/-! ## The script after the installation fails -/

/-- Taking the entry back takes nothing else away: no file or link was at its place, and a
directory that was there had something in it. -/
def Spared (fs : Host) (q : List FileName) : Piece → Prop
  | .dir _ => fs.get q = none ∨ (∃ m, fs.get q = some (.dir m)) ∧ fs.emptyAt q = false
  | .leaf .special => ∀ e, fs.get q = some e → e.isDir = true
  | .leaf _ => fs.get q = none

/-- An entry of the tree belongs at the place; the flag is set for a directory. -/
def Ships (D : List FileName) (F : Forest) (q : List FileName) (dir : Bool) : Prop :=
  ∃ x ∈ F.pieces, q = D ++ x.1 ∧ x.2.isDir = dir

theorem laid_dir_new (io : CopyIo) {fault : Fault} {cur : Option (Entry Bytes CStr)} (hread : fault ≠ .read)
    (hno : ∀ m, cur ≠ some (.dir m)) (mode : ℕ) : laid io fault cur (.dir mode) = laid io fault none (.dir mode) := by
  cases cur with
  | none => rfl
  | some e =>
    cases e with
    | dir m => exact absurd rfl (hno m)
    | _ => simp only [laid, if_neg hread]

/-- A copy that changes its place leaves nothing there, or an entry of its own kind; what
was there is no directory if it is one. -/
theorem laid_cases (io : CopyIo) (fault : Fault) (cur : Option (Entry Bytes CStr)) (piece : Piece) :
    (laid io fault cur piece).2 = cur ∨
      (piece ≠ .leaf .special ∧ (piece.isDir = true → ∀ m, cur ≠ some (.dir m)) ∧
        ∀ e, (laid io fault cur piece).2 = some e → e.isDir = piece.isDir) := by
  cases piece with
  | leaf l =>
    have hdir : Piece.isDir (.leaf l) = true → ∀ m, cur ≠ some (.dir m) := by intro h; cases h
    cases l with
    | special => exact Or.inl rfl
    | link t =>
      by_cases hread : fault = .read
      · left; simp [laid, hread]
      · right
        refine ⟨by simp, hdir, fun e he => ?_⟩
        by_cases hmake : fault = .make
        · simp [laid, hmake] at he
        · simp only [laid, if_neg hread, if_neg hmake, Option.some.injEq] at he
          rw [← he]; rfl
    | file c m =>
      cases fault with
      | read => exact Or.inl rfl
      | make => exact Or.inr ⟨by simp, hdir, by simp [laid]⟩
      | _ =>
        refine Or.inr ⟨by simp, hdir, fun e he => ?_⟩
        simp only [laid, Option.some.injEq] at he
        rw [← he]; rfl
  | dir mode =>
    by_cases hcur : ∃ m, cur = some (.dir m)
    · obtain ⟨m, rfl⟩ := hcur
      exact Or.inl (laid_dir_there io fault m mode)
    · have hno : ∀ m, cur ≠ some (.dir m) := fun m hm => hcur ⟨m, hm⟩
      by_cases hread : fault = .read
      · left; simp [laid, hread]
      · right
        refine ⟨by simp, fun _ => hno, fun e he => ?_⟩
        rw [laid_dir_new io hread hno] at he
        cases fault with
        | read => exact absurd rfl hread
        | make => cases he
        | _ =>
          cases he
          rfl

/-- The file system is the one before with entries of the package over it: what was there
is there, and what is new is shipped. -/
structure Over (fs : Host) (Ship : List FileName → Bool → Prop) (f : Host) : Prop where
  old : ∀ q e, fs.get q = some e → f.get q = some e
  new : ∀ q e, fs.get q = none → f.get q = some e → Ship q e.isDir

section

variable {io : CopyIo} {F : Forest} {D : List FileName} {fs f f' : Host}
  {Ship : List FileName → Bool → Prop} {q : List FileName} {piece : Piece}

theorem Over.refl (fs : Host) : Over fs Ship fs := by
  refine ⟨fun _ _ h => h, fun q e hnone hsome => ?_⟩
  rw [hnone] at hsome; cases hsome

/-- Nothing is at or below a place where there is nothing. -/
theorem none_below {r : List FileName} (hq : q ≠ []) (hnone : fs.get q = none) (h : q <+: r) : fs.get r = none := by
  by_cases hne : r = q
  · rw [hne, hnone]
  · exact get_below hq (by rw [hnone]; simp) h hne

/-- An entry is copied to a place of its own. -/
theorem Over.lay {fault : Fault} (h : Over fs Ship f) (hq : q ≠ []) (hship : Ship q piece.isDir)
    (hspared : Spared fs q piece) (hlays : Lays f q (laid io fault (f.get q) piece).2 f') : Over fs Ship f' := by
  rcases laid_cases io fault (f.get q) piece with hsame | ⟨hspecial, hdir, hkind⟩
  · rw [hsame] at hlays
    rw [hlays.eq_self hq]; exact h
  -- the place is changed, so nothing was there
  have hnone : fs.get q = none := by
    cases piece with
    | leaf l =>
      cases l with
      | file c m => exact hspared
      | link t => exact hspared
      | special => exact absurd rfl hspecial
    | dir m =>
      rcases hspared with hnone | ⟨⟨m', hm'⟩, -⟩
      · exact hnone
      · exact absurd (h.old q _ hm') (hdir rfl m')
  refine ⟨fun r e hr => ?_, fun r e hr hr' => ?_⟩
  · have hnot : ¬ q <+: r := by
      intro hpre
      rw [none_below hq hnone hpre] at hr; cases hr
    rw [hlays.away r hnot]; exact h.old r e hr
  · by_cases hpre : q <+: r
    · by_cases hne : r = q
      · subst hne
        rw [hlays.here] at hr'
        rw [hkind e hr']; exact hship
      · by_cases hd : ∃ m, f'.get q = some (.dir m)
        · obtain ⟨m, hm⟩ := hd
          rw [hlays.here] at hm
          rw [hlays.below r m hm hpre hne] at hr'
          exact h.new r e hr hr'
        · rw [get_below hq (fun m hm => hd ⟨m, hm⟩) hpre hne] at hr'; cases hr'
    · rw [hlays.away r hpre] at hr'
      exact h.new r e hr hr'

/-- An entry is taken back from a place where nothing was. -/
theorem Over.erase (h : Over fs Ship f) (hq : q ≠ []) (hnone : fs.get q = none) : Over fs Ship (f.erase q) := by
  refine ⟨fun r e hr => ?_, fun r e hr hr' => ?_⟩
  · rw [Fs.get_erase, if_neg]
    · exact h.old r e hr
    · intro hpre
      rw [none_below hq hnone hpre] at hr; cases hr
  · rw [Fs.get_erase] at hr'
    split at hr'
    · cases hr'
    · exact h.new r e hr hr'

/-- What can be taken back was not there before. -/
theorem Over.fresh (h : Over fs Ship f) (hspared : Spared fs q piece) (htake : Takeable f q piece) :
    fs.get q = none := by
  by_contra hsome
  obtain ⟨e, he⟩ := Option.ne_none_iff_exists'.1 hsome
  cases piece with
  | dir m =>
    rcases hspared with hnone | ⟨-, hfull⟩
    · exact hsome hnone
    · -- something was in the directory, and still is
      have hemp := (f.emptyAt_iff q).1 htake.2
      rw [Bool.eq_false_iff, Ne, Fs.emptyAt_iff] at hfull
      apply hfull
      intro r hpre hne
      by_contra hr
      obtain ⟨e', he'⟩ := Option.ne_none_iff_exists'.1 hr
      have hold := h.old r e' he'
      rw [hemp r hpre hne] at hold; cases hold
  | leaf l =>
    obtain ⟨e', hget, hkind⟩ := htake
    cases l with
    | file c m => exact hsome hspared
    | link t => exact hsome hspared
    | special =>
      rw [h.old q e he] at hget
      cases hget
      rw [hspared e he] at hkind; cases hkind

/-- The tree still goes into its directory, and not through a link. -/
theorem Over.plain (h : Over fs Ship f) (hkinds : ∀ r, Ship r true → ¬Ship r false)
    (hship : ∀ x ∈ F.pieces, Ship (D ++ x.1) x.2.isDir) (hplain : Plain fs D F) : Plain f D F := by
  refine ⟨?_, fun path m hmem t ht => ?_⟩
  · rcases (fs.isDirAt_iff D).1 hplain.dir with rfl | ⟨m, hm⟩
    · exact f.isDirAt_top
    · exact Fs.isDirAt_of_get (h.old D _ hm)
  · cases hget : fs.get (D ++ path) with
    | none => exact hkinds _ (hship _ hmem) (h.new _ _ hget ht)
    | some e =>
      rw [h.old _ e hget] at ht
      cases ht
      exact hplain.links path m hmem t hget

/-- What is above a place in `D` is above `D`, or in it. -/
theorem prefix_append_cases {p x : List FileName} (h : p <+: D ++ x) : p <+: D ∨ ∃ p', p = D ++ p' ∧ p' <+: x := by
  rcases List.prefix_or_prefix_of_prefix h (List.prefix_append D x) with hp | ⟨p', rfl⟩
  · exact Or.inl hp
  · exact Or.inr ⟨p', rfl, append_prefix_append.1 h⟩

/-- No link is on the way to an entry of the tree. -/
theorem Plain.noLinks (h : Plain fs D F) {x : List FileName × Piece} (hx : x ∈ F.pieces) :
    NoLinks fs (D ++ x.1).dropLast := by
  obtain ⟨path, piece⟩ := x
  have hne := Forest.path_ne_nil hx
  rw [List.dropLast_append_of_ne_nil hne]
  intro p hp t ht
  rcases prefix_append_cases hp with hD | ⟨p', rfl, hp'⟩
  · exact NoLinks.of_isDirAt h.dir p hD t ht
  · by_cases hnil : p' = []
    · subst hnil
      rw [List.append_nil] at ht
      exact NoLinks.of_isDirAt h.dir D (List.prefix_refl D) t ht
    · have hpre : p' <+: path := hp'.trans (List.dropLast_prefix path)
      have hneq : p' ≠ path := by
        rintro rfl
        exact not_prefix_dropLast hne hp'
      obtain ⟨m, hm⟩ := Forest.dir_above hx hnil hpre hneq
      exact h.links p' m hm t ht

theorem Plain.erase (h : Plain fs D F) {path : List FileName} (hne : path ≠ []) : Plain (fs.erase (D ++ path)) D F := by
  refine ⟨?_, fun p m hp t ht => ?_⟩
  · rw [Fs.isDirAt_erase]
    · exact h.dir
    · intro hpre
      have := hpre.length_le
      have hpos := List.length_pos_iff.2 hne
      rw [List.length_append] at this
      omega
  · rw [Fs.get_erase] at ht
    split at ht
    · cases ht
    · exact h.links p m hp t ht

/-- What was there is there, and nothing else. -/
theorem Over.eq (h : Over fs Ship f) (hnone : ∀ q, fs.get q = none → f.get q = none) : f = fs := by
  refine Fs.ext_get fun q => ?_
  cases hq : fs.get q with
  | none => exact hnone q hq
  | some e => exact h.old q e hq

end

/-- A tree goes beside what is there: nothing is in the way of its entries, and what it
ships is shipped as one kind. -/
structure Beside (fs : Host) (Ship : List FileName → Bool → Prop) (D : List FileName) (F : Forest) : Prop where
  plain : Plain fs D F
  spared : ∀ x ∈ F.pieces, Spared fs (D ++ x.1) x.2
  ships : ∀ x ∈ F.pieces, Ship (D ++ x.1) x.2.isDir
  kinds : ∀ q, Ship q true → ¬Ship q false

section

variable {io : CopyIo} {F : Forest} {D : List FileName} {fs f : Host} {Ship : List FileName → Bool → Prop}

theorem Beside.ne_nil {x : List FileName × Piece} (hx : x ∈ F.pieces) : D ++ x.1 ≠ [] := by
  simp [Forest.path_ne_nil hx]

theorem Beside.copyItems (io : CopyIo) (h : Beside fs Ship D F) (hF : F.distinct = true) (hover : Over fs Ship f) (k : ℕ) :
    Over fs Ship (copyItems io F (names D) ⟨k, f⟩).2.fs := by
  have hplain : Plain f D F := hover.plain h.kinds h.ships h.plain
  refine (copyItems_keeps hF (s := ⟨k, f⟩) hplain ?_ hover).1
  intro f₁ f₂ path piece fault hover₁ _ hmem _ hlays
  exact hover₁.lay (Beside.ne_nil hmem) (h.ships _ hmem) (h.spared _ hmem) hlays

theorem Beside.takeBack (h : Beside fs Ship D F) (f₁ : Host) (x : List FileName × Piece) (hx : x ∈ F.pieces)
    (hover : Over fs Ship f₁) (htake : Takeable f₁ (D ++ x.1) x.2) : Over fs Ship (f₁.erase (D ++ x.1)) :=
  hover.erase (Beside.ne_nil hx) (hover.fresh (h.spared x hx) htake)

/-- What is new is taken back, unless it is kept for `A`. -/
theorem Beside.removeItems {A : List FileName → Prop} (h : Beside fs Ship D F) (hF : F.distinct = true)
    (hover : Over fs Ship f) (hA : ∀ q r, q ≠ [] → fs.get q = none → q <+: r → A r → A q)
    (hown : ∀ r e, fs.get r = none → f.get r = some e → Ships D F r e.isDir ∨ A r) :
    Over fs Ship (removeItems F (names D) f) ∧
      ∀ r, fs.get r = none → (removeItems F (names D) f).get r = none ∨ A r := by
  have hlinks : ∀ f₁, Over fs Ship f₁ → ∀ x ∈ F.pieces, NoLinks f₁ (D ++ x.1).dropLast :=
    fun f₁ hover₁ x hx => (hover₁.plain h.kinds h.ships h.plain).noLinks hx
  refine ⟨removeItems_keeps hlinks h.takeBack hover, fun r hr => ?_⟩
  by_cases hnil : r = []
  · rw [hnil]; exact Or.inl (Fs.get_top _)
  have hW : ∀ q r, (q ≠ [] ∧ fs.get q = none) → q <+: r → r ≠ [] ∧ fs.get r = none := by
    rintro q r ⟨hq, hnone⟩ hpre
    refine ⟨?_, none_below hq hnone hpre⟩
    rintro rfl
    exact hq (List.prefix_nil.1 hpre)
  refine removeItems_clears (W := fun q => q ≠ [] ∧ fs.get q = none) hF hlinks h.takeBack hW
    (fun q r hq => hA q r hq.1 hq.2) hover ?_ r ⟨hnil, hr⟩
  exact fun r e hr => hown r e hr.2

end

/-- What the directory of the user gets goes beside what is there, and is not all there is. -/
structure HomeBeside (fs : Host) (R : List FileName) (data : Forest) (H : List FileName) (home : Forest) : Prop where
  plain : Plain fs H home
  full : fs.emptyAt H = false
  spared : ∀ x ∈ home.pieces, Spared fs (H ++ x.1) x.2
  kinds : ∀ q dir dir', Ships R data q dir → Ships H home q dir' → dir = dir'

section

variable {data : Forest} {R : List FileName} {fs : Host}

theorem ships_kind {F : Forest} {D q : List FileName} (hF : F.distinct = true) {dir dir' : Bool} (h : Ships D F q dir)
    (h' : Ships D F q dir') : dir = dir' := by
  obtain ⟨⟨path, piece⟩, hx, rfl, rfl⟩ := h
  obtain ⟨⟨path', piece'⟩, hx', hq, rfl⟩ := h'
  obtain rfl : path = path' := List.append_cancel_left hq
  rw [Forest.piece_unique hF hx hx']

/-- Where nothing is, what is above a place of the tree belongs to the tree. -/
theorem Plain.ships_above {F : Forest} {D q r : List FileName} (h : Plain fs D F) (hq : q ≠ []) (hnone : fs.get q = none)
    (hpre : q <+: r) (hr : ∃ dir, Ships D F r dir) : ∃ dir, Ships D F q dir := by
  obtain ⟨dir, ⟨path, piece⟩, hx, rfl, rfl⟩ := hr
  -- the directory the tree goes to was there
  have hbelow : ¬q <+: D := by
    intro hD
    rcases (fs.isDirAt_iff q).1 (Fs.isDirAt_of_prefix hD h.dir) with rfl | ⟨m, hm⟩
    · exact hq rfl
    · rw [hnone] at hm; cases hm
  obtain ⟨p, rfl, hp⟩ := (prefix_append_cases hpre).resolve_left hbelow
  by_cases hne : p = path
  · exact ⟨_, _, hx, by rw [hne], rfl⟩
  · have hnil : p ≠ [] := by
      rintro rfl
      exact hbelow (by rw [List.append_nil])
    obtain ⟨m, hm⟩ := Forest.dir_above hx hnil hp hne
    exact ⟨_, _, hm, rfl, rfl⟩

/-- **A tree that goes beside what is there can be taken back**, wherever its copy stopped. -/
theorem removeItems_copyItems (io : CopyIo) (hF : data.distinct = true) (hplain : Plain fs R data)
    (hspared : ∀ x ∈ data.pieces, Spared fs (R ++ x.1) x.2) (k : ℕ) :
    removeItems data (names R) (copyItems io data (names R) ⟨k, fs⟩).2.fs = fs := by
  have hbeside : Beside fs (Ships R data) R data :=
    ⟨hplain, hspared, fun x hx => ⟨x, hx, rfl, rfl⟩, fun q ht hf => by cases ships_kind hF ht hf⟩
  have hover := hbeside.copyItems io hF (Over.refl fs) k
  obtain ⟨hover', hclear⟩ := hbeside.removeItems (A := fun _ => False) hF hover (fun _ _ _ _ _ h => h)
    fun r e hr hr' => Or.inl (hover.new r e hr hr')
  refine hover'.eq fun r hr => ?_
  exact (hclear r hr).resolve_right id

/-- The same with what the directory of the user gets. -/
theorem removeMirrored_copyDir (io io' : CopyIo) {home : Folder} {H : List FileName} (hF : data.distinct = true)
    (hplain : Plain fs R data) (hspared : ∀ x ∈ data.pieces, Spared fs (R ++ x.1) x.2)
    (hhome : HomeBeside fs R data H home.items) (k : ℕ) :
    removeMirrored home (names H) (removeItems data (names R)
      (copyDir io' home (names H) (copyItems io data (names R) ⟨k, fs⟩).2.fs).2) = fs := by
  have hkinds : ∀ q, Ships R data q true ∨ Ships H home.items q true → ¬(Ships R data q false ∨ Ships H home.items q false) := by
    rintro q (ht | ht) (hf | hf)
    · cases ships_kind hF ht hf
    · cases hhome.kinds q _ _ ht hf
    · cases hhome.kinds q _ _ hf ht
    · cases ships_kind home.distinct ht hf
  have hdata : Beside fs (fun q dir => Ships R data q dir ∨ Ships H home.items q dir) R data :=
    ⟨hplain, hspared, fun x hx => Or.inl ⟨x, hx, rfl, rfl⟩, hkinds⟩
  have huser : Beside fs (fun q dir => Ships R data q dir ∨ Ships H home.items q dir) H home.items :=
    ⟨hhome.plain, hhome.spared, fun x hx => Or.inr ⟨x, hx, rfl, rfl⟩, hkinds⟩
  have hover₁ := hdata.copyItems io hF (Over.refl fs) k
  generalize (copyItems io data (names R) ⟨k, fs⟩).2.fs = f₁ at hover₁ ⊢
  have hdir₁ : f₁.isDirAt H = true := (hover₁.plain hkinds huser.ships hhome.plain).dir
  have hover₂ : Over fs (fun q dir => Ships R data q dir ∨ Ships H home.items q dir) (copyDir io' home (names H) f₁).2 := by
    rw [copyDir_there home hdir₁]
    split
    · exact hover₁
    · exact huser.copyItems io' home.distinct hover₁ 1
  generalize (copyDir io' home (names H) f₁).2 = f₂ at hover₂ ⊢
  -- what the user's tree ships is left by the first pass
  have hA : ∀ q r, q ≠ [] → fs.get q = none → q <+: r → (∃ dir, Ships H home.items r dir) →
      ∃ dir, Ships H home.items q dir :=
    fun q r hq hnone hpre hr => hhome.plain.ships_above hq hnone hpre hr
  obtain ⟨hover₃, hclear₃⟩ := hdata.removeItems hF hover₂ hA fun r e hr hr' => by
    rcases hover₂.new r e hr hr' with h | h
    · exact Or.inl h
    · exact Or.inr ⟨_, h⟩
  generalize removeItems data (names R) f₂ = f₃ at hover₃ hclear₃ ⊢
  obtain ⟨hover₄, hclear₄⟩ := huser.removeItems (A := fun _ => False) home.distinct hover₃ (fun _ _ _ _ _ h => h)
    fun r e hr hr' => by
      left
      rcases hclear₃ r hr with hnone | ⟨dir, h⟩
      · rw [hnone] at hr'; cases hr'
      · rcases hover₃.new r e hr hr' with h' | h'
        · rw [hhome.kinds r _ _ h' h]; exact h
        · exact h'
  have heq : removeItems home.items (names H) f₃ = fs := by
    refine hover₄.eq fun r hr => ?_
    exact (hclear₄ r hr).resolve_right id
  have hlinks : NoLinks fs H.dropLast := (NoLinks.of_isDirAt hhome.plain.dir).above (List.dropLast_prefix H)
  have hrmdir : rmdir fs (names H) = none := by
    rcases rmdir_names hlinks with ⟨m, -, hemp, -⟩ | ⟨-, h⟩
    · rw [hhome.full] at hemp; cases hemp
    · exact h
  show (rmdir (removeItems home.items (names H) f₃) (names H)).getD (removeItems home.items (names H) f₃) = fs
  rw [heq, hrmdir]
  rfl

end

/-! ## What it takes -/

section

variable {io : CopyIo} {F : Forest} {D : List FileName} {fs f : Host} {q path : List FileName}

/-- A place is taken away if everything at and below it is shipped. -/
theorem removeItems_gone (hF : F.distinct = true) (hplain : Plain f D F)
    (hown : ∀ r e, q <+: r → f.get r = some e → Ships D F r e.isDir) : (removeItems F (names D) f).get q = none := by
  have hlinks : ∀ f, Plain f D F → ∀ x ∈ F.pieces, NoLinks f (D ++ x.1).dropLast := fun f h x hx => h.noLinks hx
  have hstep : ∀ f, ∀ x ∈ F.pieces, Plain f D F → Takeable f (D ++ x.1) x.2 → Plain (f.erase (D ++ x.1)) D F :=
    fun f x hx h _ => h.erase (Forest.path_ne_nil hx)
  have hclear := removeItems_clears (W := fun r => q <+: r) (A := fun _ => False) hF hlinks hstep
    (fun _ _ h h' => h.trans h') (fun _ _ _ _ h => h) hplain fun r e hr hget => Or.inl (hown r e hr hget)
  exact (hclear q (List.prefix_refl q)).resolve_right id

/-- What is new in a region is shipped. -/
theorem copyItems_own (io : CopyIo) {W : List FileName → Prop} (hF : F.distinct = true) (hplain : Plain fs D F)
    (hnone : ∀ r, W r → fs.get r = none) (k : ℕ) :
    ∀ r e, W r → (copyItems io F (names D) ⟨k, fs⟩).2.fs.get r = some e → Ships D F r e.isDir := by
  refine (copyItems_keeps (I := fun f => ∀ r e, W r → f.get r = some e → Ships D F r e.isDir) hF (s := ⟨k, fs⟩) hplain
    ?_ fun r e hr hget => ?_).1
  · intro f₁ f₂ path piece fault hI _ hmem _ hlays r e hr hget
    have hq : D ++ path ≠ [] := Beside.ne_nil hmem
    by_cases hpre : D ++ path <+: r
    · by_cases hne : r = D ++ path
      · subst hne
        rw [hlays.here] at hget
        rcases laid_cases io fault (f₁.get (D ++ path)) piece with hsame | ⟨-, -, hkind⟩
        · rw [hsame] at hget
          exact hI _ e hr hget
        · exact ⟨_, hmem, rfl, (hkind e hget).symm⟩
      · by_cases hd : ∃ m, f₂.get (D ++ path) = some (.dir m)
        · obtain ⟨m, hm⟩ := hd
          rw [hlays.here] at hm
          rw [hlays.below r m hm hpre hne] at hget
          exact hI r e hr hget
        · rw [get_below hq (fun m hm => hd ⟨m, hm⟩) hpre hne] at hget; cases hget
    · rw [hlays.away r hpre] at hget
      exact hI r e hr hget
  · rw [hnone r hr] at hget; cases hget

/-- Nothing is done at the place of an entry that is passed over. -/
theorem copyItems_special (io : CopyIo) (hF : F.distinct = true) (hplain : Plain fs D F) (hmem : (path, .leaf .special) ∈ F.pieces)
    (k : ℕ) : (copyItems io F (names D) ⟨k, fs⟩).2.fs.get (D ++ path) = fs.get (D ++ path) := by
  refine (copyItems_keeps (I := fun f => f.get (D ++ path) = fs.get (D ++ path)) hF (s := ⟨k, fs⟩) hplain ?_ rfl).1
  intro f₁ f₂ path₁ piece₁ fault hI _ hmem₁ _ hlays
  rw [← hI]
  by_cases hpre : path₁ <+: path
  · by_cases hne : path = path₁
    · subst hne
      obtain rfl := Forest.piece_unique hF hmem₁ hmem
      exact hlays.here
    · cases piece₁ with
      | leaf l => exact absurd (Forest.leaf_above hF hmem₁ hmem hpre).symm hne
      | dir m =>
        exact hlays.below_dir (Beside.ne_nil hmem₁) (append_prefix_append.2 hpre)
          fun h => hne (List.append_cancel_left h)
  · exact hlays.away _ fun h => hpre (append_prefix_append.1 h)

/-- **What is taken back was in nobody's way**, if everything is as before. -/
theorem spared_of_restored (hF : F.distinct = true) (hplain : Plain fs D F) {k : ℕ}
    (hok : (copyItems io F (names D) ⟨k, fs⟩).1 = true)
    (hsame : ∀ q, D <+: q → (removeItems F (names D) (copyItems io F (names D) ⟨k, fs⟩).2.fs).get q = fs.get q) :
    ∀ x ∈ F.pieces, Spared fs (D ++ x.1) x.2 := by
  obtain ⟨-, hplain', hstands⟩ : True ∧ Plain (copyItems io F (names D) ⟨k, fs⟩).2.fs D F ∧ _ :=
    copyItems_keeps (I := fun _ => True) hF (s := ⟨k, fs⟩) hplain (by simp) trivial
  have hstands := hstands hok
  have hbelow := fun q hq => copyItems_own (W := fun r => q <+: r ∧ r ≠ q) io hF hplain hq k
  have hspecial := fun (path : List FileName) (hmem : (path, .leaf .special) ∈ F.pieces) =>
    copyItems_special io hF hplain hmem k
  generalize (copyItems io F (names D) ⟨k, fs⟩).2.fs = f at hsame hplain' hstands hbelow hspecial
  rintro ⟨path, piece⟩ hmem
  have hq : D ++ path ≠ [] := Beside.ne_nil hmem
  have hstand : Stands f (D ++ path) piece := hstands _ hmem
  -- the place is empty if what is there now, and below, is shipped
  have hgone : (∀ r e, D ++ path <+: r → f.get r = some e → Ships D F r e.isDir) → fs.get (D ++ path) = none := by
    intro hown
    rw [← hsame _ (List.prefix_append D path)]
    exact removeItems_gone hF hplain' hown
  -- nothing is below an entry that is no directory
  have hleaf : ∀ e, f.get (D ++ path) = some e → e.isDir = false → piece.isDir = false → fs.get (D ++ path) = none := by
    intro e hget hkind hpiece
    refine hgone fun r e' hpre hr => ?_
    have hno : ∀ m, f.get (D ++ path) ≠ some (.dir m) := by
      intro m hm
      rw [hget] at hm
      cases hm
      cases hkind
    by_cases hne : r = D ++ path
    · subst hne
      rw [hget] at hr
      cases hr
      exact ⟨_, hmem, rfl, by rw [hpiece, hkind]⟩
    · rw [get_below hq hno hpre hne] at hr; cases hr
  cases piece with
  | leaf l =>
    cases l with
    | file c m => exact hleaf _ hstand rfl rfl
    | link t => exact hleaf _ hstand rfl rfl
    | special =>
      intro e he
      by_contra hkind
      rw [Bool.not_eq_true] at hkind
      have hnone := hleaf e (by rw [hspecial path hmem]; exact he) hkind rfl
      rw [hnone] at he; cases he
  | dir mode =>
    obtain ⟨m, hm⟩ := hstand
    -- a directory is taken away with all that is in it, if nothing was below its place
    have hdir : (∀ r, D ++ path <+: r ∧ r ≠ D ++ path → fs.get r = none) → fs.get (D ++ path) = none := by
      intro hempty
      refine hgone fun r e hpre hr => ?_
      by_cases hne : r = D ++ path
      · subst hne
        rw [hm] at hr
        cases hr
        exact ⟨_, hmem, rfl, rfl⟩
      · exact hbelow _ hempty r e ⟨hpre, hne⟩ hr
    by_cases hd : ∃ m, fs.get (D ++ path) = some (.dir m)
    · right
      refine ⟨hd, ?_⟩
      rw [Bool.eq_false_iff, Ne, Fs.emptyAt_iff]
      intro hemp
      obtain ⟨m', hm'⟩ := hd
      rw [hdir fun r hr => hemp r hr.1 hr.2] at hm'; cases hm'
    · left
      exact hdir fun r hr => get_below hq (fun m hm => hd ⟨m, hm⟩) hr.1 hr.2

end

/-! ## A failed installation -/

/-- A failed installation can leave the root as it was. Nothing is asked if it fails before
the copy. If the copy is refused, what it did was there before. If the script after the
installation fails, what the package ships was in nobody's way. -/
def Restorable (dirs : Dirs) (io : InstallIo) (fs : Host) : Prop :=
  ∀ archive data, io.archive = some archive → archive.data = some data → io.preInstall = true →
    io.data.fault 0 ≠ .make → ∃ R, comps dirs.root = names R ∧ Plain fs R data.items ∧ (io.data.fault 0 ≠ .list →
      if goesOn io.data fs R 1 data.items.pieces = true then
        (∀ x ∈ data.items.pieces, Spared fs (R ++ x.1) x.2) ∧
          ∀ path home, dirs.home = some path → archive.home = some home →
            ∃ H, comps path = names H ∧ HomeBeside fs R data.items H home.items
      else Untouched io.data fs R 1 data.items.pieces)

section

variable {dirs : Dirs} {io : InstallIo} {archive : Archive} {data : Folder} {R : List FileName} {fs : Host}

/-- What a failed installation leaves, once the copy has been started. -/
theorem installInRoot_failed (harchive : io.archive = some archive) (hdata : archive.data = some data)
    (hpre : io.preInstall = true) (pkgName : CStr) (fs : Host)
    (hfail : (installInRoot dirs io pkgName fs).ok = false) :
    (installInRoot dirs io pkgName fs).fs =
      if (copyDir io.data data (comps dirs.root) fs).1 = true then
        rollbackInstall dirs archive (installHomeDir io.home dirs archive (copyDir io.data data (comps dirs.root) fs).2)
      else (copyDir io.data data (comps dirs.root) fs).2 := by
  unfold installInRoot at hfail ⊢
  simp only [harchive, hdata, hpre, Bool.not_true, Bool.false_eq_true, if_false] at hfail ⊢
  cases hok : (copyDir io.data data (comps dirs.root) fs).1 with
  | false => simp
  | true =>
    cases hpost : io.postInstall with
    | false => simp
    | true => simp [hok, hpost] at hfail

/-- Whether the copy of the data goes on, and what it leaves if it does not. -/
theorem copyDir_goesOn (hplain : Plain fs R data.items) (hmake : io.data.fault 0 ≠ .make)
    (hlist : io.data.fault 0 ≠ .list) :
    copyDir io.data data (names R) fs =
      (goesOn io.data fs R 1 data.items.pieces, (copyItems io.data data.items (names R) ⟨1, fs⟩).2.fs) := by
  rw [copyDir_there data hplain.dir, if_neg (by simp [hmake, hlist]), copyItems_eq]
  rw [layAll_goesOn data.distinct data.items.pieces [] 1 fs rfl hplain (by simp) fun _ _ => rfl]

/-- Where nothing goes to the directory of the user, the data is all there is. -/
theorem rollbackInstall_no_home (hroot : comps dirs.root = names R) (hdata : archive.data = some data)
    (hhome : dirs.home = none ∨ archive.home = none) (io : CopyIo) (fs : Host) :
    rollbackInstall dirs archive (installHomeDir io dirs archive fs) = removeItems data.items (names R) fs := by
  unfold rollbackInstall installHomeDir
  rw [hdata, hroot]
  rcases hhome with h | h <;> cases hd : dirs.home <;> simp_all

theorem rollbackInstall_restores {io io' : CopyIo} {k : ℕ} (hroot : comps dirs.root = names R)
    (hdata : archive.data = some data) (hplain : Plain fs R data.items)
    (hspared : ∀ x ∈ data.items.pieces, Spared fs (R ++ x.1) x.2)
    (hhome : ∀ path home, dirs.home = some path → archive.home = some home →
      ∃ H, comps path = names H ∧ HomeBeside fs R data.items H home.items) :
    rollbackInstall dirs archive
      (installHomeDir io' dirs archive (copyItems io data.items (names R) ⟨k, fs⟩).2.fs) = fs := by
  cases hpath : dirs.home with
  | none =>
    rw [rollbackInstall_no_home hroot hdata (Or.inl hpath)]
    exact removeItems_copyItems io data.distinct hplain hspared k
  | some path =>
    cases huser : archive.home with
    | none =>
      rw [rollbackInstall_no_home hroot hdata (Or.inr huser)]
      exact removeItems_copyItems io data.distinct hplain hspared k
    | some home =>
      obtain ⟨H, hH, hbeside⟩ := hhome path home hpath huser
      unfold rollbackInstall installHomeDir
      simp only [hdata, hpath, huser, hroot, hH]
      exact removeMirrored_copyDir io io' data.distinct hplain hspared hbeside k

theorem Restorable.fs_eq (h : Restorable dirs io fs) (pkgName : CStr)
    (hfail : (installInRoot dirs io pkgName fs).ok = false) :
    (installInRoot dirs io pkgName fs).fs = fs := by
  cases harchive : io.archive with
  | none => simp only [installInRoot, harchive]
  | some archive =>
    cases hpre : io.preInstall with
    | false => simp only [installInRoot, harchive, hpre, Bool.not_false, if_true]
    | true =>
      cases hdata : archive.data with
      | none => simp [installInRoot, harchive, hpre, hdata]
      | some data =>
        rw [installInRoot_failed harchive hdata hpre pkgName fs hfail]
        by_cases hmake : io.data.fault 0 = .make
        · have hcopy : copyDir io.data data (comps dirs.root) fs = (false, fs) := by simp [copyDir, makeDst, hmake]
          rw [hcopy]; simp
        obtain ⟨R, hroot, hplain, hrest⟩ := h archive data harchive hdata hpre hmake
        rw [hroot]
        by_cases hlist : io.data.fault 0 = .list
        · rw [copyDir_there data hplain.dir, if_pos (Or.inr hlist)]; simp
        rw [copyDir_goesOn hplain hmake hlist]
        have hcond := hrest hlist
        split at hcond
        · rename_i hgo
          rw [if_pos hgo]
          obtain ⟨hspared, hhome⟩ := hcond
          exact rollbackInstall_restores hroot hdata hplain hspared hhome
        · rename_i hgo
          rw [if_neg hgo]
          show (copyItems io.data data.items (names R) ⟨1, fs⟩).2.fs = fs
          rw [copyItems_eq]
          exact (layAll_untouched data.distinct hplain data.items.pieces [] 1 rfl (by simp)).1 hcond

/-- Nothing goes to the directory of the user. -/
def NoHome (dirs : Dirs) (io : InstallIo) : Prop :=
  ∀ archive, io.archive = some archive → dirs.home = none ∨ archive.home = none

theorem Restorable.of_same {pkgName : CStr} (hroot : comps dirs.root = names R)
    (hplain : ∀ archive data, io.archive = some archive → archive.data = some data → Plain fs R data.items)
    (hhome : NoHome dirs io) (hfail : (installInRoot dirs io pkgName fs).ok = false)
    (hsame : ∀ q, R <+: q → (installInRoot dirs io pkgName fs).fs.get q = fs.get q) : Restorable dirs io fs := by
  intro archive data harchive hdata hpre hmake
  have hplain := hplain archive data harchive hdata
  refine ⟨R, hroot, hplain, fun hlist => ?_⟩
  rw [installInRoot_failed harchive hdata hpre pkgName fs hfail, hroot, copyDir_goesOn hplain hmake hlist] at hsame
  split
  · rename_i hgo
    rw [if_pos hgo, rollbackInstall_no_home hroot hdata (hhome archive harchive)] at hsame
    have hok : (copyItems io.data data.items (names R) ⟨1, fs⟩).1 = true := by
      rw [copyItems_eq, layAll_goesOn data.distinct data.items.pieces [] 1 fs rfl hplain (by simp) fun _ _ => rfl]
      exact hgo
    refine ⟨spared_of_restored data.distinct hplain hok hsame, fun path home hpath huser => ?_⟩
    rcases hhome archive harchive with h | h
    · rw [h] at hpath; cases hpath
    · rw [h] at huser; cases huser
  · rename_i hgo
    rw [if_neg hgo, copyItems_eq] at hsame
    exact (layAll_untouched data.distinct hplain data.items.pieces [] 1 rfl (by simp)).2
      fun x _ => hsame _ (List.prefix_append R x.1)

end

/-- **When a failed installation leaves the root as it was.** -/
theorem installInRoot_restores (dirs : Dirs) (io : InstallIo) (pkgName : CStr) (fs : Host)
    (hfail : (installInRoot dirs io pkgName fs).ok = false) :
    (Restorable dirs io fs → (installInRoot dirs io pkgName fs).fs = fs) ∧
      ∀ R, comps dirs.root = names R → NoHome dirs io →
        (∀ archive data, io.archive = some archive → archive.data = some data → Plain fs R data.items) →
        ((∀ q, R <+: q → (installInRoot dirs io pkgName fs).fs.get q = fs.get q) ↔ Restorable dirs io fs) := by
  refine ⟨fun h => h.fs_eq pkgName hfail, fun R hroot hhome hplain => ⟨fun hsame => ?_, fun h q _ => ?_⟩⟩
  · exact Restorable.of_same hroot hplain hhome hfail hsame
  · rw [h.fs_eq pkgName hfail]

/-- A package with one file, whose last script fails. -/
def unlucky : InstallIo :=
  { archive := some ⟨some ⟨0o755, .dir (fileName "etc") 0o755 (.leaf (fileName "motd") (.file [1] 0o644) .nil) .nil, by decide⟩,
      none, none⟩
    postInstall := false }

/-- A directory with a file of the given name. -/
def etcWith (name : FileName) : Host :=
  (Fs.empty.set [fileName "etc"] (.dir 0o755)).set [fileName "etc", name] (.file [2] 0o600)

theorem unlucky_restorable : Restorable ⟨cstr "/", none⟩ unlucky (etcWith (fileName "hosts")) := by
  intro archive data harchive hdata _ _
  cases harchive
  cases hdata
  have hget : (etcWith (fileName "hosts")).get [fileName "etc"] = some (.dir 0o755) := by decide
  have hpieces : ∀ x ∈ Forest.pieces (.dir (fileName "etc") 0o755 (.leaf (fileName "motd") (.file [1] 0o644) .nil) .nil),
      x = ([fileName "etc"], .dir 0o755) ∨ x = ([fileName "etc", fileName "motd"], .leaf (.file [1] 0o644)) := by
    intro x hx
    simpa [Forest.pieces] using hx
  refine ⟨[], by decide, ⟨rfl, fun path m hmem t => ?_⟩, fun _ => ?_⟩
  · rcases hpieces _ hmem with h | h
    · cases h
      rw [List.nil_append, hget]; simp
    · cases h
  · rw [if_pos (by decide)]
    refine ⟨fun x hx => ?_, fun path home hpath => by cases hpath⟩
    rcases hpieces x hx with rfl | rfl
    · exact Or.inr ⟨⟨0o755, hget⟩, by decide⟩
    · show (etcWith (fileName "hosts")).get [fileName "etc", fileName "motd"] = none
      decide

theorem installInRoot_spares_hosts :
    (installInRoot ⟨cstr "/", none⟩ unlucky (cstr "a") (etcWith (fileName "hosts"))).ok = false ∧
      (installInRoot ⟨cstr "/", none⟩ unlucky (cstr "a") (etcWith (fileName "hosts"))).fs =
        etcWith (fileName "hosts") :=
  ⟨by decide, (installInRoot_restores _ _ _ _ (by decide)).1 unlucky_restorable⟩

theorem installInRoot_deletes_motd :
    (installInRoot ⟨cstr "/", none⟩ unlucky (cstr "a") (etcWith (fileName "motd"))).ok = false ∧
      (etcWith (fileName "motd")).get [fileName "etc", fileName "motd"] = some (.file [2] 0o600) ∧
      (installInRoot ⟨cstr "/", none⟩ unlucky (cstr "a") (etcWith (fileName "motd"))).fs.get
        [fileName "etc", fileName "motd"] = none := by
  decide

end Apg
