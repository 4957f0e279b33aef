import Mathlib

/-!
# One at a time

Processes share a store. Whoever wants to change it takes a lock, and goes away when it
finds the lock taken; others only look on. A process can die at any moment; its lock goes
once nothing that it has started has the lock in hand any more.

* `Run.serial`: **the calls of all processes do to the store, and answer, what they would
  do if one process after the other came, made its calls and went away.**
* `Serial.run`: that is one of the orders of their steps.
-/

namespace Apg.Exclusive

/-- What the calls do: what a call answers, and what it makes of the caller's own part
and of the store. -/
structure Object (σ κ χ ρ : Type*) where
  /-- The own part of a process that has just got the lock. -/
  fresh : κ
  /-- That of a process that only looks on. -/
  onlooker : κ
  act : χ → κ → σ → Option (ρ × κ × σ)

/-- The same object, to those who make certain calls only. -/
def Object.only {σ κ χ ρ : Type*} (O : Object σ κ χ ρ) (P : χ → Prop) : Object σ κ {c : χ // P c} ρ :=
  ⟨O.fresh, O.onlooker, fun c => O.act c.1⟩

/-- Where a process is. One that has died with the lock is on its way out as long as
what it has started keeps the lock. -/
inductive Phase (κ : Type*)
  | away
  | asking
  | inside (own : κ)
  | leaving
  | watching (own : κ)

/-- The processes with their store. `log` notes the calls of those who hold the lock, with
the answers. -/
structure System (ι σ κ χ ρ : Type*) where
  store : σ
  holder : Option ι := none
  phase : ι → Phase κ := fun _ => .away
  log : List (χ × ρ) := []

variable {ι σ κ χ ρ : Type*} [DecidableEq ι]

def System.goes (s : System ι σ κ χ ρ) (i : ι) (phase : Phase κ) : System ι σ κ χ ρ :=
  { s with phase := Function.update s.phase i phase }

/-- **One step of one process.** -/
inductive Step (O : Object σ κ χ ρ) : System ι σ κ χ ρ → System ι σ κ χ ρ → Prop
  | ask {s : System ι σ κ χ ρ} {i : ι} : s.phase i = .away → Step O s (s.goes i .asking)
  | lock {s : System ι σ κ χ ρ} {i : ι} : s.phase i = .asking → s.holder = none →
      Step O s { s.goes i (.inside O.fresh) with holder := some i }
  | refused {s : System ι σ κ χ ρ} {i : ι} : s.phase i = .asking → Step O s (s.goes i .away)
  | call {s : System ι σ κ χ ρ} {i : ι} {c : χ} {k k' : κ} {r : ρ} {store : σ} : s.phase i = .inside k →
      O.act c k s.store = some (r, k', store) →
      Step O s { s.goes i (.inside k') with store := store, log := s.log ++ [(c, r)] }
  | leave {s : System ι σ κ χ ρ} {i : ι} {k : κ} : s.phase i = .inside k → Step O s (s.goes i .leaving)
  | unlock {s : System ι σ κ χ ρ} {i : ι} : s.phase i = .leaving → Step O s { s.goes i .away with holder := none }
  | watch {s : System ι σ κ χ ρ} {i : ι} : s.phase i = .away → Step O s (s.goes i (.watching O.onlooker))
  | look {s : System ι σ κ χ ρ} {i : ι} {c : χ} {k k' : κ} {r : ρ} {store : σ} : s.phase i = .watching k →
      O.act c k s.store = some (r, k', store) → Step O s { s.goes i (.watching k') with store := store }
  | die {s : System ι σ κ χ ρ} (i : ι) : Step O s (s.goes i (if s.holder = some i then .leaving else .away))

/-- **The processes in any order of their steps**, from a store nobody has come to. -/
def Run (O : Object σ κ χ ρ) (store : σ) : System ι σ κ χ ρ → Prop := Relation.ReflTransGen (Step O) { store := store }

/-! ## One after the other -/

/-- A process makes calls, and nobody else does. -/
inductive Calls (O : Object σ κ χ ρ) (k₀ : κ) (s₀ : σ) : List (χ × ρ) → κ → σ → Prop
  | nil : Calls O k₀ s₀ [] k₀ s₀
  | snoc {calls : List (χ × ρ)} {k k' : κ} {s s' : σ} {c : χ} {r : ρ} : Calls O k₀ s₀ calls k s →
      O.act c k s = some (r, k', s') → Calls O k₀ s₀ (calls ++ [(c, r)]) k' s'

/-- Processes come one after the other, each with the calls listed for it. -/
inductive Serial (O : Object σ κ χ ρ) (s₀ : σ) : List (List (χ × ρ)) → σ → Prop
  | nil : Serial O s₀ [] s₀
  | snoc {sessions : List (List (χ × ρ))} {calls : List (χ × ρ)} {s s' : σ} {k : κ} : Serial O s₀ sessions s →
      Calls O O.fresh s calls k s' → Serial O s₀ (sessions ++ [calls]) s'

/-- What the calls of one process keep holds after them. -/
theorem Calls.keeps {O : Object σ κ χ ρ} {k₀ k : κ} {s₀ s : σ} {calls : List (χ × ρ)} {J : κ → σ → Prop}
    (hcall : ∀ c k s r k' s', J k s → O.act c k s = some (r, k', s') → J k' s') (h₀ : J k₀ s₀)
    (h : Calls O k₀ s₀ calls k s) : J k s := by
  induction h with
  | nil => exact h₀
  | snoc _ hact ih => exact hcall _ _ _ _ _ _ ih hact

/-- What every call keeps holds after processes one after the other. -/
theorem Serial.keeps {O : Object σ κ χ ρ} {s₀ s : σ} {sessions : List (List (χ × ρ))} {I : σ → Prop} {J : κ → σ → Prop}
    (hcome : ∀ s, I s → J O.fresh s) (hcall : ∀ c k s r k' s', J k s → O.act c k s = some (r, k', s') → J k' s')
    (hgo : ∀ k s, J k s → I s) (h₀ : I s₀) (h : Serial O s₀ sessions s) : I s := by
  induction h with
  | nil => exact h₀
  | snoc _ hcalls ih => exact hgo _ _ (hcalls.keeps hcall (hcome _ ih))

/-- Onlookers change nothing. -/
structure Harmless (O : Object σ κ χ ρ) (Q : κ → Prop) : Prop where
  onlooker : Q O.onlooker
  act : ∀ c k s r k' s', Q k → O.act c k s = some (r, k', s') → Q k' ∧ s' = s

theorem Harmless.only {O : Object σ κ χ ρ} {Q : κ → Prop} (h : Harmless O Q) (P : χ → Prop) : Harmless (O.only P) Q :=
  ⟨h.onlooker, fun c => h.act c.1⟩

/-- What is known of a system: who holds the lock is inside or about to let go of it, and
what is in the store came about one process after the other, the last one being the
one inside. -/
structure Ordered (O : Object σ κ χ ρ) (Q : κ → Prop) (s₀ : σ) (s : System ι σ κ χ ρ) : Prop where
  holds : ∀ i, s.holder = some i ↔ (∃ k, s.phase i = .inside k) ∨ s.phase i = .leaving
  quiet : ∀ i k, s.phase i = .watching k → Q k
  serial : ∃ sessions store calls k, Serial O s₀ sessions store ∧ Calls O O.fresh store calls k s.store ∧
    (sessions ++ [calls]).flatten = s.log ∧ ∀ i own, s.phase i = .inside own → own = k

section

variable {O : Object σ κ χ ρ} {Q : κ → Prop} {s₀ : σ} {s s' : System ι σ κ χ ρ}

@[simp] theorem System.goes_same (s : System ι σ κ χ ρ) (i : ι) (phase : Phase κ) : (s.goes i phase).phase i = phase := by
  simp [System.goes]

theorem System.goes_other (s : System ι σ κ χ ρ) {i j : ι} (h : j ≠ i) (phase : Phase κ) :
    (s.goes i phase).phase j = s.phase j := by
  simp [System.goes, h]

omit [DecidableEq ι] in
theorem ordered_start : Ordered O Q s₀ ({ store := s₀ } : System ι σ κ χ ρ) where
  holds i := by simp
  quiet i k h := by cases h
  serial := ⟨[], s₀, [], O.fresh, .nil, .nil, rfl, fun i own h => by cases h⟩

/-- A process goes somewhere else without the lock. -/
theorem Ordered.moves (h : Ordered O Q s₀ s) {i : ι} {phase : Phase κ} (hout : s.holder ≠ some i)
    (hno : (∀ k, phase ≠ .inside k) ∧ phase ≠ .leaving) (hquiet : ∀ k, phase = .watching k → Q k) :
    Ordered O Q s₀ (s.goes i phase) := by
  refine ⟨fun j => ?_, fun j k hj => ?_, ?_⟩
  · by_cases hji : j = i
    · subst hji
      rw [System.goes_same]
      refine iff_of_false hout ?_
      rintro (⟨k, hk⟩ | hl)
      · exact hno.1 k hk
      · exact hno.2 hl
    · rw [System.goes_other _ hji]
      exact h.holds j
  · by_cases hji : j = i
    · subst hji
      rw [System.goes_same] at hj
      exact hquiet k hj
    · rw [System.goes_other _ hji] at hj
      exact h.quiet j k hj
  · obtain ⟨sessions, store, calls, k, hserial, hcalls, hlog, hown⟩ := h.serial
    refine ⟨sessions, store, calls, k, hserial, hcalls, hlog, fun j own hj => ?_⟩
    by_cases hji : j = i
    · subst hji
      rw [System.goes_same] at hj
      exact absurd hj (hno.1 own)
    · rw [System.goes_other _ hji] at hj
      exact hown j own hj

omit [DecidableEq ι] in
/-- Nobody but the holder is inside or leaving. -/
theorem Ordered.others_out (h : Ordered O Q s₀ s) {i j : ι} (hi : s.holder = some i) (hji : j ≠ i) :
    (∀ k, s.phase j ≠ .inside k) ∧ s.phase j ≠ .leaving := by
  have hj : s.holder ≠ some j := by
    rw [hi]
    exact fun he => hji (Option.some.inj he).symm
  rw [Ne, h.holds, not_or, not_exists] at hj
  exact hj

omit [DecidableEq ι] in
theorem Ordered.outside (h : Ordered O Q s₀ s) {i : ι} (hin : ∀ k, s.phase i ≠ .inside k) (hl : s.phase i ≠ .leaving) :
    s.holder ≠ some i := by
  rw [Ne, h.holds, not_or, not_exists]
  exact ⟨hin, hl⟩

/-- The holder lets go of the lock. -/
theorem Ordered.released (h : Ordered O Q s₀ s) {i : ι} (hi : s.holder = some i) :
    Ordered O Q s₀ { s.goes i .away with holder := none } := by
  have hout : ∀ j, (∀ k, (s.goes i .away).phase j ≠ .inside k) ∧ (s.goes i .away).phase j ≠ .leaving := by
    intro j
    by_cases hji : j = i
    · subst hji
      simp
    · rw [System.goes_other _ hji]
      exact h.others_out hi hji
  refine ⟨fun j => ?_, fun j k hj => ?_, ?_⟩
  · refine iff_of_false (by simp) ?_
    rintro (⟨k, hk⟩ | hl)
    · exact (hout j).1 k hk
    · exact (hout j).2 hl
  · by_cases hji : j = i
    · subst hji
      simp at hj
    · exact h.quiet j k (by simpa [System.goes_other _ hji] using hj)
  · obtain ⟨sessions, store, calls, k, hserial, hcalls, hlog, -⟩ := h.serial
    exact ⟨sessions, store, calls, k, hserial, hcalls, hlog, fun j own hj => absurd hj ((hout j).1 own)⟩

/-- The holder goes on, or is about to let go. -/
theorem Ordered.holding (h : Ordered O Q s₀ s) {i : ι} {phase : Phase κ} {store : σ} {log : List (χ × ρ)}
    (hi : s.holder = some i) (hin : (∃ k, phase = .inside k) ∨ phase = .leaving)
    (hserial : ∃ sessions before calls k, Serial O s₀ sessions before ∧ Calls O O.fresh before calls k store ∧
      (sessions ++ [calls]).flatten = log ∧ ∀ own, phase = .inside own → own = k) :
    Ordered O Q s₀ { s.goes i phase with store := store, log := log } := by
  refine ⟨fun j => ?_, fun j q hj => ?_, ?_⟩
  · show s.holder = some j ↔ _
    by_cases hji : j = i
    · subst hji
      rw [System.goes_same]
      exact iff_of_true hi hin
    · rw [System.goes_other _ hji]
      exact h.holds j
  · replace hj : (s.goes i phase).phase j = .watching q := hj
    by_cases hji : j = i
    · subst hji
      rw [System.goes_same] at hj
      rcases hin with ⟨k, rfl⟩ | rfl <;> cases hj
    · rw [System.goes_other _ hji] at hj
      exact h.quiet j q hj
  · obtain ⟨sessions, before, calls, k, hserial, hcalls, hlog, hown⟩ := hserial
    refine ⟨sessions, before, calls, k, hserial, hcalls, hlog, fun j q hj => ?_⟩
    replace hj : (s.goes i phase).phase j = .inside q := hj
    by_cases hji : j = i
    · subst hji
      rw [System.goes_same] at hj
      exact hown q hj
    · rw [System.goes_other _ hji] at hj
      exact absurd hj ((h.others_out hi hji).1 q)

/-- **Every step keeps the order.** -/
theorem Ordered.step (hO : Harmless O Q) (h : Ordered O Q s₀ s) (hs : Step O s s') : Ordered O Q s₀ s' := by
  cases hs with
  | ask hi => exact h.moves (h.outside (by simp [hi]) (by simp [hi])) (by simp) (by simp)
  | refused hi => exact h.moves (h.outside (by simp [hi]) (by simp [hi])) (by simp) (by simp)
  | watch hi =>
    refine h.moves (h.outside (by simp [hi]) (by simp [hi])) (by simp) fun k hk => ?_
    cases hk
    exact hO.onlooker
  | look hi hact =>
    obtain ⟨hq, rfl⟩ := hO.act _ _ _ _ _ _ (h.quiet _ _ hi) hact
    refine h.moves (h.outside (by simp [hi]) (by simp [hi])) (by simp) fun k hk => ?_
    cases hk
    exact hq
  | @unlock i hi => exact h.released ((h.holds i).2 (Or.inr hi))
  | die i =>
    by_cases hi : s.holder = some i
    · rw [if_pos hi]
      obtain ⟨sessions, before, calls, own, hserial, hcalls, hlog, -⟩ := h.serial
      exact h.holding hi (Or.inr rfl) ⟨sessions, before, calls, own, hserial, hcalls, hlog, fun q hq => by cases hq⟩
    · rw [if_neg hi]
      exact h.moves hi (by simp) (by simp)
  | @lock i hi hnone =>
    have hout : ∀ j, (∀ k, s.phase j ≠ .inside k) ∧ s.phase j ≠ .leaving := by
      intro j
      have hj : s.holder ≠ some j := by simp [hnone]
      rw [Ne, h.holds, not_or, not_exists] at hj
      exact hj
    refine ⟨fun j => ?_, fun j k hj => ?_, ?_⟩
    · by_cases hji : j = i
      · subst hji
        simp
      · have hne : ¬ i = j := fun he => hji he.symm
        simpa [System.goes_other _ hji, hne] using hout j
    · by_cases hji : j = i
      · subst hji
        simp at hj
      · exact h.quiet j k (by simpa [System.goes_other _ hji] using hj)
    · -- the session before is over, and a new one begins
      obtain ⟨sessions, store, calls, k, hserial, hcalls, hlog, -⟩ := h.serial
      refine ⟨sessions ++ [calls], s.store, [], O.fresh, hserial.snoc hcalls, .nil, ?_, ?_⟩
      · rw [List.flatten_concat, List.append_nil, hlog]
        rfl
      intro j own hj
      by_cases hji : j = i
      · subst hji
        simpa using hj.symm
      · exact absurd (by simpa [System.goes_other _ hji] using hj) ((hout j).1 own)
  | @call i c k k' r store hi hact =>
    obtain ⟨sessions, before, calls, own, hserial, hcalls, hlog, hown⟩ := h.serial
    obtain rfl := hown i k hi
    refine h.holding ((h.holds i).2 (Or.inl ⟨k, hi⟩)) (Or.inl ⟨k', rfl⟩)
      ⟨sessions, before, calls ++ [(c, r)], k', hserial, hcalls.snoc hact, ?_, fun q hq => ?_⟩
    · rw [← hlog]
      simp
    · cases hq
      rfl
  | @leave i k hi =>
    obtain ⟨sessions, before, calls, own, hserial, hcalls, hlog, -⟩ := h.serial
    exact h.holding ((h.holds i).2 (Or.inl ⟨k, hi⟩)) (Or.inr rfl)
      ⟨sessions, before, calls, own, hserial, hcalls, hlog, fun q hq => by cases hq⟩

theorem Run.ordered (hO : Harmless O Q) (h : Run O s₀ s) : Ordered O Q s₀ s := by
  induction h with
  | refl => exact ordered_start
  | tail _ hs ih => exact ih.step hO hs

/-- **Any order of the steps does what one process after the other does.** -/
theorem Run.serial (hO : Harmless O Q) (h : Run O s₀ s) :
    ∃ sessions, Serial O s₀ sessions s.store ∧ sessions.flatten = s.log := by
  obtain ⟨sessions, store, calls, k, hserial, hcalls, hlog, -⟩ := (h.ordered hO).serial
  exact ⟨sessions ++ [calls], hserial.snoc hcalls, hlog⟩

/-- A process that is inside makes its calls. -/
theorem Run.calls {calls : List (χ × ρ)} {k k' : κ} {store : σ} {i : ι} (hrun : Run O s₀ s) (hi : s.phase i = .inside k)
    (h : Calls O k s.store calls k' store) :
    Run O s₀ { s.goes i (.inside k') with store := store, log := s.log ++ calls } := by
  induction h with
  | nil =>
    have hsame : { s.goes i (.inside k) with store := s.store, log := s.log ++ [] } = s := by
      have hphase : Function.update s.phase i (.inside k) = s.phase := by rw [← hi, Function.update_eq_self]
      simp only [System.goes, hphase, List.append_nil]
    rwa [hsame]
  | @snoc calls k₁ k₂ s₁ s₂ c r _ hact ih =>
    refine ih.tail ?_
    have hstep := Step.call (O := O) (s := { s.goes i (.inside k₁) with store := s₁, log := s.log ++ calls }) (i := i)
      (by simp) hact
    simpa [System.goes] using hstep

/-- **One after the other is one of the orders.** -/
theorem Serial.run {sessions : List (List (χ × ρ))} {store : σ} (i : ι) (h : Serial O s₀ sessions store) :
    ∃ s : System ι σ κ χ ρ, Run O s₀ s ∧ s.store = store ∧ s.log = sessions.flatten ∧ s.holder = none ∧
      s.phase i = .away := by
  induction h with
  | nil => exact ⟨{ store := s₀ }, .refl, rfl, rfl, rfl, rfl⟩
  | snoc _ hcalls ih =>
    obtain ⟨s, hrun, rfl, hlog, hholder, hi⟩ := ih
    have hask := hrun.tail (Step.ask hi)
    have hlock := hask.tail (Step.lock (System.goes_same s i .asking) hholder)
    have hmade := Run.calls hlock (System.goes_same _ i _) hcalls
    have hleave := hmade.tail (Step.leave (System.goes_same _ i _))
    refine ⟨_, hleave.tail (Step.unlock (System.goes_same _ i _)), rfl, ?_, rfl, by simp⟩
    simp [System.goes, hlog]

/-- What holds of the store of whoever comes, is kept by the calls and left behind by whoever
goes, holds in any order of the steps. -/
theorem Run.keeps {I : σ → Prop} (J : κ → σ → Prop) (hO : Harmless O Q) (hcome : ∀ s, I s → J O.fresh s)
    (hcall : ∀ c k s r k' s', J k s → O.act c k s = some (r, k', s') → J k' s') (hgo : ∀ k s, J k s → I s) (h₀ : I s₀)
    (h : Run O s₀ s) : I s.store := by
  obtain ⟨sessions, hserial, -⟩ := h.serial hO
  exact hserial.keeps hcome hcall hgo h₀

end

end Apg.Exclusive
