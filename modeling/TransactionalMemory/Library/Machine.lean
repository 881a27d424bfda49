import Mathlib.Data.List.Basic

/-!
# Labelled machines

A machine is a set of initial states and a labelled step relation. An interleaving of any number of
threads is a run of one machine whose labels say which thread moved. Runs grow at their end, so an
invariant is proved by induction on the last step.

A machine can be restricted to the runs whose steps all meet a condition, and observed by a recorder
that reads every step and never influences one. Both keep the reachable states of the machine they
are built from.
-/

namespace Concurrency

structure Machine (σ ℓ : Type*) where
  init : σ → Prop
  step : σ → ℓ → σ → Prop

namespace Machine

variable {σ ℓ ω : Type*} (M : Machine σ ℓ)

inductive Run (s : σ) : List ℓ → σ → Prop where
  | refl : Run s [] s
  | snoc {s' s'' : σ} {ls : List ℓ} {l : ℓ} (run : Run s ls s') (step : M.step s' l s'') :
      Run s (ls ++ [l]) s''

def Reachable (s : σ) : Prop := ∃ s₀ ls, M.init s₀ ∧ M.Run s₀ ls s

/-- The runs of `M` whose every step meets `ok`, a condition on the state before it and its
label. -/
def restrict (ok : σ → ℓ → Prop) : Machine σ ℓ where
  init := M.init
  step s l s' := ok s l ∧ M.step s l s'

/-- `M` with a recorder beside it: `next` sees the state before each step and the step's label. -/
def observe (start : ω) (next : σ → ℓ → ω → ω) : Machine (σ × ω) ℓ where
  init p := M.init p.1 ∧ p.2 = start
  step p l p' := M.step p.1 l p'.1 ∧ p'.2 = next p.1 l p.2

variable {M}

theorem Reachable.init {s : σ} (h : M.init s) : M.Reachable s := ⟨s, [], h, .refl⟩

theorem Reachable.step {s s' : σ} {l : ℓ} (h : M.Reachable s) (hstep : M.step s l s') :
    M.Reachable s' := by
  obtain ⟨s₀, ls, hinit, hrun⟩ := h
  exact ⟨s₀, ls ++ [l], hinit, hrun.snoc hstep⟩

theorem Reachable.run {s s' : σ} {ls : List ℓ} (h : M.Reachable s) (hrun : M.Run s ls s') :
    M.Reachable s' := by
  induction hrun with
  | refl => exact h
  | snoc _ hstep ih => exact ih.step hstep

/-- Where every step is a function, the labels can be followed in any order. -/
theorem Reachable.foldl {next : σ → ℓ → σ} (hnext : ∀ s l, M.step s l (next s l)) {s : σ}
    (h : M.Reachable s) (ls : List ℓ) : M.Reachable (ls.foldl next s) := by
  induction ls generalizing s with
  | nil => exact h
  | cons l ls ih => exact ih (h.step (hnext s l))

/-- **The invariant rule.** What holds initially and is kept by every step taken from a reachable
state holds in every reachable state. -/
theorem Reachable.invariant {P : σ → Prop} (hinit : ∀ s, M.init s → P s)
    (hstep : ∀ s l s', M.Reachable s → P s → M.step s l s' → P s') {s : σ}
    (h : M.Reachable s) : P s := by
  obtain ⟨s₀, ls, hs₀, hrun⟩ := h
  induction hrun with
  | refl => exact hinit _ hs₀
  | snoc run step ih => exact hstep _ _ _ ⟨_, _, hs₀, run⟩ ih step

theorem Run.of_restrict {ok : σ → ℓ → Prop} {s s' : σ} {ls : List ℓ}
    (h : (M.restrict ok).Run s ls s') : M.Run s ls s' := by
  induction h with
  | refl => exact .refl
  | snoc _ step ih => exact ih.snoc step.2

theorem Reachable.of_restrict {ok : σ → ℓ → Prop} {s : σ} (h : (M.restrict ok).Reachable s) :
    M.Reachable s := by
  obtain ⟨s₀, ls, hinit, hrun⟩ := h
  exact ⟨s₀, ls, hinit, hrun.of_restrict⟩

/-- A machine with more steps reaches no fewer states. -/
theorem Reachable.mono {M' : Machine σ ℓ} (hstep : ∀ s l s', M.step s l s' → M'.step s l s')
    (hinit : ∀ s, M.init s → M'.init s) {s : σ} (h : M.Reachable s) : M'.Reachable s :=
  h.invariant (fun s hs => .init (hinit s hs)) fun s l s' _ ih hs => ih.step (hstep s l s' hs)

/-- Where a map of states takes every step to a step, it takes runs to runs. -/
theorem Reachable.map {σ' : Type*} {M' : Machine σ' ℓ} (f : σ → σ')
    (hinit : ∀ s, M.init s → M'.init (f s))
    (hstep : ∀ s l s', M.step s l s' → M'.step (f s) l (f s')) {s : σ} (h : M.Reachable s) :
    M'.Reachable (f s) :=
  h.invariant (P := fun s => M'.Reachable (f s)) (fun s hs => .init (hinit s hs))
    fun s l s' _ ih hs => ih.step (hstep s l s' hs)

theorem Reachable.restrict_le {ok ok' : σ → ℓ → Prop} (hle : ∀ s l, ok s l → ok' s l) {s : σ}
    (h : (M.restrict ok).Reachable s) : (M.restrict ok').Reachable s := by
  have hstep : ∀ s l s', (M.restrict ok).step s l s' → (M.restrict ok').step s l s' :=
    fun s l s' hs => ⟨hle s l hs.1, hs.2⟩
  exact h.mono hstep fun _ hs => hs

theorem Reachable.of_observe {start : ω} {next : σ → ℓ → ω → ω} {p : σ × ω}
    (h : (M.observe start next).Reachable p) : M.Reachable p.1 := by
  obtain ⟨s₀, ls, hs₀, hrun⟩ := h
  induction hrun with
  | refl => exact .init hs₀.1
  | snoc _ hstep ih => exact ih.step hstep.1

theorem Reachable.of_restrict_observe {ok : σ → ℓ → Prop} {start : ω} {next : σ → ℓ → ω → ω}
    {p : σ × ω} (h : ((M.restrict ok).observe start next).Reachable p) :
    (M.observe start next).Reachable p := by
  have hstep : ∀ p l p', ((M.restrict ok).observe start next).step p l p' →
      (M.observe start next).step p l p' := fun p l p' hs => ⟨hs.1.2, hs.2⟩
  exact h.mono hstep fun _ hs => hs

/-- A recorder blocks nothing: every reachable state is reached with some record beside it. -/
theorem Reachable.exists_observe {s : σ} (h : M.Reachable s) (start : ω) (next : σ → ℓ → ω → ω) :
    ∃ o, (M.observe start next).Reachable (s, o) := by
  obtain ⟨s₀, ls, hs₀, hrun⟩ := h
  induction hrun with
  | refl => exact ⟨start, .init ⟨hs₀, rfl⟩⟩
  | @snoc s' s'' ls l _ hstep ih =>
      obtain ⟨o, ho⟩ := ih
      have hnext : (M.observe start next).step (s', o) l (s'', next s' l o) := ⟨hstep, rfl⟩
      exact ⟨_, ho.step hnext⟩

/-- A step that is allowed, with what the recorder makes of it. -/
theorem Reachable.step_observe {ok : σ → ℓ → Prop} {start : ω} {next : σ → ℓ → ω → ω} {s s' : σ}
    {l : ℓ} {o : ω} (h : ((M.restrict ok).observe start next).Reachable (s, o)) (hok : ok s l)
    (hstep : M.step s l s') : ((M.restrict ok).observe start next).Reachable (s', next s l o) := by
  have hnext : ((M.restrict ok).observe start next).step (s, o) l (s', next s l o) :=
    ⟨⟨hok, hstep⟩, rfl⟩
  exact h.step hnext

/-! ### What cannot be avoided -/

variable (M) in
/-- However `M` goes on, it comes to a state with `goal`: it neither stops before nor runs
forever. -/
inductive Inevitable (goal : σ → Prop) : σ → Prop where
  | now {s : σ} (h : goal s) : Inevitable goal s
  | later {s : σ} (hmove : ∃ l s', M.step s l s')
      (hnext : ∀ l s', M.step s l s' → Inevitable goal s') : Inevitable goal s

/-- A phase that `M` leaves only for `goal` and in which every step brings it closer. -/
theorem Reachable.inevitable {goal : σ → Prop} (phase : σ → Prop) (remaining : σ → Nat)
    (hmove : ∀ s, M.Reachable s → phase s → ¬ goal s → ∃ l s', M.step s l s')
    (hnext : ∀ s l s', M.Reachable s → phase s → ¬ goal s → M.step s l s' →
      phase s' ∧ remaining s' < remaining s)
    {s : σ} (h : M.Reachable s) (hs : phase s) : M.Inevitable goal s := by
  induction hn : remaining s using Nat.strongRecOn generalizing s with
  | ind n ih =>
      by_cases hgoal : goal s
      · exact .now hgoal
      · refine .later (hmove s h hs hgoal) fun l s' hstep => ?_
        obtain ⟨hs', hlt⟩ := hnext s l s' h hs hgoal hstep
        exact ih _ (hn ▸ hlt) (h.step hstep) hs' rfl

/-! ### Following a schedule -/

section Drive

variable {κ : Type*} (move : σ → κ → Option (ℓ × σ)) (allowed : σ → ℓ → Bool)
  (next : σ → ℓ → ω → ω)

def drive (p : σ × ω) : List κ → Option (σ × ω)
  | [] => some p
  | k :: ks =>
      match move p.1 k with
      | some (l, s') => if allowed p.1 l then drive (s', next p.1 l p.2) ks else none
      | none => none

variable {move allowed next}

theorem Reachable.drive {ok : σ → ℓ → Prop} {start : ω} {ks : List κ} {p p' : σ × ω}
    (hmove : ∀ s k l s', move s k = some (l, s') → M.step s l s')
    (hallowed : ∀ s l, allowed s l = true → ok s l)
    (h : ((M.restrict ok).observe start next).Reachable p)
    (hdrive : Machine.drive move allowed next p ks = some p') :
    ((M.restrict ok).observe start next).Reachable p' := by
  induction ks generalizing p with
  | nil =>
      obtain rfl := Option.some.inj hdrive
      exact h
  | cons k ks ih =>
      rw [Machine.drive] at hdrive
      split at hdrive
      · rename_i l s' hk
        split at hdrive
        · rename_i hok
          exact ih (h.step ⟨⟨hallowed _ _ hok, hmove _ _ _ _ hk⟩, rfl⟩) hdrive
        · cases hdrive
      · cases hdrive

end Drive

end Machine

end Concurrency
