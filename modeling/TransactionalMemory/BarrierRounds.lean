import TransactionalMemory.Library.Census
import TransactionalMemory.Model.Barrier

/-!
# Rounds of the barrier

One counter and one mode serve all rounds. A round goes through four phases: the threads gather, the
last one finds the counter full, they are released, the last one of these finds the counter empty. A
thread that is still waiting for the end of the last round when the next one gathers keeps the
counter from becoming full, so it never misses the mode it waits for.
-/

namespace TransactionalMemory.Grading

open Concurrency

variable {Tid : Type} [DecidableEq Tid] {w : Nat}

structure SyncRecord (Tid : Type) where
  entered : Tid → Nat
  returned : Tid → Nat

def recordSync (b : Barrier Tid w) (tid : Tid) (r : SyncRecord Tid) : SyncRecord Tid where
  entered :=
    if b.point tid = .outside then Function.update r.entered tid (r.entered tid + 1) else r.entered
  returned :=
    if b.point tid ≠ .outside ∧ (b.sync tid).point tid = .outside then
      Function.update r.returned tid (r.returned tid + 1)
    else r.returned

def roundMachine (Tid : Type) [DecidableEq Tid] [Fintype Tid] (w : Nat) :
    Machine (Barrier Tid w × SyncRecord Tid) Tid :=
  (barrierMachine Tid w).observe ⟨fun _ => 0, fun _ => 0⟩ recordSync

/-- The next step of the thread leads nowhere. -/
def Barrier.Spins (b : Barrier Tid w) (tid : Tid) : Prop := b.sync tid = b

/-- A thread spins in one of the two loops, where the exit condition is false. -/
theorem Barrier.spins_iff {b : Barrier Tid w} {tid : Tid} : b.Spins tid ↔
    b.point tid = .waitLeave ∧ b.mode ≠ .leave ∨ b.point tid = .waitEnter ∧ b.mode ≠ .enter := by
  constructor
  · intro h
    have hpoint : (b.sync tid).point tid = b.point tid := congrArg (fun b => b.point tid) h
    cases hat : b.point tid with
    | outside | storeLeave | storeEnter => simp [sync, goto, hat] at hpoint
    | fetchAdd | fetchSub =>
        simp only [sync, goto, hat] at hpoint
        split at hpoint <;> simp at hpoint
    | waitLeave =>
        refine .inl ⟨rfl, fun hmode => ?_⟩
        simp [sync, goto, hat, hmode] at hpoint
    | waitEnter =>
        refine .inr ⟨rfl, fun hmode => ?_⟩
        simp [sync, goto, hat, hmode] at hpoint
  · rintro (⟨hat, hmode⟩ | ⟨hat, hmode⟩) <;> simp [Spins, sync, hat, hmode]

/-- What a barrier is for. -/
structure Synchronizes [Fintype Tid] (b : Barrier Tid w) (r : SyncRecord Tid) : Prop where
  /-- Nobody has left a call that somebody has not entered. -/
  together : ∀ t u, r.returned t ≤ r.entered u
  step_le : b.step.toNat ≤ Fintype.card Tid
  /-- The counter does not wrap around, in neither direction. -/
  step_lt : ∀ t, b.point t = .fetchAdd → b.step.toNat < Fintype.card Tid
  step_pos : ∀ t, b.point t = .fetchSub → 0 < b.step.toNat
  rested : (∀ t, b.point t = .outside) → b.step = 0 ∧ b.mode = .enter
  live : ¬ ∀ t, b.Spins t

/-! ### Phases -/

inductive Phase where
  | gather
  | full
  | release
  | empty

def Phase.mode : Phase → Mode
  | .gather | .full => .enter
  | .release | .empty => .leave

def SyncPoint.Counted (point : SyncPoint) : Prop :=
  point = .storeLeave ∨ point = .waitLeave ∨ point = .fetchSub

instance (point : SyncPoint) : Decidable point.Counted :=
  inferInstanceAs (Decidable (_ ∨ _ ∨ _))

/-- Where a thread may stand in round `n`, and how often it has entered and left then. -/
def Phase.Allows (n entered returned : Nat) : Phase → SyncPoint → Prop
  | .gather, .outside => entered = n ∧ returned = n
  | .gather, .fetchAdd | .gather, .waitLeave => entered = n + 1 ∧ returned = n
  | .gather, .waitEnter => entered = n ∧ returned + 1 = n
  | .full, .storeLeave | .full, .waitLeave | .release, .waitLeave | .release, .fetchSub
  | .release, .waitEnter | .empty, .storeEnter | .empty, .waitEnter =>
      entered = n + 1 ∧ returned = n
  | _, _ => False

variable [Fintype Tid]

def Phase.Size (point : Tid → SyncPoint) : Phase → Prop
  | .gather => census SyncPoint.Counted point < Fintype.card Tid
  | .full => census (fun point => point = .storeLeave) point = 1
  | .release => 0 < census SyncPoint.Counted point
  | .empty => census (fun point => point = .storeEnter) point = 1

structure InPhase (phase : Phase) (n : Nat) (b : Barrier Tid w) (r : SyncRecord Tid) : Prop where
  cardinal : b.cardinal = BitVec.ofNat w (Fintype.card Tid)
  mode : b.mode = phase.mode
  step : b.step = BitVec.ofNat w (census SyncPoint.Counted b.point)
  size : phase.Size b.point
  threads : ∀ t, phase.Allows n (r.entered t) (r.returned t) (b.point t)

section Steps

variable {phase phase' : Phase} {n n' : Nat} {b : Barrier Tid w} {r : SyncRecord Tid} {tid : Tid}

omit [Fintype Tid] in
theorem threads_update {x : SyncPoint} {r' : SyncRecord Tid}
    (hself : phase'.Allows n' (r'.entered tid) (r'.returned tid) x)
    (hothers : ∀ t, t ≠ tid → r'.entered t = r.entered t ∧ r'.returned t = r.returned t ∧
      phase'.Allows n' (r.entered t) (r.returned t) (b.point t)) :
    ∀ t, phase'.Allows n' (r'.entered t) (r'.returned t) (Function.update b.point tid x t) := by
  intro t
  by_cases ht : t = tid
  · subst ht
    rwa [Function.update_self]
  · obtain ⟨hentered, hreturned, hallows⟩ := hothers t ht
    rwa [Function.update_of_ne ht, hentered, hreturned]

omit [Fintype Tid] in
theorem recordSync_outside (h : b.point tid = .outside) : recordSync b tid r =
    { r with entered := Function.update r.entered tid (r.entered tid + 1) } := by
  simp [recordSync, h]

omit [Fintype Tid] in
theorem recordSync_inside (h : b.point tid ≠ .outside) (h' : (b.sync tid).point tid ≠ .outside) :
    recordSync b tid r = r := by
  simp [recordSync, h, h']

omit [Fintype Tid] in
theorem recordSync_returned (h : b.point tid ≠ .outside) (h' : (b.sync tid).point tid = .outside) :
    recordSync b tid r =
      { r with returned := Function.update r.returned tid (r.returned tid + 1) } := by
  simp [recordSync, h, h']

/-! ### One step of each kind -/

theorem InPhase.outside (h : InPhase phase n b r) (ht : b.point tid = .outside) :
    InPhase phase n (b.sync tid) (recordSync b tid r) := by
  have hallows := h.threads tid
  rw [ht] at hallows
  rw [Barrier.sync, ht, recordSync_outside ht]
  cases phase with
  | gather =>
      have hcensus : census SyncPoint.Counted (Function.update b.point tid .fetchAdd) =
          census SyncPoint.Counted b.point := census_keep (by simp [ht, SyncPoint.Counted])
      have hsize : census SyncPoint.Counted b.point < Fintype.card Tid := h.size
      refine ⟨h.cardinal, h.mode, ?_, ?_, threads_update (r := r) ?_ fun t htid => ?_⟩
      · exact h.step.trans (congrArg _ hcensus.symm)
      · exact hcensus.trans_lt hsize
      · simpa [Phase.Allows] using hallows
      · exact ⟨Function.update_of_ne htid .., rfl, h.threads t⟩
  | full | release | empty => exact hallows.elim

theorem InPhase.fetchAdd (hw : Fintype.card Tid < 2 ^ w) (h : InPhase phase n b r)
    (ht : b.point tid = .fetchAdd) :
    ∃ phase', InPhase phase' n (b.sync tid) (recordSync b tid r) := by
  have hallows := h.threads tid
  rw [ht] at hallows
  cases phase with
  | gather =>
      have hsize : census SyncPoint.Counted b.point < Fintype.card Tid := h.size
      have hout : ¬ (b.point tid).Counted := by simp [ht, SyncPoint.Counted]
      have hlast : b.step + 1 = b.cardinal ↔
          census SyncPoint.Counted b.point + 1 = Fintype.card Tid := by
        rw [h.step, h.cardinal, ofNat_add_one, ofNat_inj (by omega) hw]
      have hstep : ∀ x : SyncPoint, x.Counted → b.step + 1 =
          BitVec.ofNat w (census SyncPoint.Counted (Function.update b.point tid x)) := by
        intro x hx
        rw [census_enter hout hx, h.step, ofNat_add_one]
      by_cases hfull : b.step + 1 = b.cardinal
      · have hcounted := forall_of_census_add_one hout (hlast.mp hfull)
        have hsync : b.sync tid = { b with step := b.step + 1 }.goto tid .storeLeave := by
          simp only [Barrier.sync, ht, if_pos hfull]
        rw [recordSync_inside (by simp [ht]) (by simp [hsync, Barrier.goto]), hsync]
        refine ⟨.full, h.cardinal, h.mode, hstep _ (.inl rfl), ?_,
          threads_update ?_ fun t htid => ⟨rfl, rfl, ?_⟩⟩
        · refine census_first (p := (· = SyncPoint.storeLeave)) (fun t hleave => ?_) rfl
          have hgathered := h.threads t
          rwa [hleave] at hgathered
        · exact hallows
        · have hgathered := h.threads t
          rcases hcounted t htid with hpoint | hpoint | hpoint <;> rw [hpoint] at hgathered ⊢
          · exact hgathered.elim
          · exact hgathered
          · exact hgathered.elim
      · have hsync : b.sync tid = { b with step := b.step + 1 }.goto tid .waitLeave := by
          simp only [Barrier.sync, ht, if_neg hfull]
        rw [recordSync_inside (by simp [ht]) (by simp [hsync, Barrier.goto]), hsync]
        refine ⟨.gather, h.cardinal, h.mode, hstep _ (.inr (.inl rfl)), ?_,
          threads_update hallows fun t _ => ⟨rfl, rfl, h.threads t⟩⟩
        have hnotFull := mt hlast.mpr hfull
        have hless : census SyncPoint.Counted (Function.update b.point tid .waitLeave) <
            Fintype.card Tid := by
          rw [census_enter hout (.inr (.inl rfl))]
          omega
        exact hless
  | full | release | empty => exact hallows.elim

theorem InPhase.storeLeave (h : InPhase phase n b r) (ht : b.point tid = .storeLeave) :
    InPhase .release n (b.sync tid) (recordSync b tid r) := by
  have hallows := h.threads tid
  rw [ht] at hallows
  have hsync : b.sync tid = { b with mode := .leave }.goto tid .fetchSub := by
    simp only [Barrier.sync, ht]
  rw [recordSync_inside (by simp [ht]) (by simp [hsync, Barrier.goto]), hsync]
  cases phase with
  | full =>
      have honly := forall_not_of_census_one (p := (· = SyncPoint.storeLeave)) ht h.size
      have hcensus : census SyncPoint.Counted (Function.update b.point tid .fetchSub) =
          census SyncPoint.Counted b.point := census_keep (by simp [ht, SyncPoint.Counted])
      have hpos : 0 < census SyncPoint.Counted (Function.update b.point tid .fetchSub) :=
        (census_pos _).mpr ⟨tid, by simp [SyncPoint.Counted]⟩
      refine ⟨h.cardinal, rfl, ?_, hpos, threads_update hallows fun t htid => ⟨rfl, rfl, ?_⟩⟩
      · exact h.step.trans (congrArg _ hcensus.symm)
      · have hstored := h.threads t
        have hother := honly t htid
        cases hpoint : b.point t <;> rw [hpoint] at hstored hother
        case storeLeave => exact (hother rfl).elim
        case waitLeave => exact hstored
        all_goals exact hstored.elim
  | gather | release | empty => exact hallows.elim

theorem InPhase.waitLeave (h : InPhase phase n b r) (ht : b.point tid = .waitLeave) :
    InPhase phase n (b.sync tid) (recordSync b tid r) := by
  have hallows := h.threads tid
  rw [ht] at hallows
  have hmode := h.mode
  by_cases hleave : b.mode = .leave
  · have hsync : b.sync tid = b.goto tid .fetchSub := by
      simp only [Barrier.sync, ht, ne_eq, hleave, not_true_eq_false, if_false]
    rw [recordSync_inside (by simp [ht]) (by simp [hsync, Barrier.goto]), hsync]
    have hcensus : census SyncPoint.Counted (Function.update b.point tid .fetchSub) =
        census SyncPoint.Counted b.point := census_keep (by simp [ht, SyncPoint.Counted])
    cases phase with
    | release =>
        have hpos : 0 < census SyncPoint.Counted b.point := h.size
        exact ⟨h.cardinal, hmode, h.step.trans (congrArg _ hcensus.symm),
          hpos.trans_eq hcensus.symm, threads_update hallows fun t _ => ⟨rfl, rfl, h.threads t⟩⟩
    | gather | full => rw [hleave] at hmode; cases hmode
    | empty => exact hallows.elim
  · have hsync : b.sync tid = b := by
      simp only [Barrier.sync, ht, ne_eq, hleave, not_false_eq_true, if_true]
    rwa [recordSync_inside (by simp [ht]) (by simp [hsync, ht]), hsync]

theorem InPhase.fetchSub (hw : Fintype.card Tid < 2 ^ w) (h : InPhase phase n b r)
    (ht : b.point tid = .fetchSub) :
    ∃ phase', InPhase phase' n (b.sync tid) (recordSync b tid r) := by
  have hallows := h.threads tid
  rw [ht] at hallows
  cases phase with
  | release =>
      have hin : (b.point tid).Counted := .inr (.inr ht)
      have hmove : ∀ x : SyncPoint, ¬ x.Counted → b.step - 1 =
          BitVec.ofNat w (census SyncPoint.Counted (Function.update b.point tid x)) := by
        intro x hx
        rw [h.step, ← census_leave hin hx, ofNat_add_one_sub]
      have hlast : ∀ x : SyncPoint, ¬ x.Counted → (b.step - 1 = 0 ↔
          census SyncPoint.Counted (Function.update b.point tid x) = 0) := by
        intro x hx
        have hle := census_le SyncPoint.Counted (Function.update b.point tid x)
        rw [hmove x hx]
        exact ofNat_inj (d := 0) (by omega) (by omega)
      by_cases hempty : b.step - 1 = 0
      · have hsync : b.sync tid = { b with step := b.step - 1 }.goto tid .storeEnter := by
          simp only [Barrier.sync, ht, if_pos hempty]
        rw [recordSync_inside (by simp [ht]) (by simp [hsync, Barrier.goto]), hsync]
        have hout : ¬ SyncPoint.storeEnter.Counted := by simp [SyncPoint.Counted]
        have hnone := (census_eq_zero _).mp ((hlast _ hout).mp hempty)
        refine ⟨.empty, h.cardinal, h.mode, hmove _ hout, ?_,
          threads_update hallows fun t htid => ⟨rfl, rfl, ?_⟩⟩
        · refine census_first (p := (· = SyncPoint.storeEnter)) (fun t henter => ?_) rfl
          have hreleased := h.threads t
          rwa [henter] at hreleased
        · have hreleased := h.threads t
          have hother := hnone t
          rw [Function.update_of_ne htid] at hother
          cases hpoint : b.point t <;> rw [hpoint] at hreleased hother
          case waitEnter => exact hreleased
          case waitLeave => exact (hother (.inr (.inl rfl))).elim
          case fetchSub => exact (hother (.inr (.inr rfl))).elim
          all_goals exact hreleased.elim
      · have hsync : b.sync tid = { b with step := b.step - 1 }.goto tid .waitEnter := by
          simp only [Barrier.sync, ht, if_neg hempty]
        rw [recordSync_inside (by simp [ht]) (by simp [hsync, Barrier.goto]), hsync]
        have hout : ¬ SyncPoint.waitEnter.Counted := by simp [SyncPoint.Counted]
        have hpos : 0 < census SyncPoint.Counted (Function.update b.point tid .waitEnter) :=
          Nat.pos_of_ne_zero (mt (hlast _ hout).mpr hempty)
        exact ⟨.release, h.cardinal, h.mode, hmove _ hout, hpos,
          threads_update hallows fun t _ => ⟨rfl, rfl, h.threads t⟩⟩
  | gather | full | empty => exact hallows.elim

theorem InPhase.storeEnter (h : InPhase phase n b r) (ht : b.point tid = .storeEnter) :
    InPhase .gather (n + 1) (b.sync tid) (recordSync b tid r) := by
  have hallows := h.threads tid
  rw [ht] at hallows
  have hsync : b.sync tid = { b with mode := .enter }.goto tid .outside := by
    simp only [Barrier.sync, ht]
  rw [recordSync_returned (by simp [ht]) (by simp [hsync, Barrier.goto]), hsync]
  cases phase with
  | empty =>
      have honly := forall_not_of_census_one (p := (· = SyncPoint.storeEnter)) ht h.size
      have hothers : ∀ t, t ≠ tid → b.point t = .waitEnter := by
        intro t htid
        have hwaits := h.threads t
        have hother := honly t htid
        cases hpoint : b.point t <;> rw [hpoint] at hwaits hother
        case storeEnter => exact (hother rfl).elim
        all_goals exact hwaits.elim
      have hcensus : census SyncPoint.Counted (Function.update b.point tid .outside) =
          census SyncPoint.Counted b.point := census_keep (by simp [ht, SyncPoint.Counted])
      have hnone : census SyncPoint.Counted b.point = 0 := by
        refine (census_eq_zero _).mpr fun t => ?_
        by_cases htid : t = tid
        · simp [htid, ht, SyncPoint.Counted]
        · simp [hothers t htid, SyncPoint.Counted]
      have hless : census SyncPoint.Counted (Function.update b.point tid .outside) <
          Fintype.card Tid := by
        rw [hcensus, hnone]
        exact Fintype.card_pos_iff.mpr ⟨tid⟩
      refine ⟨h.cardinal, rfl, h.step.trans (congrArg _ hcensus.symm), hless,
        threads_update (r := r) ?_ fun t htid => ⟨rfl, Function.update_of_ne htid .., ?_⟩⟩
      · simpa [Phase.Allows] using hallows
      · have hwaits := h.threads t
        rw [hothers t htid] at hwaits ⊢
        exact ⟨hwaits.1, congrArg (· + 1) hwaits.2⟩
  | gather | full | release => exact hallows.elim

theorem InPhase.waitEnter (h : InPhase phase n b r) (ht : b.point tid = .waitEnter) :
    InPhase phase n (b.sync tid) (recordSync b tid r) := by
  have hallows := h.threads tid
  rw [ht] at hallows
  have hmode := h.mode
  by_cases henter : b.mode = .enter
  · have hsync : b.sync tid = b.goto tid .outside := by
      simp only [Barrier.sync, ht, ne_eq, henter, not_true_eq_false, if_false]
    rw [recordSync_returned (by simp [ht]) (by simp [hsync, Barrier.goto]), hsync]
    have hcensus : census SyncPoint.Counted (Function.update b.point tid .outside) =
        census SyncPoint.Counted b.point := census_keep (by simp [ht, SyncPoint.Counted])
    cases phase with
    | gather =>
        have hsize : census SyncPoint.Counted b.point < Fintype.card Tid := h.size
        refine ⟨h.cardinal, hmode, h.step.trans (congrArg _ hcensus.symm), hcensus.trans_lt hsize,
          threads_update (r := r) ?_ fun t htid =>
          ⟨rfl, Function.update_of_ne htid .., h.threads t⟩⟩
        simpa [Phase.Allows] using hallows
    | release | empty => rw [henter] at hmode; cases hmode
    | full => exact hallows.elim
  · have hsync : b.sync tid = b := by
      simp only [Barrier.sync, ht, ne_eq, henter, not_false_eq_true, if_true]
    rwa [recordSync_inside (by simp [ht]) (by simp [hsync, ht]), hsync]

/-- Every step leads from a phase to itself or to the next. -/
theorem InPhase.sync (hw : Fintype.card Tid < 2 ^ w) (h : InPhase phase n b r) :
    ∃ phase' n', InPhase phase' n' (b.sync tid) (recordSync b tid r) := by
  cases ht : b.point tid with
  | outside => exact ⟨_, _, h.outside ht⟩
  | fetchAdd => exact (h.fetchAdd hw ht).imp fun _ h' => ⟨_, h'⟩
  | storeLeave => exact ⟨_, _, h.storeLeave ht⟩
  | waitLeave => exact ⟨_, _, h.waitLeave ht⟩
  | fetchSub => exact (h.fetchSub hw ht).imp fun _ h' => ⟨_, h'⟩
  | storeEnter => exact ⟨_, _, h.storeEnter ht⟩
  | waitEnter => exact ⟨_, _, h.waitEnter ht⟩

end Steps

/-! ### What every phase grants -/

section Phases

variable {phase : Phase} {n : Nat} {b : Barrier Tid w} {r : SyncRecord Tid}

omit [DecidableEq Tid] in
theorem InPhase.step_toNat (hw : Fintype.card Tid < 2 ^ w) (h : InPhase phase n b r) :
    b.step.toNat = census SyncPoint.Counted b.point := by
  have hle := census_le SyncPoint.Counted b.point
  rw [h.step, BitVec.toNat_ofNat, Nat.mod_eq_of_lt (by omega)]

theorem Phase.Allows.entered {entered returned : Nat} {point : SyncPoint}
    (h : phase.Allows n entered returned point) :
    n ≤ entered ∧ returned ≤ n := by
  cases phase <;> cases point <;> simp only [Phase.Allows] at h <;> omega

theorem InPhase.live (h : InPhase phase n b r) : ¬ ∀ t, b.Spins t := by
  intro hall
  have hspins := fun t => Barrier.spins_iff.mp (hall t)
  have hmode := h.mode
  cases phase with
  | gather =>
      have hall : ∀ t, (b.point t).Counted := by
        intro t
        rcases hspins t with ⟨hpoint, -⟩ | ⟨-, hnot⟩
        · exact .inr (.inl hpoint)
        · exact (hnot hmode).elim
      exact (Nat.ne_of_lt h.size) ((census_eq_card _).mpr hall)
  | full =>
      have hone : census (fun point => point = SyncPoint.storeLeave) b.point = 1 := h.size
      obtain ⟨t, ht⟩ := (census_pos _).mp (hone ▸ Nat.one_pos)
      rcases hspins t with ⟨hpoint, -⟩ | ⟨hpoint, -⟩ <;> rw [hpoint] at ht <;> cases ht
  | release =>
      obtain ⟨t, ht⟩ := (census_pos _).mp h.size
      rcases hspins t with ⟨-, hnot⟩ | ⟨hpoint, -⟩
      · exact hnot hmode
      · simp [SyncPoint.Counted, hpoint] at ht
  | empty =>
      have hone : census (fun point => point = SyncPoint.storeEnter) b.point = 1 := h.size
      obtain ⟨t, ht⟩ := (census_pos _).mp (hone ▸ Nat.one_pos)
      rcases hspins t with ⟨hpoint, -⟩ | ⟨hpoint, -⟩ <;> rw [hpoint] at ht <;> cases ht

theorem InPhase.synchronizes [Nonempty Tid] (hw : Fintype.card Tid < 2 ^ w)
    (h : InPhase phase n b r) : Synchronizes b r where
  together t u := (h.threads t).entered.2.trans (h.threads u).entered.1
  step_le := h.step_toNat hw ▸ census_le _ _
  step_lt t ht := by
    have hallows := h.threads t
    rw [ht] at hallows
    rw [h.step_toNat hw]
    cases phase with
    | gather => exact h.size
    | full | release | empty => exact hallows.elim
  step_pos t ht := by
    rw [h.step_toNat hw]
    exact (census_pos _).mpr ⟨t, .inr (.inr ht)⟩
  rested hall := by
    obtain ⟨t⟩ := ‹Nonempty Tid›
    have hallows := h.threads t
    rw [hall t] at hallows
    have hnone : census SyncPoint.Counted b.point = 0 :=
      (census_eq_zero _).mpr fun u => by simp [hall u, SyncPoint.Counted]
    refine ⟨by rw [h.step, hnone]; rfl, ?_⟩
    cases phase with
    | gather => exact h.mode
    | full | release | empty => exact hallows.elim
  live := h.live

omit [DecidableEq Tid] in
theorem inPhase_init [Nonempty Tid] :
    InPhase .gather 0
      (⟨BitVec.ofNat w (Fintype.card Tid), 0, .enter, fun _ => .outside⟩ : Barrier Tid w)
      ⟨fun _ => 0, fun _ => 0⟩ := by
  have hnone : census SyncPoint.Counted (fun _ : Tid => SyncPoint.outside) = 0 :=
    (census_eq_zero _).mpr fun _ => by simp [SyncPoint.Counted]
  have hless : census SyncPoint.Counted (fun _ : Tid => SyncPoint.outside) < Fintype.card Tid :=
    hnone.trans_lt Fintype.card_pos
  refine ⟨rfl, rfl, ?_, hless, fun _ => ⟨rfl, rfl⟩⟩
  simp [hnone]

end Phases

/-- **The barrier can be reused**: over any number of rounds, in every interleaving. -/
theorem barrier_synchronizes [Nonempty Tid] (hw : Fintype.card Tid < 2 ^ w)
    {p : Barrier Tid w × SyncRecord Tid} (h : (roundMachine Tid w).Reachable p) :
    Synchronizes p.1 p.2 := by
  have hphase : ∃ phase n, InPhase phase n p.1 p.2 := by
    refine h.invariant (P := fun p => ∃ phase n, InPhase phase n p.1 p.2) ?_ ?_
    · rintro ⟨b, r⟩ ⟨hb, hr⟩
      obtain rfl : b = _ := hb
      obtain rfl : r = _ := hr
      exact ⟨_, _, inPhase_init⟩
    · rintro ⟨b, r⟩ tid ⟨b', r'⟩ - ⟨phase, n, hin⟩ ⟨hb', hr'⟩
      obtain rfl : b' = _ := hb'
      obtain rfl : r' = _ := hr'
      exact hin.sync hw
  obtain ⟨phase, n, hin⟩ := hphase
  exact hin.synchronizes hw

def syncSchedule (w : Nat) (tids : List Tid) : Barrier Tid w × SyncRecord Tid :=
  tids.foldl (fun p tid => (p.1.sync tid, recordSync p.1 tid p.2))
    (⟨BitVec.ofNat w (Fintype.card Tid), 0, .enter, fun _ => .outside⟩, ⟨fun _ => 0, fun _ => 0⟩)

theorem syncSchedule_reachable (tids : List Tid) :
    (roundMachine Tid w).Reachable (syncSchedule w tids) := by
  refine Machine.Reachable.foldl (M := roundMachine Tid w) ?_ (.init ?_) tids
  · exact fun _ _ => ⟨rfl, rfl⟩
  · exact ⟨rfl, rfl⟩

/-- One of two threads enters its second call while the other has not left its first. -/
theorem barrier_synchronizes_two_threads :
    ∃ p : Barrier Bool 32 × SyncRecord Bool, p.1.point true = .waitEnter ∧ p.2.entered false = 2 ∧
      Synchronizes p.1 p.2 := by
  refine ⟨syncSchedule 32 [true, true, false, false, false, true, true, false, false, false],
    ?_, ?_, barrier_synchronizes (by decide) (syncSchedule_reachable _)⟩
  · decide
  · decide

end TransactionalMemory.Grading
