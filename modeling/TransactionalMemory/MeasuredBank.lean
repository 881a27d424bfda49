import TransactionalMemory.BankOnReference
import TransactionalMemory.BarrierRounds
import TransactionalMemory.MeasuredRuns
import TransactionalMemory.Model.BankWorkload
import TransactionalMemory.ReferenceAtomicity

/-!
# The bank on the reference implementation, measured

The grading program with the reference implementation: any number of workers in `measure` on one
bank, each access of each transaction a step of its own. No violation is ever reported. The bank
goes through four stages, which the coordination of the runs and the barrier of `check` separate.
-/

namespace TransactionalMemory.Grading

open Concurrency
open Reference (Region BlockId transactions)

variable {Tid : Type}

/-! ### Stages of the bank -/

/-- What the first word of the bank is for. -/
inductive BankStage (Tid : Type) where
  | created
  | initialised
  | running
  /-- With how often each worker has decreased the counter. -/
  | counting (done : Tid → Nat)

namespace BankCall

def InInit : BankCall → Prop
  | .init | .initCheck => True
  | .ended ending => ending = .returned none
  | _ => False

def Runs : BankCall → Prop
  | .loop _ _ | .runLong _ _ | .runAlloc _ _ _ | .draw _ _ | .runShort _ _ _ _ | .lastLong => True
  | _ => False

def InRun : BankCall → Prop
  | .ended ending => ending = .returned none ∨ ending = .threw
  | call => call.Runs

def Counts : BankCall → Prop
  | .checkCounter | .readLast _ | .decrease _ _ | .checkZero => True
  | _ => False

/-- In `check` until the counter is set, with how often the worker has entered and left
`barrier.sync()`. -/
def Setting (isFirst : Prop) (entered returned : Nat) : BankCall → Prop
  | .entering n violation => violation = none ∧ entered + 1 = n ∧ returned + 1 = n ∧
      (n = 1 ∨ n = 2 ∧ ¬ isFirst)
  | .syncing n violation => violation = none ∧ entered = n ∧ returned + 1 = n ∧
      (n = 1 ∨ n = 2 ∧ ¬ isFirst)
  | .setCounter => isFirst ∧ entered = 1 ∧ returned = 1
  | _ => False

def Counting (isFirst : Prop) (left : Int) (done entered returned : Nat) : BankCall → Prop
  | .entering n violation => violation = none ∧ entered + 1 = n ∧ returned + 1 = n ∧
      (n = 2 ∧ done = 0 ∨ n = 3 ∧ done = decrements)
  | .syncing n violation => violation = none ∧ entered = n ∧ returned + 1 = n ∧
      (n = 1 ∧ done = 0 ∧ ¬ isFirst ∨ n = 2 ∧ done = 0 ∨ n = 3 ∧ done = decrements)
  | .checkCounter => isFirst ∧ done = 0 ∧ entered = 1 ∧ returned = 1
  | .readLast i => done = i ∧ i < decrements ∧ entered = 2 ∧ returned = 2
  | .decrease i last => done = i ∧ i < decrements ∧ left ≤ last ∧ entered = 2 ∧ returned = 2
  | .checkZero => isFirst ∧ done = decrements ∧ entered = 3 ∧ returned = 3
  | .ended ending => ending = .returned none ∧ done = decrements ∧ entered = 3 ∧ returned = 3
  | _ => False

end BankCall

/-- What may have been passed to `worker_notify`. -/
def Worker.Clean (passed : List (Option String)) : Worker BankCall → Prop
  | .leaving | .returned true => ∀ e ∈ passed, e = none ∨ e = some internalError
  | _ => ∀ e ∈ passed, e = none

namespace BankStage

def left [Fintype Tid] (done : Tid → Nat) : Int :=
  ((decrements * Fintype.card Tid : Nat) : Int) - ∑ t, (done t : Int)

/-- Where a worker may be, with how often it has entered and left `barrier.sync()`. -/
def Allows [Fintype Tid] (nbrepeats : Nat) (first tid : Tid) (entered returned : Nat) :
    BankStage Tid → Worker BankCall → Prop
  | .created, .waiting j => j = 0 ∧ entered = 0 ∧ returned = 0
  | .created, .busy j call => j = 0 ∧ call = .init ∧ entered = 0 ∧ returned = 0
  | .initialised, .waiting j => j ≤ 1 ∧ entered = 0 ∧ returned = 0
  | .initialised, .busy j call => j = 0 ∧ call.InInit ∧ entered = 0 ∧ returned = 0
  | .running, .waiting j => 1 ≤ j ∧ j ≤ nbrepeats + 1 ∧ entered = 0 ∧ returned = 0
  | .running, .busy j call =>
      1 ≤ j ∧ j ≤ nbrepeats ∧ call.InRun ∧ entered = 0 ∧ returned = 0 ∨
        j = nbrepeats + 1 ∧ call.Setting (tid = first) entered returned
  | .counting done, .waiting j =>
      j = nbrepeats + 2 ∧ done tid = decrements ∧ entered = 3 ∧ returned = 3
  | .counting done, .busy j call =>
      j = nbrepeats + 1 ∧ call.Counting (tid = first) (left done) (done tid) entered returned
  | .counting done, .returned threw =>
      threw = false ∧ done tid = decrements ∧ entered = 3 ∧ returned = 3
  | .counting _, _ => False
  | _, _ => entered = 0 ∧ returned = 0

def Memory [Fintype Tid] (bank : WorkloadBank BlockId) (d : Region Cell) : BankStage Tid → Prop
  | .created => Lays bank d (.created bank.start)
  | .initialised =>
      ∃ m, bank.init (.created bank.start) = .ok (m, true) ∧ Lays bank d m
  | .running => ∃ m cells, Lays bank d m ∧ Ledger bank m cells 0
  | .counting done => Holds d bank.getStart (.number (left done))

end BankStage

abbrev BankState (Tid : Type) (w : Nat) : Type :=
  Atomic (Option Tid) (Measuring Tid (Barrier Tid w) w) (Local BankCall) (Region Cell)

section Invariant

variable [DecidableEq Tid] [Fintype Tid] {w : Nat}

/-- The invariant, with the calls of `Sync` and of the barrier so far. -/
structure Banking (bank : WorkloadBank BlockId) (nbrepeats : Nat) (first : Tid)
    (stage : BankStage Tid) (a : BankState Tid w) (log : Tid → List (Option String))
    (r : RunRecord Tid String) (rounds : SyncRecord Tid) : Prop where
  recorded : Recorded nbrepeats a.own log a.shared.sync r
  barrier : ∃ phase n, InPhase phase n a.shared.workload rounds
  memory : stage.Memory bank a.data
  worker : ∀ t, ∃ script, a.own (some t) = .worker script ∧ script.Clean (log t) ∧
    stage.Allows nbrepeats first t (rounds.entered t) (rounds.returned t) script

end Invariant

/-! ### The barrier of `check` -/

section Rounds

variable [DecidableEq Tid] {w : Nat} {b : Barrier Tid w} {r : SyncRecord Tid} {tid t : Tid}

theorem recordSync_of_ne (ht : t ≠ tid) :
    (recordSync b tid r).entered t = r.entered t ∧
      (recordSync b tid r).returned t = r.returned t := by
  constructor
  · simp only [recordSync]
    split
    · exact Function.update_of_ne ht ..
    · rfl
  · simp only [recordSync]
    split
    · exact Function.update_of_ne ht ..
    · rfl

variable [Fintype Tid] {phase : Phase} {n : Nat}

omit [DecidableEq Tid] in
theorem InPhase.outside_iff (h : InPhase phase n b r) :
    b.point t = .outside ↔ r.entered t = r.returned t := by
  have hallows := h.threads t
  cases hpoint : b.point t <;> rw [hpoint] at hallows <;> cases phase <;>
    simp only [Phase.Allows] at hallows <;> simp only [reduceCtorEq, true_iff, false_iff] <;> omega

omit [DecidableEq Tid] in
theorem InPhase.together (h : InPhase phase n b r) (t u : Tid) : r.returned t ≤ r.entered u :=
  (h.threads t).entered.2.trans (h.threads u).entered.1

theorem InPhase.enter (h : InPhase phase n b r) (houtside : r.entered tid = r.returned tid) :
    (recordSync b tid r).entered tid = r.entered tid + 1 ∧
      (recordSync b tid r).returned tid = r.returned tid := by
  rw [recordSync_outside (h.outside_iff.mpr houtside)]
  exact ⟨Function.update_self .., rfl⟩

theorem InPhase.stay (h : InPhase phase n b r) (tid : Tid)
    (hinside : r.entered tid ≠ r.returned tid)
    (hafter : (b.sync tid).point tid ≠ .outside) : recordSync b tid r = r :=
  recordSync_inside (mt h.outside_iff.mp hinside) hafter

theorem InPhase.leave (h : InPhase phase n b r) (tid : Tid)
    (hinside : r.entered tid ≠ r.returned tid) (hafter : (b.sync tid).point tid = .outside) :
    (recordSync b tid r).entered tid = r.entered tid ∧
      (recordSync b tid r).returned tid = r.returned tid + 1 := by
  rw [recordSync_returned (mt h.outside_iff.mp hinside) hafter]
  exact ⟨rfl, Function.update_self ..⟩

end Rounds

/-! ### Moves -/

section Moves

variable [DecidableEq Tid] [Fintype Tid] {w : Nat} {bank : WorkloadBank BlockId}
  {nbtxperwrk nbrepeats : Nat} {first tid : Tid} {stage stage' : BankStage Tid}
  {a : BankState Tid w} {log log' : Tid → List (Option String)} {r r' : RunRecord Tid String}
  {rounds rounds' : SyncRecord Tid} {script script' : Worker BankCall}

omit [DecidableEq Tid] in
theorem Banking.of_own (h : Banking bank nbrepeats first stage a log r rounds)
    (hown : a.own (some tid) = .worker script) : script.Clean (log tid) ∧
      stage.Allows nbrepeats first tid (rounds.entered tid) (rounds.returned tid) script := by
  obtain ⟨script₀, hscript, hclean, hallows⟩ := h.worker tid
  rw [hown] at hscript
  cases hscript
  exact ⟨hclean, hallows⟩

theorem Banking.next (stage' : BankStage Tid) {g : Measuring Tid (Barrier Tid w) w}
    {d : Region Cell} (h : Banking bank nbrepeats first stage a log r rounds)
    (hrecorded : Recorded nbrepeats
      (Function.update a.own (some tid) (.worker script')) log' g.sync r')
    (hbarrier : ∃ phase n, InPhase phase n g.workload rounds')
    (hmemory : stage'.Memory bank d) (hlog : ∀ t, t ≠ tid → log' t = log t)
    (hclean : script'.Clean (log' tid))
    (hself : stage'.Allows nbrepeats first tid (rounds'.entered tid) (rounds'.returned tid) script')
    (hothers : ∀ t script, t ≠ tid → a.own (some t) = .worker script →
      stage.Allows nbrepeats first t (rounds.entered t) (rounds.returned t) script →
        stage'.Allows nbrepeats first t (rounds'.entered t) (rounds'.returned t) script) :
    Banking bank nbrepeats first stage'
      ⟨g, Function.update a.own (some tid) (.worker script'), d⟩ log' r' rounds' where
  recorded := hrecorded
  barrier := hbarrier
  memory := hmemory
  worker t := by
    by_cases ht : t = tid
    · subst ht
      exact ⟨script', Function.update_self .., hclean, hself⟩
    · obtain ⟨script, hscript, hclean, hallows⟩ := h.worker t
      refine ⟨script, ?_, ?_, hothers t script ht hscript hallows⟩
      · exact (Function.update_of_ne (by simpa using ht) ..).trans hscript
      · rwa [hlog t ht]

theorem Banking.stay {sync : Sync Tid String w}
    (h : Banking bank nbrepeats first stage a log r rounds)
    (hrecorded : Recorded nbrepeats
      (Function.update a.own (some tid) (.worker script')) log' sync r')
    (hlog : ∀ t, t ≠ tid → log' t = log t) (hclean : script'.Clean (log' tid))
    (hself : stage.Allows nbrepeats first tid (rounds.entered tid) (rounds.returned tid) script') :
    Banking bank nbrepeats first stage ⟨⟨sync, a.shared.workload⟩,
      Function.update a.own (some tid) (.worker script'), a.data⟩ log' r' rounds :=
  h.next stage hrecorded h.barrier h.memory hlog hclean hself fun _ _ _ _ hallows => hallows

theorem task_eq_none {j : Nat} (h : task nbrepeats j = none) : nbrepeats + 2 ≤ j := by
  unfold task at h
  split at h
  · cases h
  · split at h
    · cases h
    · split at h
      · cases h
      · omega

omit [DecidableEq Tid] in
/-- What a worker is about to start, in a stage in which it may wait. -/
theorem call_allowed {j : Nat} {run : Task} (hrun : task nbrepeats j = some run)
    (hj : 1 ≤ j) (hle : j ≤ nbrepeats + 1) {entered returned : Nat} (hentered : entered = 0)
    (hreturned : returned = 0) :
    BankStage.running.Allows nbrepeats first tid entered returned
      (.busy j (bankCall bank tid run)) := by
  unfold task at hrun
  rw [if_neg (by omega)] at hrun
  by_cases hlast : j ≤ nbrepeats
  · rw [if_pos hlast] at hrun
    cases hrun
    exact .inl ⟨hj, hlast, trivial, hentered, hreturned⟩
  · obtain rfl : j = nbrepeats + 1 := by omega
    rw [if_neg hlast, if_pos rfl] at hrun
    cases hrun
    exact .inr ⟨rfl, rfl, by omega, by omega, .inl rfl⟩

omit [DecidableEq Tid] in
/-- With the first measured run, or with the check if there is none, nobody is in `init` any more.
-/
theorem Recorded.none_before {own : Option Tid → Local BankCall} {s : Sync Tid String w} {j : Nat}
    {x : BankCall} {t : Tid} (h : Recorded nbrepeats own log s r)
    (hown : own (some tid) = .worker (.busy j x)) (hscript : own (some t) = .worker script) :
    (∀ j', script = .waiting j' → j ≤ j') ∧ ∀ j' y, script = .busy j' y → j ≤ j' := by
  obtain ⟨stage, k, hstage⟩ := h.stage
  obtain ⟨script₁, hscript₁, hfollows₁⟩ := h.worker tid
  rw [hown] at hscript₁
  cases hscript₁
  obtain ⟨script₂, hscript₂, hfollows₂⟩ := h.worker t
  rw [hscript] at hscript₂
  cases hscript₂
  have hk : j = k := hfollows₁.2.1.symm.trans ((hstage.runs tid).2.2 hfollows₁.2.2)
  have hle : k ≤ (r.worker t).passed.length := by
    rcases (hstage.runs t).2.1 with hlength | hlength <;> omega
  refine ⟨?_, ?_⟩
  · rintro j' rfl
    exact hk ▸ hle.trans_eq hfollows₂.2.1
  · rintro j' y rfl
    exact hk ▸ hle.trans_eq hfollows₂.2.1

omit [DecidableEq Tid] in
/-- Everyone else is ready for the first measured run, or has stopped. -/
theorem BankStage.initialised_running {t : Tid} {entered returned : Nat}
    (h : BankStage.initialised.Allows nbrepeats first t entered returned script)
    (hwaiting : ∀ j, script = .waiting j → 1 ≤ j) (hbusy : ∀ j x, script = .busy j x → 1 ≤ j) :
    BankStage.running.Allows nbrepeats first t entered returned script := by
  cases script with
  | waiting j =>
      obtain ⟨hle, hcounts⟩ := h
      exact ⟨hwaiting j rfl, by omega, hcounts⟩
  | busy j call =>
      obtain ⟨rfl, -⟩ := h
      exact absurd (hbusy 0 call rfl) (by omega)
  | thrown | leaving | returned => exact h

theorem Banking.start (hinit : 0 ≤ bank.initBalance) (hnb : 1 ≤ bank.nbaccounts)
    {sync : Sync Tid String w} {j : Nat} {run : Task}
    (h : Banking bank nbrepeats first stage a log r rounds)
    (hown : a.own (some tid) = .worker (.waiting j)) (hrun : task nbrepeats j = some run)
    (hrecorded : Recorded nbrepeats
      (Function.update a.own (some tid) (.worker (.busy j (bankCall bank tid run)))) log sync r') :
    ∃ stage', Banking bank nbrepeats first stage' ⟨⟨sync, a.shared.workload⟩,
      Function.update a.own (some tid) (.worker (.busy j (bankCall bank tid run))), a.data⟩ log r'
        rounds := by
  obtain ⟨hclean, hallows⟩ := h.of_own hown
  cases stage with
  | created =>
      obtain ⟨rfl, hcounts⟩ := hallows
      cases hrun
      exact ⟨_, h.stay hrecorded (fun _ _ => rfl) hclean ⟨rfl, rfl, hcounts⟩⟩
  | initialised =>
      obtain ⟨hle, hcounts⟩ := hallows
      by_cases hj : j = 0
      · subst hj
        cases hrun
        exact ⟨_, h.stay hrecorded (fun _ _ => rfl) hclean ⟨rfl, trivial, hcounts⟩⟩
      · obtain ⟨m, hm, hlays⟩ := h.memory
        obtain ⟨m', cells, hm', hledger⟩ := init_spec bank hinit hnb
        obtain ⟨rfl, -⟩ := Prod.mk.inj (Except.ok.inj (hm.symm.trans hm'))
        refine ⟨.running, h.next .running hrecorded h.barrier ⟨m, cells, hlays, hledger⟩
          (fun _ _ => rfl) hclean ?_ fun t script ht hscript hallows => ?_⟩
        · exact call_allowed hrun (by omega) (by omega) hcounts.1 hcounts.2
        · have hscript' : Function.update a.own (some tid)
              (.worker (.busy j (bankCall bank tid run))) (some t) = .worker script :=
            (Function.update_of_ne (by simpa using ht) ..).trans hscript
          obtain ⟨hwaiting, hbusy⟩ := hrecorded.none_before (Function.update_self ..) hscript'
          refine BankStage.initialised_running hallows (fun j' hj' => ?_) fun j' x hj' => ?_
          · have hle' := hwaiting j' hj'
            omega
          · have hle' := hbusy j' x hj'
            omega
  | running =>
      obtain ⟨hj, hle, hentered, hreturned⟩ := hallows
      exact ⟨_, h.stay hrecorded (fun _ _ => rfl) hclean
        (call_allowed hrun hj hle hentered hreturned)⟩
  | counting done =>
      obtain ⟨rfl, -⟩ := hallows
      simp [task] at hrun

theorem Banking.notify {sync : Sync Tid String w} {j : Nat} {error : Option String}
    (h : Banking bank nbrepeats first stage a log r rounds)
    (hown : a.own (some tid) = .worker (.busy j (.ended (.returned error))))
    (hrecorded : Recorded nbrepeats (Function.update a.own (some tid) (.worker (.waiting (j + 1))))
      (Function.update log tid (log tid ++ [error])) sync r') :
    Banking bank nbrepeats first stage ⟨⟨sync, a.shared.workload⟩,
      Function.update a.own (some tid) (.worker (.waiting (j + 1))), a.data⟩
        (Function.update log tid (log tid ++ [error])) r' rounds := by
  obtain ⟨hclean, hallows⟩ := h.of_own hown
  obtain ⟨rfl, hself⟩ : error = none ∧ stage.Allows nbrepeats first tid (rounds.entered tid)
      (rounds.returned tid) (.waiting (j + 1)) := by
    cases stage with
    | created => cases hallows.2.1
    | initialised =>
        obtain ⟨rfl, hended, hcounts⟩ := hallows
        cases hended
        exact ⟨rfl, le_rfl, hcounts⟩
    | running =>
        rcases hallows with ⟨hj, hle, hended | hended, hcounts⟩ | ⟨-, hsetting⟩
        · cases hended
          exact ⟨rfl, by omega, by omega, hcounts⟩
        · cases hended
        · exact hsetting.elim
    | counting done =>
        obtain ⟨rfl, hended, hdone, hcounts⟩ := hallows
        cases hended
        exact ⟨rfl, rfl, hdone, hcounts⟩
  refine h.stay hrecorded (fun t ht => Function.update_of_ne ht ..) ?_ hself
  rw [Function.update_self]
  intro e he
  rcases List.mem_append.mp he with he | he
  · exact hclean e he
  · exact List.mem_singleton.mp he

section Calls

variable {call call' : BankCall} {entered returned j n : Nat} {violation : Option String}

omit [DecidableEq Tid] in
theorem BankStage.of_run (h : stage.Allows nbrepeats first tid entered returned (.busy j call))
    (hruns : call.Runs) :
    stage = .running ∧ 1 ≤ j ∧ j ≤ nbrepeats ∧ entered = 0 ∧ returned = 0 := by
  cases stage with
  | created =>
      obtain ⟨-, rfl, -⟩ := h
      exact hruns.elim
  | initialised =>
      obtain ⟨-, hinit, -⟩ := h
      cases call <;> first | exact hinit.elim | exact hruns.elim
  | running =>
      rcases h with ⟨hj, hle, -, hcounts⟩ | ⟨-, hsetting⟩
      · exact ⟨rfl, hj, hle, hcounts⟩
      · cases call <;> first | exact hsetting.elim | exact hruns.elim
  | counting done =>
      obtain ⟨-, hcounting⟩ := h
      cases call <;> first | exact hcounting.elim | exact hruns.elim

omit [DecidableEq Tid] in
theorem BankStage.keep_run (h : stage.Allows nbrepeats first tid entered returned (.busy j call))
    (hruns : call.Runs) (hruns' : call'.InRun) :
    stage.Allows nbrepeats first tid entered returned (.busy j call') := by
  obtain ⟨rfl, hj, hle, hcounts⟩ := BankStage.of_run h hruns
  exact .inl ⟨hj, hle, hruns', hcounts⟩

omit [DecidableEq Tid] in
theorem BankStage.enter
    (h : stage.Allows nbrepeats first tid entered returned (.busy j (.entering n violation))) :
    entered = returned ∧
      stage.Allows nbrepeats first tid (entered + 1) returned (.busy j (.syncing n violation)) := by
  cases stage with
  | created => cases h.2.1
  | initialised => exact h.2.1.elim
  | running =>
      rcases h with ⟨-, -, hrun, -⟩ | ⟨hj, hnone, hentered, hreturned, hn⟩
      · exact hrun.elim
      · exact ⟨by omega, .inr ⟨hj, hnone, hentered, hreturned, hn⟩⟩
  | counting done =>
      obtain ⟨hj, hnone, hentered, hreturned, hn⟩ := h
      exact ⟨by omega, hj, hnone, hentered, hreturned, .inr hn⟩

omit [DecidableEq Tid] in
theorem BankStage.syncing
    (h : stage.Allows nbrepeats first tid entered returned (.busy j (.syncing n violation))) :
    entered = returned + 1 := by
  cases stage with
  | created => cases h.2.1
  | initialised => exact h.2.1.elim
  | running =>
      rcases h with ⟨-, -, hrun, -⟩ | ⟨-, -, hentered, hreturned, -⟩
      · exact hrun.elim
      · omega
  | counting done =>
      obtain ⟨-, -, hentered, hreturned, -⟩ := h
      omega

/-- Until the counter is set, nobody comes out of the second call of `sync`. -/
theorem BankStage.leave
    (h : stage.Allows nbrepeats first tid entered returned (.busy j (.syncing n violation)))
    (hset : stage = .running → tid ≠ first → returned = 0) :
    stage.Allows nbrepeats first tid entered (returned + 1)
      (.busy j (afterSync first tid n violation)) := by
  cases stage with
  | created => cases h.2.1
  | initialised => exact h.2.1.elim
  | running =>
      rcases h with ⟨-, -, hrun, -⟩ | ⟨hj, rfl, hentered, hreturned, hn⟩
      · exact hrun.elim
      · refine .inr ⟨hj, ?_⟩
        obtain rfl : n = 1 := by
          rcases hn with hn | ⟨hn, hfirst⟩
          · exact hn
          · have hzero := hset rfl hfirst
            omega
        simp only [afterSync]
        split
        · rename_i hfirst
          exact ⟨hfirst, by omega, by omega⟩
        · rename_i hfirst
          exact ⟨rfl, by omega, by omega, .inr ⟨rfl, hfirst⟩⟩
  | counting done =>
      obtain ⟨hj, rfl, hentered, hreturned, hn⟩ := h
      refine ⟨hj, ?_⟩
      rcases hn with ⟨rfl, hdone, hfirst⟩ | ⟨rfl, hdone⟩ | ⟨rfl, hdone⟩
      · simp only [afterSync, if_neg hfirst]
        exact ⟨rfl, by omega, by omega, .inl ⟨rfl, hdone⟩⟩
      · exact ⟨hdone, by decide, by omega, by omega⟩
      · simp only [afterSync]
        split
        · rename_i hfirst
          exact ⟨hfirst, hdone, by omega, by omega⟩
        · exact ⟨rfl, hdone, by omega, by omega⟩

omit [DecidableEq Tid] in
theorem BankStage.first_entered
    (h : BankStage.running.Allows nbrepeats first first entered returned script) : entered ≤ 1 := by
  cases script with
  | waiting j =>
      obtain ⟨-, -, hentered, -⟩ := h
      omega
  | busy j call =>
      rcases h with ⟨-, -, -, hentered, -⟩ | ⟨-, hsetting⟩
      · omega
      · cases call <;> simp only [BankCall.Setting] at hsetting <;> grind
  | thrown | leaving | returned =>
      obtain ⟨hentered, -⟩ := h
      omega

theorem Banking.work (hw : Fintype.card Tid < 2 ^ w) {b : Barrier Tid w}
    (h : Banking bank nbrepeats first stage a log r rounds)
    (hown : a.own (some tid) = .worker (.busy j call))
    (hstep : BankStep nbtxperwrk first tid (a.shared.workload, call) (b, call'))
    (hrecorded : Recorded nbrepeats (Function.update a.own (some tid) (.worker (.busy j call'))) log
      a.shared.sync r') :
    ∃ rounds', Banking bank nbrepeats first stage ⟨⟨a.shared.sync, b⟩,
      Function.update a.own (some tid) (.worker (.busy j call')), a.data⟩ log r' rounds' := by
  obtain ⟨hclean, hallows⟩ := h.of_own hown
  have hrun : call.Runs → call'.InRun → b = a.shared.workload → ∃ rounds',
      Banking bank nbrepeats first stage ⟨⟨a.shared.sync, b⟩,
        Function.update a.own (some tid) (.worker (.busy j call')), a.data⟩ log r' rounds' := by
    rintro hruns hruns' rfl
    exact ⟨rounds, h.stay hrecorded (fun _ _ => rfl) hclean
      (BankStage.keep_run hallows hruns hruns')⟩
  -- One step in the barrier, after which the calls of this worker are as expected.
  have hsync : ∀ call'', Recorded nbrepeats
      (Function.update a.own (some tid) (.worker (.busy j call''))) log a.shared.sync r' →
      stage.Allows nbrepeats first tid ((recordSync a.shared.workload tid rounds).entered tid)
        ((recordSync a.shared.workload tid rounds).returned tid) (.busy j call'') →
      ∃ rounds', Banking bank nbrepeats first stage ⟨⟨a.shared.sync, a.shared.workload.sync tid⟩,
        Function.update a.own (some tid) (.worker (.busy j call'')), a.data⟩ log r' rounds' := by
    intro call'' hrecorded hself
    obtain ⟨phase, n, hphase⟩ := h.barrier
    refine ⟨recordSync a.shared.workload tid rounds, h.next stage hrecorded
      (hphase.sync hw) h.memory (fun _ _ => rfl) hclean hself fun t script ht _ hallows => ?_⟩
    obtain ⟨hentered, hreturned⟩ := recordSync_of_ne (b := a.shared.workload) (r := rounds) ht
    rwa [hentered, hreturned]
  obtain ⟨phase, n, hphase⟩ := h.barrier
  generalize hb : a.shared.workload = b₀ at hstep
  cases hstep with
  | long => exact hrun trivial trivial hb.symm
  | alloc => exact hrun trivial trivial hb.symm
  | short => exact hrun trivial trivial hb.symm
  | draw => exact hrun trivial trivial hb.symm
  | last => exact hrun trivial trivial hb.symm
  | enter =>
      subst hb
      obtain ⟨hequal, hself⟩ := BankStage.enter hallows
      obtain ⟨hentered, hreturned⟩ := hphase.enter hequal
      exact hsync _ hrecorded (by rwa [hentered, hreturned])
  | sync hpoint =>
      subst hb
      have hinside := BankStage.syncing hallows
      have hstay := hphase.stay tid (by omega) hpoint
      exact hsync _ hrecorded (by rwa [hstay])
  | leave hpoint =>
      subst hb
      have hinside := BankStage.syncing hallows
      obtain ⟨hentered, hreturned⟩ := hphase.leave tid (by omega) hpoint
      refine hsync _ hrecorded ?_
      rw [hentered, hreturned]
      refine BankStage.leave hallows fun hrunning hfirst => ?_
      obtain ⟨phase', n', hphase'⟩ : ∃ phase' n', InPhase phase' n' (a.shared.workload.sync tid)
        (recordSync a.shared.workload tid rounds) := hphase.sync hw
      have htogether := hphase'.together tid first
      rw [hreturned, (recordSync_of_ne (Ne.symm hfirst)).1] at htogether
      obtain ⟨script, -, -, hscript⟩ := h.worker first
      rw [hrunning] at hscript
      have hle := BankStage.first_entered hscript
      omega

end Calls

theorem bank_ended {call : BankCall} {ending : Ending}
    (h : (bankWorkload bank nbtxperwrk first (w := w)).ended call = some ending) :
    call = .ended ending := by
  cases call <;> cases h
  rfl

omit [DecidableEq Tid] in
theorem BankStage.failed {entered returned : Nat}
    (h : stage.Allows nbrepeats first tid entered returned script)
    (hscript : (∃ unexpected, script = .thrown unexpected) ∨ script = .leaving) :
    stage.Allows nbrepeats first tid entered returned .leaving ∧
      stage.Allows nbrepeats first tid entered returned (.returned true) := by
  rcases hscript with ⟨unexpected, rfl⟩ | rfl <;> cases stage with
  | created | initialised | running => exact ⟨h, h⟩
  | counting done => exact h.elim

theorem Banking.workerMove (hw : Fintype.card Tid < 2 ^ w) (hinit : 0 ≤ bank.initBalance)
    (hnb : 1 ≤ bank.nbaccounts) {g : Measuring Tid (Barrier Tid w) w}
    (h : Banking bank nbrepeats first stage a log r rounds)
    (hown : a.own (some tid) = .worker script)
    (hmove :
      WorkerMove (bankWorkload bank nbtxperwrk first) nbrepeats tid a.shared script g script') :
    ∃ stage' log' r' rounds', Banking bank nbrepeats first stage' ⟨g,
      Function.update a.own (some tid) (.worker script'), a.data⟩ log' r' rounds' := by
  obtain ⟨r', hr'⟩ := h.recorded.workerMove hw hown hmove
  obtain ⟨hclean, hallows⟩ := h.of_own hown
  cases hmove with
  | wait => exact ⟨_, _, _, _, h.stay hr' (fun _ _ => rfl) hclean hallows⟩
  | start _ hrun =>
      obtain ⟨stage', h'⟩ := h.start hinit hnb hown hrun hr'
      exact ⟨_, _, _, _, h'⟩
  | @unexpected j hpoint hrun =>
      obtain ⟨script, hscript, hfollows⟩ := h.recorded.worker tid
      rw [hown] at hscript
      cases hscript
      obtain ⟨hwaits, -, hnotRunning, -⟩ := hfollows
      have hlt := h.recorded.expected hw hwaits hnotRunning hpoint
      have hle := task_eq_none hrun
      omega
  | quit =>
      refine ⟨_, _, _, _, h.stay hr' (fun _ _ => rfl) hclean ?_⟩
      cases stage with
      | created | initialised => exact hallows.2
      | running => exact hallows.2.2
      | counting done => exact ⟨rfl, hallows.2⟩
  | @work j x x' b hended hwork =>
      simp only [passedAfter, hended] at hr'
      obtain ⟨rounds', h'⟩ := h.work hw hown hwork hr'
      exact ⟨_, _, _, _, h'⟩
  | @notify j x error hended =>
      obtain rfl := bank_ended hended
      exact ⟨_, _, _, _, h.notify hown hr'⟩
  | @throw j x hended =>
      obtain rfl := bank_ended hended
      refine ⟨_, _, _, _, h.stay hr' (fun _ _ => rfl) hclean ?_⟩
      cases stage with
      | created => cases hallows.2.1
      | initialised => cases hallows.2.1
      | running =>
          rcases hallows with ⟨-, -, -, hcounts⟩ | ⟨-, hsetting⟩
          · exact hcounts
          · exact hsetting.elim
      | counting done => cases hallows.2.1
  | handle =>
      refine ⟨_, _, _, _, h.stay hr' (fun t ht => Function.update_of_ne ht ..) ?_
        (BankStage.failed hallows (.inl ⟨_, rfl⟩)).1⟩
      rw [passedAfter, Function.update_self]
      intro e he
      rcases List.mem_append.mp he with he | he
      · exact .inl (hclean e he)
      · exact .inr (List.mem_singleton.mp he)
  | leave =>
      exact ⟨_, _, _, _, h.stay hr' (fun _ _ => rfl) hclean (BankStage.failed hallows (.inr rfl)).1⟩
  | exit =>
      exact ⟨_, _, _, _, h.stay hr' (fun _ _ => rfl) hclean (BankStage.failed hallows (.inr rfl)).2⟩

end Moves

/-! ### Transactions -/

section Transactions

theorem Holds.store {r : Region Cell} {b : BlockId} {k : Nat} {c c' : Cell}
    (h : Holds r ⟨b, k * 8⟩ c) : Holds (r.store ⟨b, k * 8⟩ [c']) ⟨b, k * 8⟩ c' := by
  rw [Region.store_single h.align]
  refine ⟨h.align, h.inBounds, ?_⟩
  simp

theorem initBalances_eq (bank : WorkloadBank BlockId) (accounts : Nat → Int) (n i : Nat) :
    initBalances bank accounts n i = if i < n then bank.initBalance else accounts i := by
  induction n with
  | zero => rfl
  | succ n ih =>
      rw [initBalances, List.range_succ, List.foldl_append]
      simp only [List.foldl_cons, List.foldl_nil]
      by_cases hi : i = n
      · subst hi
        rw [Function.update_self, if_pos (Nat.lt_succ_self i)]
      · have hlt : i < n + 1 ↔ i < n := by omega
        rw [Function.update_of_ne hi]
        simp only [hlt]
        exact ih

theorem init_again {bank : WorkloadBank BlockId} {m₀ m : BankMemory BlockId} {correct : Bool}
    (hstart : m₀ bank.start ≠ none) (hrun : bank.init m₀ = .ok (m, correct)) :
    bank.init m = .ok (m, correct) := by
  obtain ⟨segment, hm₀⟩ := Option.ne_none_iff_exists'.mp hstart
  obtain ⟨hm, hcorrect⟩ := init_eq_ok hm₀ hrun
  have hcell : m bank.start = some { segment with
      count := bank.nbaccounts
      accounts := initBalances bank segment.accounts bank.nbaccounts } := by
    rw [hm, Function.update_self]
  have hbalances : initBalances bank (initBalances bank segment.accounts bank.nbaccounts)
      bank.nbaccounts = initBalances bank segment.accounts bank.nbaccounts := by
    funext i
    rw [initBalances_eq, initBalances_eq]
    split <;> rfl
  rw [initBalances] at hbalances
  have hself : Function.update m bank.start (some { segment with
      count := bank.nbaccounts
      accounts := initBalances bank segment.accounts bank.nbaccounts }) = m := by
    rw [← hcell, Function.update_eq_self]
  simp only [WorkloadBank.init, BankMemory.read_of hcell, BankMemory.write_of hcell, bind,
    Except.bind, hbalances, hself, pure, Except.pure, hcorrect]

variable [DecidableEq Tid] [Fintype Tid] {w : Nat} {bank : WorkloadBank BlockId}
  {nbrepeats : Nat} {first tid : Tid} {stage stage' : BankStage Tid} {a : BankState Tid w}
  {log : Tid → List (Option String)} {r : RunRecord Tid String} {rounds : SyncRecord Tid}
  {j : Nat} {call call' : BankCall} {d : Region Cell}

/-- A transaction has returned; memory is all that it can have run out of. -/
def Completes (bank : WorkloadBank BlockId) (nbrepeats : Nat) (first : Tid) (a : BankState Tid w)
    (tid : Tid) (j : Nat) (call : BankCall) (result : Except (TxException Fault) BankResult)
    (d : Region Cell) : Prop :=
  (∀ e, result = .error e → e = .alloc) ∧ ∃ stage log r rounds,
    Banking bank nbrepeats first stage ⟨a.shared, Function.update a.own (some tid)
      (.worker (.busy j (bankReturns call result))), d⟩ log r rounds

theorem Banking.move_on (stage' : BankStage Tid) (call' : BankCall)
    (h : Banking bank nbrepeats first stage a log r rounds)
    (hown : a.own (some tid) = .worker (.busy j call)) (hmemory : stage'.Memory bank d)
    (hself : stage'.Allows nbrepeats first tid (rounds.entered tid) (rounds.returned tid)
      (.busy j call'))
    (hothers : ∀ t script, t ≠ tid → a.own (some t) = .worker script →
      stage.Allows nbrepeats first t (rounds.entered t) (rounds.returned t) script →
        stage'.Allows nbrepeats first t (rounds.entered t) (rounds.returned t) script) :
    Banking bank nbrepeats first stage'
      ⟨a.shared, Function.update a.own (some tid) (.worker (.busy j call')), d⟩ log r rounds := by
  obtain ⟨script, hscript, hfollows⟩ := h.recorded.worker tid
  rw [hown] at hscript
  cases hscript
  exact h.next stage' (h.recorded.move (.busy j call') hfollows) h.barrier hmemory
    (fun _ _ => rfl) (h.of_own hown).1 hself hothers

theorem Banking.go_on (call' : BankCall)
    (h : Banking bank nbrepeats first stage a log r rounds)
    (hown : a.own (some tid) = .worker (.busy j call)) (hmemory : stage.Memory bank d)
    (hself : stage.Allows nbrepeats first tid (rounds.entered tid) (rounds.returned tid)
      (.busy j call')) :
    Banking bank nbrepeats first stage
      ⟨a.shared, Function.update a.own (some tid) (.worker (.busy j call')), d⟩ log r rounds :=
  h.move_on stage call' hown hmemory hself fun _ _ _ _ hallows => hallows

/-! #### `init` -/

omit [DecidableEq Tid] in
theorem BankStage.created_initialised {t : Tid} {entered returned : Nat} {script : Worker BankCall}
    (h : BankStage.created.Allows nbrepeats first t entered returned script) :
    BankStage.initialised.Allows nbrepeats first t entered returned script := by
  cases script with
  | waiting j =>
      obtain ⟨rfl, hcounts⟩ := h
      exact ⟨Nat.zero_le 1, hcounts⟩
  | busy j call =>
      obtain ⟨rfl, rfl, hcounts⟩ := h
      exact ⟨rfl, trivial, hcounts⟩
  | thrown | leaving | returned => exact h

theorem created_start (bank : WorkloadBank BlockId) :
    BankMemory.created bank.start bank.start ≠ none := by
  simp [BankMemory.created]

theorem Banking.init_completes (hinit : 0 ≤ bank.initBalance) (hnb : 1 ≤ bank.nbaccounts)
    (h : Banking bank nbrepeats first stage a log r rounds)
    (hown : a.own (some tid) = .worker (.busy j .init)) :
    Code.Total bank.body (Completes bank nbrepeats first a tid j .init) bank.initCode a.data := by
  obtain ⟨-, hallows⟩ := h.of_own hown
  cases stage with
  | created =>
      obtain ⟨rfl, -, hcounts⟩ := hallows
      have hlays : Lays bank a.data (.created bank.start) := h.memory
      obtain ⟨m, -, hm, -⟩ := init_spec bank hinit hnb
      refine ((hlays.implements hnb).init m true hm).mono ?_
      rintro result d ⟨rfl, hlays'⟩
      refine ⟨by rintro e ⟨⟩, .initialised, log, r, rounds, ?_⟩
      exact h.move_on .initialised .initCheck hown ⟨m, hm, hlays'⟩
        ⟨rfl, trivial, hcounts⟩ fun _ _ _ _ => BankStage.created_initialised
  | initialised =>
      obtain ⟨rfl, -, hcounts⟩ := hallows
      obtain ⟨m, hm, hlays⟩ := h.memory
      refine ((hlays.implements hnb).init m true (init_again (created_start bank) hm)).mono ?_
      rintro result d ⟨rfl, hlays'⟩
      refine ⟨by rintro e ⟨⟩, .initialised, log, r, rounds, ?_⟩
      exact h.go_on .initCheck hown ⟨m, hm, hlays'⟩ ⟨rfl, trivial, hcounts⟩
  | running =>
      rcases hallows with ⟨-, -, hrun, -⟩ | ⟨-, hsetting⟩
      · exact hrun.elim
      · exact hsetting.elim
  | counting done => exact hallows.2.elim

theorem Banking.initCheck_completes (hnb : 1 ≤ bank.nbaccounts)
    (h : Banking bank nbrepeats first stage a log r rounds)
    (hown : a.own (some tid) = .worker (.busy j .initCheck)) :
    Code.Total bank.body (Completes bank nbrepeats first a tid j .initCheck) bank.initCheckCode
      a.data := by
  obtain ⟨-, hallows⟩ := h.of_own hown
  cases stage with
  | created => cases hallows.2.1
  | initialised =>
      obtain ⟨rfl, -, hcounts⟩ := hallows
      obtain ⟨m, hm, hlays⟩ := h.memory
      refine ((hlays.implements hnb).initCheck _ true (created_start bank) hm).mono ?_
      rintro result d ⟨rfl, rfl⟩
      refine ⟨by rintro e ⟨⟩, .initialised, log, r, rounds, ?_⟩
      exact h.go_on (.ended (.returned none)) hown ⟨m, hm, hlays⟩ ⟨rfl, rfl, hcounts⟩
  | running =>
      rcases hallows with ⟨-, -, hrun, -⟩ | ⟨-, hsetting⟩
      · exact hrun.elim
      · exact hsetting.elim
  | counting done => exact hallows.2.elim

/-! #### `run` -/

theorem Banking.run_on (call' : BankCall) {m : BankMemory BlockId} {cells : BankCells BlockId}
    (h : Banking bank nbrepeats first stage a log r rounds)
    (hown : a.own (some tid) = .worker (.busy j call)) (hruns : call.Runs) (hruns' : call'.InRun)
    (hlays : Lays bank d m) (hledger : Ledger bank m cells 0) :
    ∃ stage log r rounds, Banking bank nbrepeats first stage
      ⟨a.shared, Function.update a.own (some tid) (.worker (.busy j call')), d⟩ log r rounds := by
  obtain ⟨-, hallows⟩ := h.of_own hown
  obtain ⟨rfl, -⟩ := BankStage.of_run hallows hruns
  exact ⟨_, _, _, _, h.go_on call' hown ⟨m, cells, hlays, hledger⟩
    (BankStage.keep_run hallows hruns hruns')⟩

omit [DecidableEq Tid] in
theorem Banking.running (h : Banking bank nbrepeats first stage a log r rounds)
    (hown : a.own (some tid) = .worker (.busy j call)) (hruns : call.Runs) :
    ∃ m cells, Lays bank a.data m ∧ Ledger bank m cells 0 := by
  obtain ⟨-, hallows⟩ := h.of_own hown
  obtain ⟨rfl, -⟩ := BankStage.of_run hallows hruns
  exact h.memory

theorem Banking.long_completes (hnb : 1 ≤ bank.nbaccounts)
    (h : Banking bank nbrepeats first stage a log r rounds)
    (hown : a.own (some tid) = .worker (.busy j call))
    (hcall : call = .lastLong ∨ ∃ cntr count, call = .runLong cntr count) :
    Code.Total bank.body (Completes bank nbrepeats first a tid j call) bank.longCode a.data := by
  have hruns : call.Runs := by
    rcases hcall with rfl | ⟨cntr, count, rfl⟩ <;> exact trivial
  obtain ⟨m, cells, hlays, hledger⟩ := h.running hown hruns
  have hlong := hledger.longTx (le_refl cells.length) 0
  refine ((hlays.implements hnb).longTx _ _ _ _ hlong).mono ?_
  rintro result d ⟨rfl, updated, rfl, -⟩
  refine ⟨by rintro e ⟨⟩, h.run_on _ hown hruns ?_ hlays hledger⟩
  rcases hcall with rfl | ⟨cntr, count, rfl⟩
  · exact .inl rfl
  · exact trivial

theorem Banking.alloc_completes (hinit : 0 ≤ bank.initBalance) (hnb : 1 ≤ bank.nbaccounts)
    {cntr count trigger : Nat} (h : Banking bank nbrepeats first stage a log r rounds)
    (hown : a.own (some tid) = .worker (.busy j (.runAlloc cntr count trigger))) :
    Code.Total bank.body (Completes bank nbrepeats first a tid j (.runAlloc cntr count trigger))
      (bank.allocCode trigger) a.data := by
  obtain ⟨m, cells, hlays, hledger⟩ := h.running hown trivial
  obtain ⟨hlt, -⟩ | ⟨m', cells', hok, hledger'⟩ :=
    hledger.allocTx hinit hnb (hlays.fresh _ le_rfl) trigger cells.length
  · omega
  · refine ((hlays.implements hnb).allocTx _ _ _ hok).mono ?_
    rintro result d (⟨rfl, hlays'⟩ | ⟨rfl, rfl⟩)
    · exact ⟨by rintro e ⟨⟩, h.run_on (.loop (cntr + 1) count) hown trivial trivial
        hlays' hledger'⟩
    · refine ⟨fun e he => ?_, h.run_on (.ended .threw) hown trivial (.inr rfl) hlays
        hledger⟩
      cases he
      rfl

theorem Banking.short_completes (hnb : 1 ≤ bank.nbaccounts) {cntr count sendId recvId : Nat}
    (h : Banking bank nbrepeats first stage a log r rounds)
    (hown : a.own (some tid) = .worker (.busy j (.runShort cntr count sendId recvId))) :
    Code.Total bank.body
      (Completes bank nbrepeats first a tid j (.runShort cntr count sendId recvId))
      (bank.shortCode sendId recvId) a.data := by
  obtain ⟨m, cells, hlays, hledger⟩ := h.running hown trivial
  obtain ⟨hlt, -⟩ | ⟨m', done, cells', hok, hledger'⟩ := hledger.shortTx sendId recvId cells.length
  · omega
  · refine ((hlays.implements hnb).shortTx _ _ _ _ _ hok).mono ?_
    rintro result d ⟨rfl, hlays'⟩
    refine ⟨by rintro e ⟨⟩, h.run_on _ hown trivial ?_ hlays' hledger'⟩
    cases done with
    | true => exact trivial
    | false => exact trivial

/-! #### `check` -/

omit [DecidableEq Tid] in
theorem BankStage.left_of_done {done : Tid → Nat} {n : Nat} (h : ∀ t, done t = n) :
    left done = ((decrements - n : Int) * Fintype.card Tid) := by
  simp only [left, h, Finset.sum_const, Finset.card_univ, Nat.cast_mul, nsmul_eq_mul]
  ring

omit [DecidableEq Tid] in
/-- The rounds of the barrier around the loop of a worker. -/
theorem BankStage.around_loop {done : Tid → Nat} {entered returned : Nat} {script : Worker BankCall}
    (h : (BankStage.counting done).Allows nbrepeats first tid entered returned script) :
    (returned ≤ 1 → done tid = 0) ∧ (3 ≤ entered → done tid = decrements) := by
  cases script with
  | waiting j | returned threw =>
      obtain ⟨-, hdone, hentered, hreturned⟩ := h
      exact ⟨by omega, fun _ => hdone⟩
  | thrown | leaving => exact h.elim
  | busy j call =>
      obtain ⟨-, h⟩ := h
      cases call <;> simp only [BankCall.Counting] at h <;> (constructor <;> intro) <;> omega

omit [DecidableEq Tid] in
/-- Once the first worker comes to set the counter, nobody is in a measured run any more. -/
theorem BankStage.running_counting {t : Tid} {entered returned : Nat} {script : Worker BankCall}
    (h : BankStage.running.Allows nbrepeats first t entered returned script)
    (hentered : 1 ≤ entered) (ht : t ≠ first) :
    (BankStage.counting fun _ => 0).Allows nbrepeats first t entered returned script := by
  cases script with
  | waiting j =>
      obtain ⟨-, -, hzero, -⟩ := h
      omega
  | thrown | leaving | returned =>
      obtain ⟨hzero, -⟩ := h
      omega
  | busy j call =>
      rcases h with ⟨-, -, -, hzero, -⟩ | ⟨hj, hsetting⟩
      · omega
      · refine ⟨hj, ?_⟩
        cases call <;> simp only [BankCall.Setting] at hsetting
        case entering n violation =>
          obtain ⟨hnone, hcounts, hcounts', hn⟩ := hsetting
          exact ⟨hnone, hcounts, hcounts', .inl ⟨by omega, rfl⟩⟩
        case syncing n violation =>
          obtain ⟨hnone, hcounts, hcounts', hn | ⟨hn, -⟩⟩ := hsetting
          · exact ⟨hnone, hcounts, hcounts', .inl ⟨hn, rfl, ht⟩⟩
          · exact ⟨hnone, hcounts, hcounts', .inr (.inl ⟨hn, rfl⟩)⟩
        case setCounter => exact (ht hsetting.1).elim

theorem Banking.setCounter_completes (h : Banking bank nbrepeats first stage a log r rounds)
    (hown : a.own (some tid) = .worker (.busy j .setCounter)) :
    Code.Total bank.body (Completes bank nbrepeats first a tid j .setCounter)
      (bank.setCounterCode (decrements * Fintype.card Tid)) a.data := by
  obtain ⟨-, hallows⟩ := h.of_own hown
  cases stage with
  | created => cases hallows.2.1
  | initialised => exact hallows.2.1.elim
  | running =>
      rcases hallows with ⟨-, -, hrun, -⟩ | ⟨hj, hfirst, hentered, hreturned⟩
      · exact hrun.elim
      · subst hfirst
        obtain ⟨m, cells, hlays, -⟩ := h.memory
        obtain ⟨segment, hm⟩ := Option.ne_none_iff_exists'.mp hlays.start
        have hholds := hlays.count hm
        obtain ⟨phase, n, hphase⟩ := h.barrier
        have hleft : BankStage.left (fun _ : Tid => 0) = (decrements * Fintype.card Tid : Nat) := by
          rw [BankStage.left_of_done (n := 0) fun _ => rfl]
          push_cast
          ring
        refine Code.total_write hholds
          (Code.total_ret ⟨by rintro e ⟨⟩, .counting fun _ => 0, log, r, rounds, ?_⟩)
        refine h.move_on (.counting fun _ => 0) .checkCounter hown ?_
          ⟨hj, rfl, rfl, hentered, hreturned⟩ fun t script ht _ hallows => ?_
        · rw [BankStage.Memory, hleft]
          exact Holds.store (k := 0) hholds
        · have htogether := hphase.together tid t
          exact BankStage.running_counting hallows (by omega) ht
  | counting done => exact hallows.2.elim

omit [DecidableEq Tid] in
theorem BankStage.of_counts {entered returned : Nat}
    (h : stage.Allows nbrepeats first tid entered returned (.busy j call)) (hcounts : call.Counts) :
    ∃ done, stage = .counting done ∧ j = nbrepeats + 1 ∧
      call.Counting (tid = first) (left done) (done tid) entered returned := by
  cases stage with
  | created =>
      obtain ⟨-, rfl, -⟩ := h
      exact hcounts.elim
  | initialised =>
      obtain ⟨-, hinit, -⟩ := h
      cases call <;> first | exact hinit.elim | exact hcounts.elim
  | running =>
      rcases h with ⟨-, -, hrun, -⟩ | ⟨-, hsetting⟩
      · cases call <;> first | exact hrun.elim | exact hcounts.elim
      · cases call <;> first | exact hsetting.elim | exact hcounts.elim
  | counting done => exact ⟨done, rfl, h⟩

/-- `barrier.sync()` separates the loops of all workers from what the first one checks. -/
theorem Banking.checkCounter_completes (h : Banking bank nbrepeats first stage a log r rounds)
    (hown : a.own (some tid) = .worker (.busy j .checkCounter)) :
    Code.Total bank.body (Completes bank nbrepeats first a tid j .checkCounter)
      (bank.counterIsCode (decrements * Fintype.card Tid)) a.data := by
  obtain ⟨-, hallows⟩ := h.of_own hown
  obtain ⟨done, rfl, hj, -, hdone, hentered, hreturned⟩ := BankStage.of_counts hallows trivial
  have hholds : Holds a.data bank.getStart (.number (BankStage.left done)) := h.memory
  obtain ⟨phase, n, hphase⟩ := h.barrier
  have hnone : ∀ t, done t = 0 := by
    intro t
    obtain ⟨script, -, -, hscript⟩ := h.worker t
    have htogether := hphase.together t tid
    exact (BankStage.around_loop hscript).1 (by omega)
  have hleft : BankStage.left done = (decrements * Fintype.card Tid : Nat) := by
    rw [BankStage.left_of_done hnone]
    push_cast
    ring
  refine Code.total_readNumber hholds
    (Code.total_ret ⟨by rintro e ⟨⟩, .counting done, log, r, rounds, h.go_on _ hown hholds ?_⟩)
  rw [hleft]
  simp only [bankReturns, decide_true, if_true]
  exact ⟨hj, rfl, by omega, by omega, .inl ⟨rfl, hdone⟩⟩

theorem Banking.checkZero_completes (h : Banking bank nbrepeats first stage a log r rounds)
    (hown : a.own (some tid) = .worker (.busy j .checkZero)) :
    Code.Total bank.body (Completes bank nbrepeats first a tid j .checkZero)
      (bank.counterIsCode 0) a.data := by
  obtain ⟨-, hallows⟩ := h.of_own hown
  obtain ⟨done, rfl, hj, -, hdone, hentered, hreturned⟩ := BankStage.of_counts hallows trivial
  have hholds : Holds a.data bank.getStart (.number (BankStage.left done)) := h.memory
  obtain ⟨phase, n, hphase⟩ := h.barrier
  have hall : ∀ t, done t = decrements := by
    intro t
    obtain ⟨script, -, -, hscript⟩ := h.worker t
    have htogether := hphase.together tid t
    exact (BankStage.around_loop hscript).2 (by omega)
  have hleft : BankStage.left done = (0 : Nat) := by
    rw [BankStage.left_of_done hall]
    simp
  refine Code.total_readNumber hholds
    (Code.total_ret ⟨by rintro e ⟨⟩, .counting done, log, r, rounds, h.go_on _ hown hholds ?_⟩)
  rw [hleft]
  simp only [bankReturns, verdict, decide_true, if_true]
  exact ⟨hj, rfl, hdone, hentered, hreturned⟩

theorem Banking.readLast_completes {i : Nat} (h : Banking bank nbrepeats first stage a log r rounds)
    (hown : a.own (some tid) = .worker (.busy j (.readLast i))) :
    Code.Total bank.body (Completes bank nbrepeats first a tid j (.readLast i)) bank.lastCode
      a.data := by
  obtain ⟨-, hallows⟩ := h.of_own hown
  obtain ⟨done, rfl, hj, hdone, hi, hcounts⟩ := BankStage.of_counts hallows trivial
  have hholds : Holds a.data bank.getStart (.number (BankStage.left done)) := h.memory
  exact Code.total_readNumber hholds
    (Code.total_ret ⟨by rintro e ⟨⟩, .counting done, log, r, rounds,
    h.go_on (.decrease i (BankStage.left done)) hown hholds
      ⟨hj, hdone, hi, le_rfl, hcounts⟩⟩)

theorem BankStage.left_update {done : Tid → Nat} :
    left (Function.update done tid (done tid + 1)) = left done - 1 := by
  have hsum : ∑ t, ((Function.update done tid (done tid + 1) t : Nat) : Int) =
      (∑ t, (done t : Int)) + 1 := by
    have hcast : ∀ t, ((Function.update done tid (done tid + 1) t : Nat) : Int) =
        (done t : Int) + if t = tid then 1 else 0 := by
      intro t
      by_cases ht : t = tid
      · subst ht
        simp
      · simp [ht]
    rw [Finset.sum_congr rfl fun t _ => hcast t, Finset.sum_add_distrib]
    simp
  rw [left, left, hsum]
  ring

/-- The counter never rises, whoever decreases it. -/
theorem BankStage.counting_decreased {done : Tid → Nat} {t : Tid} {entered returned : Nat}
    {script : Worker BankCall}
    (h : (BankStage.counting done).Allows nbrepeats first t entered returned script)
    (ht : t ≠ tid) :
    (BankStage.counting (Function.update done tid (done tid + 1))).Allows nbrepeats first t entered
      returned script := by
  cases script with
  | thrown | leaving => exact h.elim
  | waiting | returned =>
      rwa [BankStage.Allows, Function.update_of_ne ht]
  | busy j call =>
      obtain ⟨hj, hcounting⟩ := h
      rw [BankStage.Allows, BankStage.left_update, Function.update_of_ne ht]
      refine ⟨hj, ?_⟩
      cases call <;> first
        | exact hcounting
        | obtain ⟨hdone, hi, hle, hcounts⟩ := hcounting
          exact ⟨hdone, hi, by omega, hcounts⟩

theorem Banking.decrease_completes {i : Nat} {last : Int}
    (h : Banking bank nbrepeats first stage a log r rounds)
    (hown : a.own (some tid) = .worker (.busy j (.decrease i last))) :
    Code.Total bank.body (Completes bank nbrepeats first a tid j (.decrease i last))
      (bank.decreaseCode last) a.data := by
  obtain ⟨-, hallows⟩ := h.of_own hown
  obtain ⟨done, rfl, hj, hdone, hi, hle, hentered, hreturned⟩ := BankStage.of_counts hallows trivial
  have hholds : Holds a.data bank.getStart (.number (BankStage.left done)) := h.memory
  refine Code.total_readNumber hholds ?_
  rw [if_neg (by omega)]
  refine Code.total_write hholds (Code.total_ret ⟨by rintro e ⟨⟩,
    .counting (Function.update done tid (done tid + 1)), log, r, rounds, ?_⟩)
  refine h.move_on _ _ hown ?_ ?_ fun t script ht _ hallows =>
    BankStage.counting_decreased hallows ht
  · rw [BankStage.Memory, BankStage.left_update]
    exact Holds.store (k := 0) hholds
  · simp only [bankReturns, if_true]
    split
    · rename_i hnext
      exact ⟨hj, by rw [Function.update_self, hdone], hnext, hentered, hreturned⟩
    · refine ⟨hj, rfl, by omega, by omega, .inr ⟨rfl, ?_⟩⟩
      rw [Function.update_self]
      omega

theorem Banking.block_completes (hinit : 0 ≤ bank.initBalance) (hnb : 1 ≤ bank.nbaccounts)
    {isRo : Bool} {code : BankCode} (h : Banking bank nbrepeats first stage a log r rounds)
    (hown : a.own (some tid) = .worker (.busy j call))
    (hblock : bankBlock bank (Fintype.card Tid) call = some (isRo, code)) :
    Code.Total bank.body (Completes bank nbrepeats first a tid j call) code a.data := by
  cases call with
  | init =>
      cases hblock
      exact h.init_completes hinit hnb hown
  | initCheck =>
      cases hblock
      exact h.initCheck_completes hnb hown
  | runLong cntr count =>
      cases hblock
      exact h.long_completes hnb hown (.inr ⟨cntr, count, rfl⟩)
  | lastLong =>
      cases hblock
      exact h.long_completes hnb hown (.inl rfl)
  | runAlloc =>
      cases hblock
      exact h.alloc_completes hinit hnb hown
  | runShort =>
      cases hblock
      exact h.short_completes hnb hown
  | setCounter =>
      cases hblock
      exact h.setCounter_completes hown
  | checkCounter =>
      cases hblock
      exact h.checkCounter_completes hown
  | readLast =>
      cases hblock
      exact h.readLast_completes hown
  | decrease =>
      cases hblock
      exact h.decrease_completes hown
  | checkZero =>
      cases hblock
      exact h.checkZero_completes hown
  | loop | draw | entering | syncing | ended => cases hblock

end Transactions

/-! ### Every run -/

section Runs

variable [DecidableEq Tid] [Fintype Tid] {w : Nat} {bank : WorkloadBank BlockId}
  {nbtxperwrk nbrepeats : Nat} {first : Tid} {a : BankState Tid w}

abbrev measureBank (bank : WorkloadBank BlockId) (nbtxperwrk nbrepeats : Nat) (first : Tid)
    (w : Nat) : Clients (transactions (Code.request bank.body)) (Option Tid)
      (Measuring Tid (Barrier Tid w) w) (Local BankCall) :=
  measure (bankWorkload bank nbtxperwrk first) nbrepeats w

def BankKept (bank : WorkloadBank BlockId) (nbrepeats : Nat) (first : Tid) (a : BankState Tid w) :
    Prop :=
  ∃ stage log r rounds, Banking bank nbrepeats first stage a log r rounds

theorem bank_block (hinit : 0 ≤ bank.initBalance) (hnb : 1 ≤ bank.nbaccounts) {tid : Option Tid}
    {isRo : Bool} {p : Reference.TxPoint Cell BankCode} (h : BankKept bank nbrepeats first a)
    (hblock : (measureBank bank nbtxperwrk nbrepeats first w).block tid (a.own tid) =
      some (isRo, p)) :
    (transactions (Code.request bank.body)).Total
      (fun result d => (∀ e, result = .error e → e = .alloc) ∧ BankKept bank nbrepeats first
        ⟨a.shared, Function.update a.own tid
          ((measureBank bank nbtxperwrk nbrepeats first w).returns
          tid (a.own tid) result), d⟩) (p, a.data) := by
  obtain ⟨t, j, call, rfl, hown, -, hcall⟩ := measureBlock_eq_some hblock
  obtain ⟨stage, log, r, rounds, hbanking⟩ := h
  obtain ⟨⟨isRo', code⟩, hcode, heq⟩ := Option.map_eq_some_iff.mp hcall
  obtain ⟨rfl, rfl⟩ := Prod.mk.inj heq
  have htotal := hbanking.block_completes hinit hnb hown hcode
  rw [hown]
  exact htotal

theorem bank_keeps [Nonempty Tid] (hw : Fintype.card Tid < 2 ^ w) (hinit : 0 ≤ bank.initBalance)
    (hnb : 1 ≤ bank.nbaccounts) :
    Clients.Keeps (measureBank bank nbtxperwrk nbrepeats first w)
      (BankKept bank nbrepeats first) where
  move := by
    rintro a tid g k ⟨stage, log, r, rounds, h⟩ hmove
    have hmove : MeasureMove (bankWorkload bank nbtxperwrk first) nbrepeats tid
      (a.shared, a.own tid) (g, k) := hmove
    generalize hown : a.own tid = own at hmove
    cases hmove with
    | master =>
        refine ⟨stage, log, _, rounds, h.recorded.masterStep hown, h.barrier, h.memory, fun t => ?_⟩
        obtain ⟨script, hscript, hworker⟩ := h.worker t
        refine ⟨script, ?_, hworker⟩
        simp only [Function.update_of_ne (Option.some_ne_none t)]
        exact hscript
    | worker hworker => exact h.workerMove hw hinit hnb hown hworker
  block h hblock := (bank_block hinit hnb h hblock).mono fun _ _ hcompletes => hcompletes.2

theorem bank_kept_initial [Nonempty Tid] {d : Region Cell} (hstart : bank.start = 0)
    (hcreate : Reference.tmCreate true true true (AccountSegment.size bank.nbaccounts) 8 = some d)
    {g : Measuring Tid (Barrier Tid w) w} {own : Option Tid → Local BankCall}
    (hinit : (measureBank bank nbtxperwrk nbrepeats first w).init g own) :
    BankKept bank nbrepeats first ⟨g, own, d⟩ := by
  obtain ⟨sync, barrier⟩ := g
  obtain ⟨hsync, hbarrier, hmaster, hworkers⟩ := hinit
  obtain rfl : barrier = _ := hbarrier
  refine ⟨.created, fun _ => [], RunRecord.initial, ⟨fun _ => 0, fun _ => 0⟩,
    recorded_initial hsync hmaster hworkers, ⟨_, _, inPhase_init⟩, lays_created hstart hcreate,
    fun t => ⟨_, hworkers t, by rintro e ⟨⟩, rfl, rfl, rfl⟩⟩

abbrev BankThreads (Tid : Type) (w : Nat) : Type :=
  Reference.State (Option Tid) (Measuring Tid (Barrier Tid w) w) (Local BankCall) Cell BankCode

structure Passes (bank : WorkloadBank BlockId) (nbtxperwrk nbrepeats : Nat) (first : Tid)
    (s : BankThreads Tid w) : Prop where
  /-- No access outside the segments, and no `free` of what is not allocated. -/
  safe : ∀ tid isRo p memalignOk, s.inside tid = some (isRo, p) →
    p.step (Code.request bank.body) s.region memalignOk ≠ .crash
  /-- A transaction comes to its result, or memory runs out. -/
  total : ∀ tid isRo p, s.inside tid = some (isRo, p) →
    (transactions (Code.request bank.body)).Total
      (fun result _ => ∀ e, result = .error e → e = .alloc) (p, s.region.unlocked)
  progress : ∀ tid, s.inside tid ≠ none ∨
      (measureBank bank nbtxperwrk nbrepeats first w).block tid (s.own tid) ≠ none →
    ∃ t s', Reference.Step (measureBank bank nbtxperwrk nbrepeats first w) t s s' ∧
      (s.inside t ≠ none ∨ s'.inside t ≠ none)
  unviolated : ∀ t j msg, s.own (some t) ≠ .worker (.busy j (.ended (.returned (some msg))))
  /-- The one error is of a worker that ran out of memory. -/
  failed : ∀ runs msg, s.own none = .master runs (some msg) → msg = some internalError ∧
    ∃ t, s.own (some t) = .worker .leaving ∨ s.own (some t) = .worker (.returned true)
  complete : ∀ runs, s.own none = .master runs none → s.shared.sync.master = .joined →
    runs = nbrepeats + 2

omit [DecidableEq Tid] in
theorem BankStage.unviolated {stage : BankStage Tid} {tid : Tid} {entered returned j : Nat}
    {msg : String} : ¬ stage.Allows nbrepeats first tid entered returned
      (.busy j (.ended (.returned (some msg)))) := by
  intro h
  cases stage with
  | created => cases h.2.1
  | initialised => cases h.2.1
  | running =>
      rcases h with ⟨-, -, hended | hended, -⟩ | ⟨-, hsetting⟩
      · cases hended
      · cases hended
      · exact hsetting.elim
  | counting done => cases h.2.1

omit [DecidableEq Tid] in
theorem Banking.failed [Nonempty Tid] {stage : BankStage Tid} {log : Tid → List (Option String)}
    {r : RunRecord Tid String} {rounds : SyncRecord Tid} {runs : Nat} {msg : Option String}
    (h : Banking bank nbrepeats first stage a log r rounds)
    (hown : a.own none = .master runs (some msg)) : msg = some internalError ∧
      ∃ t, a.own (some t) = .worker .leaving ∨ a.own (some t) = .worker (.returned true) := by
  obtain ⟨t, e, rfl, hpassed⟩ := h.recorded.measures.failed runs msg hown
  have hmem : some e ∈ log t := List.mem_of_getElem? hpassed
  obtain ⟨script, hscript, hclean, -⟩ := h.worker t
  have hnone : (∀ x ∈ log t, x = none) → False := fun hall => by cases hall _ hmem
  have hinternal : (∀ x ∈ log t, x = none ∨ x = some internalError) → some e = some internalError :=
    fun hall => (hall _ hmem).resolve_left (by simp)
  cases script with
  | leaving => exact ⟨hinternal hclean, t, .inl hscript⟩
  | returned threw =>
      cases threw with
      | true => exact ⟨hinternal hclean, t, .inr hscript⟩
      | false => exact (hnone hclean).elim
  | waiting | busy | thrown => exact (hnone hclean).elim

/-- **The grading program accepts the reference implementation**: in every interleaving of any
number of workers, word by word, the bank is never seen in a state that `run` or `check` reports. -/
theorem grading_accepts_reference [Nonempty Tid] (hw : Fintype.card Tid < 2 ^ w)
    (hstart : bank.start = 0) (hnb : 1 ≤ bank.nbaccounts) (hinit : 0 ≤ bank.initBalance)
    {s : BankThreads Tid w}
    (h : (Reference.threads (measureBank bank nbtxperwrk nbrepeats first w)
      (AccountSegment.size bank.nbaccounts) 8).Reachable s) :
    Passes bank nbtxperwrk nbrepeats first s := by
  obtain ⟨d, hcreate⟩ : ∃ d : Region Cell,
      Reference.tmCreate true true true (AccountSegment.size bank.nbaccounts) 8 = some d := ⟨_, rfl⟩
  have hkeeps : Clients.Keeps (measureBank bank nbtxperwrk nbrepeats first w)
      (BankKept bank nbrepeats first) := bank_keeps hw hinit hnb
  obtain ⟨a, ha, href⟩ := Clients.refines_of_reachable (Reference.view_reachable hcreate h)
  have hkept : BankKept bank nbrepeats first a :=
    hkeeps.reachable (fun g own => bank_kept_initial hstart hcreate) ha
  have hserves := Reference.Serves.of_refines hkeeps href hkept
  have hown : a.own = s.own := href.own
  refine ⟨hserves.safe, fun tid isRo p hin => ?_, hserves.progress, ?_, ?_, ?_⟩
  · have hin' : s.view.inside tid = some (isRo, p) := hin
    obtain ⟨p₀, hblock, hruns⟩ := href.begun hin'
    have hblock' : (measureBank bank nbtxperwrk nbrepeats first w).block tid (a.own tid) =
        some (isRo, p₀) := by rwa [hown]
    exact ((bank_block hinit hnb hkept hblock').of_runs hruns).mono fun _ _ hresult => hresult.1
  · rintro t j msg hbusy
    obtain ⟨stage, log, r, rounds, hbanking⟩ := hkept
    exact BankStage.unviolated (hbanking.of_own (hown ▸ hbusy)).2
  · intro runs msg hmaster
    obtain ⟨stage, log, r, rounds, hbanking⟩ := hkept
    rw [← hown] at hmaster ⊢
    exact hbanking.failed hmaster
  · intro runs hmaster hjoined
    obtain ⟨stage, log, r, rounds, hbanking⟩ := hkept
    have hshared : a.shared = s.shared := href.shared
    rw [← hown] at hmaster
    rw [← hshared] at hjoined
    exact hbanking.recorded.measures.complete runs hmaster hjoined

end Runs

/-! ### Two workers in `init` -/

section TwoWorkers

def smallBank : WorkloadBank BlockId := ⟨0, 2, 100⟩

abbrev SmallThreads : Type := BankThreads Bool 32

abbrev smallGrading : Clients (transactions (Code.request smallBank.body)) (Option Bool)
    (Measuring Bool (Barrier Bool 32) 32) (Local BankCall) :=
  measureBank smallBank 10 1 true 32

def smallStart : SmallThreads where
  region := {
    readers := 0
    writer := false
    start := 0
    allocs := []
    size := 40
    align := 8
    segment := Function.update (fun _ => none) 0 (some 40)
    blockCount := 1
    word := fun _ _ => 0 }
  shared := ⟨Sync.initial Bool String 32, ⟨BitVec.ofNat 32 2, 0, .enter, fun _ => .outside⟩⟩
  own
    | none => .master 0 none
    | some _ => .worker (.waiting 0)
  inside _ := none

def smallMove (s : SmallThreads) (tid : Option Bool) : Option (Option Bool × SmallThreads) :=
  if (s.inside tid).isNone then
    ((s.own tid).next (bankWorkload smallBank 10 true) 1 s.shared tid).map fun x =>
      (tid, { s with shared := x.1, own := Function.update s.own tid x.2 })
  else none

def smallRun : Option (SmallThreads × Unit) :=
  Machine.drive smallMove (fun _ _ => true) (fun _ _ _ => ()) (smallStart, ())
    [none, some true, some true, some false, some false, some false, some false, some true]

theorem smallRun_reachable {p : SmallThreads × Unit} (h : smallRun = some p) :
    (Reference.threads smallGrading
      (AccountSegment.size smallBank.nbaccounts) 8).Reachable p.1 := by
  have hmove : ∀ s tid l s', smallMove s tid = some (l, s') →
      (Reference.threads smallGrading
        (AccountSegment.size smallBank.nbaccounts) 8).step s l s' := by
    intro s tid l s' h
    simp only [smallMove] at h
    split at h
    · rename_i hout
      obtain ⟨⟨g, own⟩, hnext, heq⟩ := Option.map_eq_some_iff.mp h
      cases heq
      exact .move (Option.isNone_iff_eq_none.mp hout) (.of_next hnext)
    · cases h
  have hinit : (((Reference.threads smallGrading (AccountSegment.size smallBank.nbaccounts)
      8).restrict fun _ _ => True).observe () fun _ _ _ => ()).Reachable (smallStart, ()) :=
    .init ⟨⟨⟨rfl, rfl, rfl, fun _ => rfl⟩, rfl, fun _ => rfl⟩, rfl⟩
  have hrun := (Machine.Reachable.drive hmove (fun _ _ _ => trivial) hinit h).of_restrict_observe
  exact hrun.of_observe

/-- One of them is in the first transaction, the other waits for it. -/
theorem grading_accepts_reference_in_init : ∃ s : SmallThreads,
    s.own (some false) = .worker (.busy 0 .init) ∧ s.own (some true) = .worker (.busy 0 .init) ∧
      s.inside (some true) = some (false, .client smallBank.initCode) ∧
        Passes smallBank 10 1 true s := by
  obtain ⟨⟨s, _⟩, hs⟩ : ∃ p, smallRun = some p := Option.isSome_iff_exists.mp rfl
  have hstate : smallRun.map (fun p => (p.1.own (some false), p.1.own (some true))) =
      some (.worker (.busy 0 .init), .worker (.busy 0 .init)) := rfl
  have hinside : smallRun.map (fun p => (p.1.inside (some true), p.1.region.writer,
      p.1.region.readers)) = some (none, false, 0) := rfl
  rw [hs] at hstate hinside
  simp only [Option.map_some, Option.some.injEq, Prod.mk.injEq] at hstate hinside
  obtain ⟨hfalse, htrue⟩ := hstate
  obtain ⟨hout, hwriter, hreaders⟩ := hinside
  have hblock : smallGrading.block (some true) (s.own (some true)) =
      some (false, .client smallBank.initCode) := by
    rw [htrue]
    rfl
  have hbegin : Reference.tmBegin s.region false =
      .next (true, { s.region with writer := true }) := by
    simp [Reference.tmBegin, hwriter, hreaders]
  have hstep := (smallRun_reachable hs).step (Reference.Step.begin hout hblock hbegin :
    Reference.Step smallGrading (some true) s _)
  have hself : Function.update s.inside (some true) (some (false, .client smallBank.initCode))
      (some true) = some (false, .client smallBank.initCode) := Function.update_self ..
  exact ⟨{ s with
      region := { s.region with writer := true }
      inside := Function.update s.inside (some true) (some (false, .client smallBank.initCode)) },
    hfalse, htrue, hself,
    grading_accepts_reference (by decide) rfl (by decide) (by decide) hstep⟩

end TwoWorkers

end TransactionalMemory.Grading
