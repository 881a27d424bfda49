import TransactionalMemory.Library.ReadersWriter
import TransactionalMemory.Model.RunSync

/-!
# The measuring program

`measure`: the master and the workers of `Sync`, with the workload that the workers run. A worker
goes through the initialization, the measured runs and the check; an exception on the way ends it
after one last notification. The master starts one run after the other, until one fails. Its
timeouts are left out.
-/

namespace TransactionalMemory.Grading

open Concurrency

inductive Task where
  | init
  | run (count : Nat)
  | check
deriving DecidableEq, Repr

/-- The run that follows the `j`-th call of `worker_wait`. -/
def task (nbrepeats j : Nat) : Option Task :=
  if j = 0 then some .init
  else if j ≤ nbrepeats then some (.run (j - 1))
  else if j = nbrepeats + 1 then some .check
  else none

inductive Ending where
  | returned (error : Option String)
  | threw

variable {π δ β : Type}

/-- `Workload`: the shared state of its object and, for each worker, the local variables of a call.
A call makes steps and runs transactions. -/
structure Workload (B : Blocks π δ β) (Tid γ τ : Type) where
  created : γ → Prop
  call : Tid → Task → τ
  move : Tid → γ × τ → γ × τ → Prop
  block : Tid → τ → Option (Bool × π)
  returns : Tid → τ → β → τ
  ended : τ → Option Ending
  quiet : ∀ {tid x p}, block tid x = some (true, p) → B.Quiet p

inductive Worker (τ : Type) where
  /-- In `worker_notify` or `worker_wait`, before its `j`-th run. -/
  | waiting (j : Nat)
  | busy (j : Nat) (x : τ)
  /-- At the exception handler. -/
  | thrown (unexpected : Bool)
  /-- In the last `worker_notify`. -/
  | leaving
  | returned (threw : Bool)

/-- The local variables of a thread of `measure`: the master counts the runs that have succeeded and
keeps the error of the one that has not. -/
inductive Local (τ : Type) where
  | master (runs : Nat) (error : Option (Option String))
  | worker (script : Worker τ)

structure Measuring (Tid γ : Type) (w : Nat) where
  sync : Sync Tid String w
  workload : γ

def internalError : String := "Internal worker exception(s)"

section Moves

variable {B : Blocks π δ β} {Tid γ τ : Type} [DecidableEq Tid] {w : Nat} (W : Workload B Tid γ τ)
  (nbrepeats : Nat)

def Measuring.worker (s : Measuring Tid γ w) (tid : Tid) (error : Option String) :
    Measuring Tid γ w :=
  { s with sync := s.sync.workerStep tid error }

inductive WorkerMove (tid : Tid) (s : Measuring Tid γ w) :
    Worker τ → Measuring Tid γ w → Worker τ → Prop where
  | wait {j : Nat} (hpoint : (s.sync.workerStep tid none).worker tid ≠ .running)
      (hquit : (s.sync.workerStep tid none).worker tid ≠ .quit) :
      WorkerMove tid s (.waiting j) (s.worker tid none) (.waiting j)
  | start {j : Nat} {run : Task} (hpoint : (s.sync.workerStep tid none).worker tid = .running)
      (hrun : task nbrepeats j = some run) :
      WorkerMove tid s (.waiting j) (s.worker tid none) (.busy j (W.call tid run))
  /-- `Exception::Unreachable`. -/
  | unexpected {j : Nat} (hpoint : (s.sync.workerStep tid none).worker tid = .running)
      (hrun : task nbrepeats j = none) :
      WorkerMove tid s (.waiting j) (s.worker tid none) (.thrown true)
  | quit {j : Nat} (hquit : (s.sync.workerStep tid none).worker tid = .quit) :
      WorkerMove tid s (.waiting j) (s.worker tid none) (.returned false)
  | work {j : Nat} {x x' : τ} {g : γ} (hended : W.ended x = none)
      (h : W.move tid (s.workload, x) (g, x')) :
      WorkerMove tid s (.busy j x) { s with workload := g } (.busy j x')
  | notify {j : Nat} {x : τ} {error : Option String} (hended : W.ended x = some (.returned error)) :
      WorkerMove tid s (.busy j x) (s.worker tid error) (.waiting (j + 1))
  | throw {j : Nat} {x : τ} (hended : W.ended x = some .threw) :
      WorkerMove tid s (.busy j x) s (.thrown false)
  | handle {unexpected : Bool} :
      WorkerMove tid s (.thrown unexpected) (s.worker tid (some internalError)) .leaving
  | leave (hpoint : s.sync.worker tid ≠ .polling) :
      WorkerMove tid s .leaving (s.worker tid none) .leaving
  | exit (hpoint : s.sync.worker tid = .polling) : WorkerMove tid s .leaving s (.returned true)

def goesOn (runs : Nat) (error : Option (Option String)) : Bool :=
  error.isNone && decide (runs < nbrepeats + 2)

def Measuring.master (s : Measuring Tid γ w) (again : Bool) : Measuring Tid γ w :=
  { s with sync := s.sync.masterStep again }

def answered (s : Sync Tid String w) (runs : Nat) (error : Option (Option String)) :
    Nat × Option (Option String) :=
  match s.master with
  | .loading => if s.status = .done then (runs + 1, error) else (runs, error)
  | .loadingError => (runs, some s.errmsg)
  | _ => (runs, error)

inductive MeasureMove : Option Tid → Measuring Tid γ w × Local τ → Measuring Tid γ w × Local τ →
    Prop where
  | master {s : Measuring Tid γ w} {runs : Nat} {error : Option (Option String)} :
      MeasureMove none (s, .master runs error) (s.master (goesOn nbrepeats runs error),
        .master (answered s.sync runs error).1 (answered s.sync runs error).2)
  | worker {tid : Tid} {s s' : Measuring Tid γ w} {script script' : Worker τ}
      (h : WorkerMove W nbrepeats tid s script s' script') :
      MeasureMove (some tid) (s, .worker script) (s', .worker script')

def measureBlock (tid : Option Tid) (own : Local τ) : Option (Bool × π) :=
  match tid, own with
  | some tid, .worker (.busy _ x) => if (W.ended x).isNone then W.block tid x else none
  | _, _ => none

def measureReturns (tid : Option Tid) (own : Local τ) (b : β) : Local τ :=
  match tid, own with
  | some tid, .worker (.busy j x) => .worker (.busy j (W.returns tid x b))
  | _, own => own

def measure [Fintype Tid] (w : Nat) :
    Clients B (Option Tid) (Measuring Tid γ w) (Local τ) where
  init s own := s.sync = Sync.initial Tid String w ∧ W.created s.workload ∧
    own none = .master 0 none ∧ ∀ tid, own (some tid) = .worker (.waiting 0)
  move := MeasureMove W nbrepeats
  block := measureBlock W
  returns := measureReturns W
  quiet := by
    intro tid own p h
    unfold measureBlock at h
    split at h
    · split at h
      · exact W.quiet h
      · cases h
    · cases h

end Moves

end TransactionalMemory.Grading
