import TransactionalMemory.Library.Machine
import Mathlib.Data.Fintype.Card
import Mathlib.Logic.Function.Basic

/-!
# Run synchronisation of the measuring program

`Sync`, between two accesses to `nbready`, `status`, `errmsg` and `donelatch`. The master notifies
and waits, run after run, until it joins; a worker waits, runs its workload and notifies, until it
is told to quit. Whoever polls and does not find what it waits for stays where it is.
-/

namespace TransactionalMemory.Grading

open Concurrency

inductive Status where
  | wait
  | run
  | abort
  | done
  | fail
  | quit
deriving DecidableEq, Repr

inductive MasterPoint where
  /-- Between `master_wait` and the next `master_notify` or `master_join`. -/
  | ready
  | waiting
  | loading
  | loadingError
  /-- `master_wait` has thrown `Exception::Unreachable`. -/
  | unreachable
  | joined
deriving DecidableEq, Repr

/-- Where a worker stands, with the values it keeps in local variables. -/
inductive WorkerPoint (E : Type) where
  | polling
  | arriving
  | resetting
  | releasing
  | spinning
  /-- Between `worker_wait` and `worker_notify`. -/
  | running
  | storingError (error : E)
  | storingAbort
  | counting
  | clearing
  | closing
  | settling (status : Status)
  | raising
  /-- `worker_wait` has returned false. -/
  | quit
deriving DecidableEq, Repr

/-- `E` are the non-null error strings, `unsigned int` has `w` bits. -/
structure Sync (Tid E : Type) (w : Nat) where
  nbworkers : BitVec w
  nbready : BitVec w
  status : Status
  errmsg : Option E
  /-- `donelatch.raised`. -/
  donelatch : Bool
  master : MasterPoint
  worker : Tid → WorkerPoint E

/-- What `master_wait` returns: the run time or `errmsg`. -/
inductive Answer (E : Type) where
  | runtime
  | error (errmsg : Option E)
deriving DecidableEq, Repr

inductive SyncMove (Tid E : Type) where
  /-- The master moves. Between two runs it notifies `again` or joins. -/
  | master (again : Bool)
  /-- A worker moves. If its run is over, it notifies with `error`. -/
  | worker (tid : Tid) (error : Option E)

variable {Tid E : Type} [DecidableEq Tid] {w : Nat}

/-- `master_notify`, `master_join` and `master_wait`. -/
def Sync.masterStep (s : Sync Tid E w) (again : Bool) : Sync Tid E w :=
  match s.master with
  | .ready =>
      if again then { s with status := .wait, master := .waiting }
      else { s with status := .quit, master := .joined }
  -- `Latch::wait` tests and resets the latch under its lock.
  | .waiting => if s.donelatch then { s with donelatch := false, master := .loading } else s
  | .loading =>
      match s.status with
      | .done => { s with master := .ready }
      | .fail => { s with master := .loadingError }
      | _ => { s with master := .unreachable }
  | .loadingError => { s with master := .ready }
  | .unreachable | .joined => s

def Sync.goto (s : Sync Tid E w) (tid : Tid) (point : WorkerPoint E) : Sync Tid E w :=
  { s with worker := Function.update s.worker tid point }

/-- `worker_wait` up to `running`, then `worker_notify`. -/
def Sync.workerStep (s : Sync Tid E w) (tid : Tid) (error : Option E) : Sync Tid E w :=
  match s.worker tid with
  | .polling =>
      if s.status = .wait then s.goto tid .arriving
      else if s.status = .quit then s.goto tid .quit
      else s
  | .arriving =>
      let s' := { s with nbready := s.nbready + 1 }
      if s.nbready + 1 = s.nbworkers then s'.goto tid .resetting else s'.goto tid .spinning
  | .resetting => { s with nbready := 0 }.goto tid .releasing
  | .releasing => { s with status := .run }.goto tid .running
  | .spinning => if s.status = .run ∨ s.status = .abort then s.goto tid .running else s
  | .running =>
      match error with
      | some e => s.goto tid (.storingError e)
      | none => s.goto tid .counting
  | .storingError e => { s with errmsg := some e }.goto tid .storingAbort
  | .storingAbort => { s with status := .abort }.goto tid .counting
  | .counting =>
      let s' := { s with nbready := s.nbready + 1 }
      if s.nbready + 1 = s.nbworkers then s'.goto tid .clearing else s'.goto tid .polling
  | .clearing => { s with nbready := 0 }.goto tid .closing
  | .closing => s.goto tid (.settling s.status)
  | .settling status =>
      { s with status := if status = Status.abort then .fail else .done }.goto tid .raising
  | .raising => { s with donelatch := true }.goto tid .polling
  | .quit => s

def Sync.step (s : Sync Tid E w) : SyncMove Tid E → Sync Tid E w
  | .master again => s.masterStep again
  | .worker tid error => s.workerStep tid error

def Sync.initial (Tid E : Type) [Fintype Tid] (w : Nat) : Sync Tid E w where
  nbworkers := BitVec.ofNat w (Fintype.card Tid)
  nbready := 0
  status := .done
  errmsg := none
  donelatch := false
  master := .ready
  worker _ := .polling

def syncMachine (Tid E : Type) [DecidableEq Tid] [Fintype Tid] (w : Nat) :
    Machine (Sync Tid E w) (SyncMove Tid E) where
  init s := s = Sync.initial Tid E w
  step s move s' := s' = s.step move

end TransactionalMemory.Grading
