import TransactionalMemory.Library.Machine
import Mathlib.Data.Fintype.Card
import Mathlib.Logic.Function.Basic

/-!
# The spin barrier of the grading program

`Barrier::sync`, between two accesses to the atomic counter and the atomic mode. A thread that polls
the mode and does not find what it waits for stays where it is.
-/

namespace TransactionalMemory.Grading

open Concurrency

inductive Mode where
  | enter
  | leave
deriving DecidableEq, Repr

inductive SyncPoint where
  /-- Not inside `sync`. -/
  | outside
  | fetchAdd
  | storeLeave
  | waitLeave
  | fetchSub
  | storeEnter
  | waitEnter
deriving DecidableEq, Repr

/-- A barrier and its threads. `Counter` has `w` bits. -/
structure Barrier (Tid : Type) (w : Nat) where
  cardinal : BitVec w
  step : BitVec w
  mode : Mode
  point : Tid → SyncPoint

variable {Tid : Type} [DecidableEq Tid] {w : Nat}

def Barrier.goto (b : Barrier Tid w) (tid : Tid) (point : SyncPoint) : Barrier Tid w :=
  { b with point := Function.update b.point tid point }

def Barrier.sync (b : Barrier Tid w) (tid : Tid) : Barrier Tid w :=
  match b.point tid with
  | .outside => b.goto tid .fetchAdd
  | .fetchAdd =>
      let b' := { b with step := b.step + 1 }
      if b.step + 1 = b.cardinal then b'.goto tid .storeLeave else b'.goto tid .waitLeave
  | .storeLeave => { b with mode := .leave }.goto tid .fetchSub
  | .waitLeave => if b.mode ≠ .leave then b else b.goto tid .fetchSub
  | .fetchSub =>
      let b' := { b with step := b.step - 1 }
      if b.step - 1 = 0 then b'.goto tid .storeEnter else b'.goto tid .waitEnter
  | .storeEnter => { b with mode := .enter }.goto tid .outside
  | .waitEnter => if b.mode ≠ .enter then b else b.goto tid .outside

def barrierMachine (Tid : Type) [DecidableEq Tid] [Fintype Tid] (w : Nat) :
    Machine (Barrier Tid w) Tid where
  init b := b = ⟨BitVec.ofNat w (Fintype.card Tid), 0, .enter, fun _ => .outside⟩
  step b tid b' := b' = b.sync tid

end TransactionalMemory.Grading
