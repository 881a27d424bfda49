import Mathlib.Data.List.Basic

/-!
# Atomic blocks of the grading program

`Transaction` and `transactional` over a library that may answer every call as it likes. A closure
is a tree of calls; it sees the result of each, an exception included, and may go on as it likes
too. Every transaction keeps a log of the calls that its methods have made to the library.
-/

namespace TransactionalMemory.Grading

def assertMode : Bool := false

/-- The exceptions that leave a closure. `X` are those that `Transaction` does not throw. -/
inductive TxException (X : Type) where
  | retry
  | alloc
  | readOnly
  | begin
  | other (x : X)
deriving DecidableEq, Repr

inductive AllocAnswer (A : Type) where
  | success (target : A)
  | abort
  | nomem

structure Reply (A V : Type) where
  /-- The transaction is not `invalid_tx`. -/
  begins : Bool
  reads : Option V
  writes : Bool
  allocs : AllocAnswer A
  frees : Bool
  ends : Bool

inductive LibraryCall (A V : Type) where
  | read (source : A)
  | write (content : V) (target : A)
  | alloc (size : Nat)
  | free (target : A)
  | finish
deriving DecidableEq, Repr

inductive CallAnswer where
  | ok
  | abort
  | nomem
deriving DecidableEq, Repr

structure Transaction (A V : Type) where
  isRo : Bool
  aborted : Bool
  calls : List (LibraryCall A V × CallAnswer)

variable {A V X β : Type}

namespace Transaction

variable (tx : Transaction A V) (reply : Reply A V)

def begun (isRo : Bool) : Transaction A V := ⟨isRo, false, []⟩

def log (call : LibraryCall A V) (answer : CallAnswer) : Transaction A V :=
  { tx with calls := tx.calls ++ [(call, answer)] }

def abort (call : LibraryCall A V) : Transaction A V :=
  { tx with aborted := true, calls := tx.calls ++ [(call, .abort)] }

def read (source : A) : Except (TxException X) V × Transaction A V :=
  match reply.reads with
  | some content => (.ok content, tx.log (.read source) .ok)
  | none => (.error .retry, tx.abort (.read source))

def write (content : V) (target : A) : Except (TxException X) Unit × Transaction A V :=
  if assertMode && tx.isRo then (.error .readOnly, tx)
  else if reply.writes then (.ok (), tx.log (.write content target) .ok)
  else (.error .retry, tx.abort (.write content target))

def alloc (size : Nat) : Except (TxException X) A × Transaction A V :=
  if assertMode && tx.isRo then (.error .readOnly, tx)
  else
    match reply.allocs with
    | .success target => (.ok target, tx.log (.alloc size) .ok)
    | .nomem => (.error .alloc, tx.log (.alloc size) .nomem)
    | .abort => (.error .retry, tx.abort (.alloc size))

def free (target : A) : Except (TxException X) Unit × Transaction A V :=
  if assertMode && tx.isRo then (.error .readOnly, tx)
  else if reply.frees then (.ok (), tx.log (.free target) .ok)
  else (.error .retry, tx.abort (.free target))

/-- The destructor, and whether it throws `TransactionRetry`. -/
def destroy : Transaction A V × Bool :=
  if ! tx.aborted then
    if ! reply.ends then (tx.log .finish .abort, true) else (tx.log .finish .ok, false)
  else (tx, false)

end Transaction

inductive Closure (A V X β : Type) where
  | value (v : β)
  | throw (e : TxException X)
  | read (source : A) (next : Except (TxException X) V → Closure A V X β)
  | write (content : V) (target : A) (next : Except (TxException X) Unit → Closure A V X β)
  | alloc (size : Nat) (next : Except (TxException X) A → Closure A V X β)
  | free (target : A) (next : Except (TxException X) Unit → Closure A V X β)

/-- How a closure has ended, with its transaction then and the number of the next call. -/
structure Outcome (A V X β : Type) where
  ending : Except (TxException X) β
  tx : Transaction A V
  calls : Nat

def Closure.run (replies : Nat → Reply A V) (tx : Transaction A V) (i : Nat) :
    Closure A V X β → Outcome A V X β
  | .value v => ⟨.ok v, tx, i⟩
  | .throw e => ⟨.error e, tx, i⟩
  | .read source next =>
      let result := tx.read (replies i) source
      (next result.1).run replies result.2 (i + 1)
  | .write content target next =>
      let result := tx.write (replies i) content target
      (next result.1).run replies result.2 (i + 1)
  | .alloc size next =>
      let result := tx.alloc (replies i) size
      (next result.1).run replies result.2 (i + 1)
  | .free target next =>
      let result := tx.free (replies i) target
      (next result.1).run replies result.2 (i + 1)

structure Execution (A V X β : Type) where
  ending : Except (TxException X) β
  calls : List (LibraryCall A V × CallAnswer)

inductive BlockResult (X β : Type) where
  | value (v : β)
  | exception (e : TxException X)
  /-- `std::terminate`: the destructor has thrown while another exception was on its way. -/
  | terminated
  /-- More executions follow. -/
  | unfinished

structure Block (A V X β : Type) where
  executions : List (Execution A V X β)
  result : BlockResult X β

/-- The closure of a block. What it has captured, and so what it does, may depend on all that the
library has answered to its earlier executions. -/
abbrev BlockBody (A V X β : Type) := List (Nat → Reply A V) → Closure A V X β

def BlockBody.after (func : BlockBody A V X β) (replies : Nat → Reply A V) : BlockBody A V X β :=
  fun earlier => func (replies :: earlier)

/-- `transactional`, as far as its first `n` executions. -/
def transactional (isRo : Bool) : BlockBody A V X β → (Nat → Nat → Reply A V) → Nat → Block A V X β
  | _, _, 0 => ⟨[], .unfinished⟩
  | func, replies, n + 1 =>
      if ! (replies 0 0).begins then ⟨[], .exception .begin⟩
      else
        let outcome := (func []).run (replies 0) (.begun isRo) 1
        let destroyed := outcome.tx.destroy (replies 0 outcome.calls)
        let execution : Execution A V X β := ⟨outcome.ending, destroyed.1.calls⟩
        let rest := transactional isRo (func.after (replies 0)) (fun j => replies (j + 1)) n
        match outcome.ending, destroyed.2 with
        | .ok v, false => ⟨[execution], .value v⟩
        -- The destructor throws, and the handler catches.
        | .ok _, true => ⟨execution :: rest.executions, rest.result⟩
        | .error _, true => ⟨[execution], .terminated⟩
        | .error .retry, false => ⟨execution :: rest.executions, rest.result⟩
        | .error e, false => ⟨[execution], .exception e⟩

end TransactionalMemory.Grading
