import TransactionalMemory.Library.Machine
import Mathlib.Logic.Function.Basic

/-!
# The bank workload

The closures of `WorkloadBank`, each as one atomic step on a memory of zeroed segments. `nullptr` is
`none`; whoever follows it, or the address of a segment that is not there, fails. What `assert_mode`
checks is a fault here as well, though the constant is false. Balances and numbers of accounts are
unbounded. The loops along the chain of segments run on fuel.
-/

namespace TransactionalMemory.Grading

open Concurrency

/-- `WorkloadBank::AccountSegment`. The slots from `count` on keep what was last written to them. -/
structure AccountSegment (Addr : Type) where
  count : Nat
  next : Option Addr
  parity : Int
  accounts : Nat → Int

def AccountSegment.zeroed {Addr : Type} : AccountSegment Addr := ⟨0, none, 0, fun _ => 0⟩

abbrev BankMemory (Addr : Type) := Addr → Option (AccountSegment Addr)

inductive BankFault where
  | badAccess
  /-- `Exception::SharedDoubleAlloc`. -/
  | doubleAlloc
  /-- `Exception::SharedDoubleFree`. -/
  | doubleFree
  /-- `Exception::TransactionNotLastSegment`. -/
  | notLastSegment
  | outOfFuel
deriving DecidableEq, Repr

structure WorkloadBank (Addr : Type) where
  /-- `tm.get_start()`. -/
  start : Addr
  nbaccounts : Nat
  initBalance : Int

variable {Addr : Type} [DecidableEq Addr]

namespace BankMemory

variable (m : BankMemory Addr)

def created (start : Addr) : BankMemory Addr := fun a => if a = start then some .zeroed else none

def read (a : Addr) : Except BankFault (AccountSegment Addr) :=
  match m a with
  | some segment => .ok segment
  | none => .error .badAccess

def write (a : Addr) (segment : AccountSegment Addr) : Except BankFault (BankMemory Addr) :=
  match m a with
  | some _ => .ok (Function.update m a (some segment))
  | none => .error .badAccess

/-- `segment.next.alloc(..)`, where `tm_alloc` returns `fresh`. -/
def allocNext (a fresh : Addr) : Except BankFault (BankMemory Addr) :=
  match m a with
  | some segment =>
      match segment.next with
      | some _ => .error .doubleAlloc
      | none => write (Function.update m fresh (some .zeroed)) a { segment with next := some fresh }
  | none => .error .badAccess

def freeNext (a : Addr) : Except BankFault (BankMemory Addr) :=
  match m a with
  | some segment =>
      match segment.next with
      | some next => write (Function.update m next none) a { segment with next := none }
      | none => .error .doubleFree
  | none => .error .badAccess

def writeAccount (account : Addr × Nat) (balance : Int) : Except BankFault (BankMemory Addr) := do
  let segment ← m.read account.1
  m.write account.1
    { segment with accounts := Function.update segment.accounts account.2 balance }

end BankMemory

namespace WorkloadBank

variable (bank : WorkloadBank Addr) (m : BankMemory Addr)

/-! ### `init` -/

/-- With the value of `correct`. -/
def init : Except BankFault (BankMemory Addr × Bool) := do
  let segment ← m.read bank.start
  let balances := (List.range bank.nbaccounts).foldl
    (fun accounts i => Function.update accounts i bank.initBalance) segment.accounts
  let m ← m.write bank.start { segment with count := bank.nbaccounts, accounts := balances }
  let segment ← m.read bank.start
  return (m, segment.accounts 0 = bank.initBalance)

/-! ### `long_tx` -/

/-- The sum with the first `n` balances, unless one of them is negative. -/
def sumAccounts (accounts : Nat → Int) (n : Nat) (sum : Int) : Option Int :=
  (List.range n).foldlM (fun sum i => if accounts i < 0 then none else some (sum + accounts i)) sum

def longLoop (fuel count : Nat) (sum : Int) (start : Option Addr) :
    Except BankFault (Option (Nat × Int)) :=
  match fuel, start with
  | _, none => .ok (some (count, sum))
  | 0, some _ => .error .outOfFuel
  | fuel + 1, some start => do
      let segment ← m.read start
      match sumAccounts segment.accounts segment.count (sum + segment.parity) with
      | none => return none
      | some sum => longLoop fuel (count + segment.count) sum segment.next

def longTx (fuel nbaccounts : Nat) : Except BankFault (Bool × Nat) := do
  match ← longLoop m fuel 0 0 (some bank.start) with
  | none => return (false, nbaccounts)
  | some (count, sum) => return (sum = bank.initBalance * count, count)

/-! ### `alloc_tx` -/

def allocLast (trigger : Nat) (fresh : Addr) (count : Nat) (prev : Option Addr) (start : Addr)
    (segment : AccountSegment Addr) : Except BankFault (BankMemory Addr) :=
  if count > trigger ∧ count > 2 then
    match segment.count with
    -- `--segment_count` wraps around, and there is no such slot.
    | 0 => .error .badAccess
    | segmentCount + 1 =>
        let newParity := segment.parity + segment.accounts segmentCount - bank.initBalance
        if segmentCount > 0 then
          m.write start { segment with count := segmentCount, parity := newParity }
        else
          match prev with
          | none => .error .notLastSegment
          | some prev => do
              let m ← m.freeNext prev
              let segment ← m.read prev
              m.write prev { segment with parity := segment.parity + newParity }
  else if segment.count < bank.nbaccounts then
    m.write start { segment with
      count := segment.count + 1
      accounts := Function.update segment.accounts segment.count bank.initBalance }
  else do
    let m ← m.allocNext start fresh
    let segment ← m.read fresh
    m.write fresh { segment with
      count := 1
      accounts := Function.update segment.accounts 0 bank.initBalance }

def allocLoop (trigger : Nat) (fresh : Addr) (fuel count : Nat) (prev : Option Addr)
    (start : Addr) : Except BankFault (BankMemory Addr) :=
  match fuel with
  | 0 => .error .outOfFuel
  | fuel + 1 => do
      let segment ← m.read start
      match segment.next with
      | none => bank.allocLast m trigger fresh (count + segment.count) prev start segment
      | some next => allocLoop trigger fresh fuel (count + segment.count) (some start) next

def allocTx (trigger : Nat) (fresh : Addr) (fuel : Nat) : Except BankFault (BankMemory Addr) :=
  bank.allocLoop m trigger fresh fuel 0 none bank.start

/-! ### `short_tx` -/

def findAccount (start : Addr) (count : Nat) (ptr : Option (Addr × Nat)) (id : Nat) :
    Option (Addr × Nat) × Nat :=
  match ptr with
  | some ptr => (some ptr, id)
  | none => if id < count then (some (start, id), id) else (none, id - count)

def shortLoop (fuel : Nat) (sendPtr recvPtr : Option (Addr × Nat)) (sendId recvId : Nat)
    (start : Addr) : Except BankFault (Option ((Addr × Nat) × (Addr × Nat))) :=
  match fuel with
  | 0 => .error .outOfFuel
  | fuel + 1 => do
      let segment ← m.read start
      let (sendPtr, sendId) := findAccount start segment.count sendPtr sendId
      let (recvPtr, recvId) := findAccount start segment.count recvPtr recvId
      match sendPtr, recvPtr with
      -- The loop breaks when the second of them is found.
      | some sender, some recver => return some (sender, recver)
      | _, _ =>
          match segment.next with
          | none => return none
          | some next => shortLoop fuel sendPtr recvPtr sendId recvId next

def transfer (sender recver : Addr × Nat) : Except BankFault (BankMemory Addr) := do
  let segment ← m.read sender.1
  let sendVal := segment.accounts sender.2
  if sendVal > 0 then
    let m ← m.writeAccount sender (sendVal - 1)
    let segment ← m.read recver.1
    m.writeAccount recver (segment.accounts recver.2 + 1)
  else return m

def shortTx (sendId recvId fuel : Nat) : Except BankFault (BankMemory Addr × Bool) := do
  match ← shortLoop m fuel none none sendId recvId bank.start with
  | none => return (m, false)
  | some (sender, recver) => return (← transfer m sender recver, true)

end WorkloadBank

inductive BankMove (Addr : Type) where
  | short (sendId recvId : Nat)
  | alloc (trigger : Nat) (fresh : Addr)

def bankMachine (bank : WorkloadBank Addr) : Machine (BankMemory Addr) (BankMove Addr) where
  init m := ∃ correct, bank.init (.created bank.start) = .ok (m, correct)
  step m move m' :=
    match move with
    | .short sendId recvId => ∃ fuel done, bank.shortTx m sendId recvId fuel = .ok (m', done)
    | .alloc trigger fresh => m fresh = none ∧ ∃ fuel, bank.allocTx m trigger fresh fuel = .ok m'

end TransactionalMemory.Grading
