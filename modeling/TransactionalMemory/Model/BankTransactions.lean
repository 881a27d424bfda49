import TransactionalMemory.Model.AtomicBlock
import TransactionalMemory.Model.Bank
import TransactionalMemory.Model.ReferenceThreads

/-!
# The closures of the bank workload

The closures of `init`, `long_tx`, `alloc_tx`, `short_tx` and `check`, with every access to shared
memory that they make. `size_t`, `void *` and `intptr_t` all take one word of eight bytes; a word is
a number or a pointer, and `nullptr` is the number zero. A loop is a loop point with the locals it
carries. As in the bank of records, numbers are unbounded; reading a word as what it is not,
following `nullptr`, and `--segment_count` below zero are faults.
-/

namespace TransactionalMemory.Grading

open Reference (Ptr Request BlockId)

inductive Cell where
  | number (n : Int)
  | pointer (p : Ptr)
deriving DecidableEq

instance : Zero Cell := ⟨.number 0⟩

inductive Fault where
  | badWord
  | nullPointer
  | wrapped

/-! ### Closures with loops -/

/-- A closure on shared words that ends at a loop point or with a result. -/
abbrev Code (L β : Type) := Closure Ptr Cell Fault (L ⊕ β)

namespace Code

variable {L β : Type}

/-- On the reference implementation no call aborts, so `TransactionAlloc` is all that the methods
of `Transaction` throw. -/
def request (body : L → Code L β) :
    Code L β → Request Cell (Code L β) (Except (TxException Fault) β)
  | .value (.inl point) => .skip (body point)
  | .value (.inr result) => .finish (.ok result)
  | .throw e => .finish (.error e)
  | .read source next => .read source 8 fun target => next (.ok (target.headD 0))
  | .write content target next => .write [content] 8 target (next (.ok ()))
  | .alloc size next =>
      .alloc size fun
        | some target => next (.ok target)
        | none => next (.error .alloc)
  | .free target next => .free target (next (.ok ()))

def again (point : L) : Code L β := .value (.inl point)

def ret (result : β) : Code L β := .value (.inr result)

def fault (fault : Fault) : Code L β := .throw (.other fault)

def readWord (source : Ptr) (next : Cell → Code L β) : Code L β :=
  .read source fun
    | .ok content => next content
    | .error e => .throw e

def readNumber (source : Ptr) (next : Int → Code L β) : Code L β :=
  readWord source fun
    | .number n => next n
    | .pointer _ => fault .badWord

def readCount (source : Ptr) (next : Nat → Code L β) : Code L β :=
  readNumber source fun n => if 0 ≤ n then next n.toNat else fault .badWord

def readPointer (source : Ptr) (next : Option Ptr → Code L β) : Code L β :=
  readWord source fun
    | .pointer p => next (some p)
    | .number n => if n = 0 then next none else fault .badWord

def write (target : Ptr) (content : Cell) (next : Code L β) : Code L β :=
  Closure.write content target fun
    | .ok () => next
    | .error e => .throw e

def allocNext (size : Nat) (target : Ptr) (next : Ptr → Code L β) : Code L β :=
  .alloc size fun
    | .ok addr => write target (.pointer addr) (next addr)
    | .error e => .throw e

def freeNext (target : Ptr) (next : Code L β) : Code L β :=
  readPointer target fun
    | none => fault .nullPointer
    | some addr =>
        .free addr fun
          | .ok () => write target (.number 0) next
          | .error e => .throw e

end Code

/-! ### The layout of `AccountSegment` -/

namespace AccountSegment

def size (nbaccounts : Nat) : Nat := 24 + nbaccounts * 8

def countAt (segment : Ptr) : Ptr := segment

def nextAt (segment : Ptr) : Ptr := ⟨segment.block, segment.offset + 8⟩

def parityAt (segment : Ptr) : Ptr := ⟨segment.block, segment.offset + 16⟩

def accountAt (segment : Ptr) (index : Nat) : Ptr :=
  ⟨segment.block, segment.offset + 24 + index * 8⟩

end AccountSegment

open AccountSegment Code

inductive BankPoint where
  | initAccounts (i : Nat)
  | longSegment (start : Option Ptr) (count : Nat) (sum : Int)
  | longAccounts (segment : Ptr) (segmentCount i count : Nat) (sum : Int)
  | allocSegment (trigger count : Nat) (prev : Option Ptr) (start : Ptr)
  | shortSegment (sendPtr recvPtr : Option Ptr) (sendId recvId : Nat) (start : Ptr)

inductive BankResult where
  | done
  /-- What a closure returns. -/
  | flag (correct : Bool)
  /-- The result of `long_tx`, with the new value of `nbaccounts` if there is one. -/
  | long (consistent : Bool) (nbaccounts : Option Nat)
  | last (value : Int)
deriving DecidableEq

abbrev BankCode := Code BankPoint BankResult

namespace WorkloadBank

variable (bank : WorkloadBank BlockId)

def getStart : Ptr := ⟨bank.start, 0⟩

/-! ### `long_tx` -/

def longSegment (start : Option Ptr) (count : Nat) (sum : Int) : BankCode :=
  match start with
  | none => ret (.long (sum = bank.initBalance * count) (some count))
  | some segment =>
      readCount (countAt segment) fun segmentCount =>
      readNumber (parityAt segment) fun parity =>
      again (.longAccounts segment segmentCount 0 (count + segmentCount) (sum + parity))

def longAccounts (segment : Ptr) (segmentCount i count : Nat) (sum : Int) : BankCode :=
  if i < segmentCount then
    readNumber (accountAt segment i) fun balance =>
    if balance < 0 then ret (.long false none)
    else again (.longAccounts segment segmentCount (i + 1) count (sum + balance))
  else readPointer (nextAt segment) fun next => again (.longSegment next count sum)

/-! ### `alloc_tx` -/

def deleteAccount (prev : Option Ptr) (segment : Ptr) (segmentCount : Nat) : BankCode :=
  match segmentCount with
  | 0 => fault .wrapped
  | segmentCount + 1 =>
      readNumber (parityAt segment) fun parity =>
      readNumber (accountAt segment segmentCount) fun balance =>
      let newParity := parity + balance - bank.initBalance
      if segmentCount > 0 then
        write (countAt segment) (.number segmentCount)
        (write (parityAt segment) (.number newParity)
        (ret .done))
      else
        match prev with
        | none => fault .nullPointer
        | some prev =>
            freeNext (nextAt prev)
            (readNumber (parityAt prev) fun parity =>
            write (parityAt prev) (.number (parity + newParity))
            (ret .done))

def addAccount (segment : Ptr) (segmentCount : Nat) : BankCode :=
  if segmentCount < bank.nbaccounts then
    write (accountAt segment segmentCount) (.number bank.initBalance)
    (write (countAt segment) (.number (segmentCount + 1 : Nat))
    (ret .done))
  else
    allocNext (size bank.nbaccounts) (nextAt segment) fun next =>
    write (countAt next) (.number 1)
    (write (accountAt next 0) (.number bank.initBalance)
    (ret .done))

def allocSegment (trigger count : Nat) (prev : Option Ptr) (start : Ptr) : BankCode :=
  readCount (countAt start) fun segmentCount =>
  readPointer (nextAt start) fun segmentNext =>
  match segmentNext with
  | some next => again (.allocSegment trigger (count + segmentCount) (some start) next)
  | none =>
      if count + segmentCount > trigger ∧ count + segmentCount > 2 then
        bank.deleteAccount prev start segmentCount
      else bank.addAccount start segmentCount

/-! ### `short_tx` -/

def findPtr (start : Ptr) (segmentCount : Nat) (ptr : Option Ptr) (id : Nat) : Option Ptr × Nat :=
  match ptr with
  | some ptr => (some ptr, id)
  | none => if id < segmentCount then (some (accountAt start id), id) else (none, id - segmentCount)

def transferCode (sender recver : Ptr) : BankCode :=
  readNumber sender fun sendVal =>
  if sendVal > 0 then
    write sender (.number (sendVal - 1))
    (readNumber recver fun recvVal =>
    write recver (.number (recvVal + 1))
    (ret (.flag true)))
  else ret (.flag true)

def shortSegment (sendPtr recvPtr : Option Ptr) (sendId recvId : Nat) (start : Ptr) : BankCode :=
  readCount (countAt start) fun segmentCount =>
  let send := findPtr start segmentCount sendPtr sendId
  let recv := findPtr start segmentCount recvPtr recvId
  match send.1, recv.1 with
  | some sender, some recver => transferCode sender recver
  | sendPtr, recvPtr =>
      readPointer (nextAt start) fun
        | none => ret (.flag false)
        | some next => again (.shortSegment sendPtr recvPtr send.2 recv.2 next)

/-! ### The loops -/

def initAccounts (i : Nat) : BankCode :=
  if i < bank.nbaccounts then
    write (accountAt bank.getStart i) (.number bank.initBalance) (again (.initAccounts (i + 1)))
  else ret .done

def body : BankPoint → BankCode
  | .initAccounts i => bank.initAccounts i
  | .longSegment start count sum => bank.longSegment start count sum
  | .longAccounts segment segmentCount i count sum => longAccounts segment segmentCount i count sum
  | .allocSegment trigger count prev start => bank.allocSegment trigger count prev start
  | .shortSegment sendPtr recvPtr sendId recvId start =>
      shortSegment sendPtr recvPtr sendId recvId start

/-! ### The closures -/

def initCode : BankCode :=
  write (countAt bank.getStart) (.number bank.nbaccounts) (again (.initAccounts 0))

def initCheckCode : BankCode :=
  readNumber (accountAt bank.getStart 0) fun balance => ret (.flag (balance = bank.initBalance))

def longCode : BankCode := again (.longSegment (some bank.getStart) 0 0)

def allocCode (trigger : Nat) : BankCode := again (.allocSegment trigger 0 none bank.getStart)

def shortCode (sendId recvId : Nat) : BankCode :=
  again (.shortSegment none none sendId recvId bank.getStart)

/-- The closures of `check`: the counter is the first word. -/
def setCounterCode (initCounter : Nat) : BankCode :=
  write bank.getStart (.number initCounter) (ret .done)

def counterIsCode (value : Nat) : BankCode :=
  readNumber bank.getStart fun counter => ret (.flag (counter = value))

def lastCode : BankCode := readNumber bank.getStart fun counter => ret (.last counter)

def decreaseCode (last : Int) : BankCode :=
  readNumber bank.getStart fun value =>
  if value > last then ret (.flag false)
  else write bank.getStart (.number (value - 1)) (ret (.flag true))

end WorkloadBank

end TransactionalMemory.Grading
