import TransactionalMemory.Model.BankTransactions
import TransactionalMemory.Model.Barrier
import TransactionalMemory.Model.Measure

/-!
# The bank workload under measurement

`WorkloadBank::init`, `run` and `check` between their transactions, as a workload of `measure`. The
random engine may answer anything in its range. `Tid` are the workers, one of them with `uid == 0`.
-/

namespace TransactionalMemory.Grading

open Concurrency
open Reference (Region TxPoint Request transactions BlockId)

/-! ### Closures that only read -/

namespace Code

variable {L β : Type} {body : L → Code L β}

def ReadsOnly (S : L → Prop) : Code L β → Prop
  | .value (.inl point) => S point
  | .value (.inr _) | .throw _ => True
  | .read _ next => ∀ answer, ReadsOnly S (next answer)
  | Closure.write _ _ _ | .alloc _ _ | .free _ _ => False

def PointReads (S : L → Prop) : TxPoint Cell (Code L β) → Prop
  | .client code => ReadsOnly S code
  | .reading _ _ _ next => ∀ target, ReadsOnly S (next target)
  | .writing _ _ _ _ _ => False

theorem quiet {S : L → Prop} (hS : ∀ point, S point → ReadsOnly S (body point)) {code : Code L β}
    (h : ReadsOnly S code) : (transactions (request body)).Quiet (.client code) := by
  refine Blocks.Quiet.of_kept (PointReads S) (fun p r y hp => ?_) h
  rintro ⟨ok, hstep⟩
  have hstep : p.step (request body) r ok = .next y := hstep
  cases p with
  | client code =>
      cases code with
      | value v =>
          cases v with
          | inl point =>
              cases hstep
              exact ⟨hS point hp, rfl⟩
          | inr result => cases hstep
      | throw e => cases hstep
      | read source next =>
          cases hstep
          exact ⟨fun target => hp _, rfl⟩
      | write | alloc | free => exact hp.elim
  | reading source size copied next =>
      simp only [TxPoint.step] at hstep
      split at hstep
      · split at hstep <;> cases hstep
        exact ⟨hp, rfl⟩
      · cases hstep
        exact ⟨hp copied, rfl⟩
  | writing => exact hp.elim

variable {S : L → Prop}

theorem reads_readWord {p : Reference.Ptr} {next : Cell → Code L β}
    (h : ∀ c, ReadsOnly S (next c)) : ReadsOnly S (readWord p next) := by
  rintro (e | c)
  · trivial
  · exact h c

theorem reads_readNumber {p : Reference.Ptr} {next : Int → Code L β}
    (h : ∀ n, ReadsOnly S (next n)) : ReadsOnly S (readNumber p next) := by
  refine reads_readWord fun c => ?_
  cases c with
  | number n => exact h n
  | pointer => trivial

theorem reads_readCount {p : Reference.Ptr} {next : Nat → Code L β}
    (h : ∀ n, ReadsOnly S (next n)) : ReadsOnly S (readCount p next) := by
  refine reads_readNumber fun n => ?_
  split
  · exact h _
  · trivial

theorem reads_readPointer {p : Reference.Ptr} {next : Option Reference.Ptr → Code L β}
    (h : ∀ a, ReadsOnly S (next a)) : ReadsOnly S (readPointer p next) := by
  refine reads_readWord fun c => ?_
  cases c with
  | number n =>
      dsimp only
      split
      · exact h none
      · trivial
  | pointer a => exact h (some a)

end Code

def BankPoint.IsLong : BankPoint → Prop
  | .longSegment _ _ _ | .longAccounts _ _ _ _ _ => True
  | _ => False

namespace WorkloadBank

variable (bank : WorkloadBank BlockId)

theorem reads_long (point : BankPoint) (h : point.IsLong) :
    Code.ReadsOnly BankPoint.IsLong (bank.body point) := by
  cases point with
  | longSegment start count sum =>
      cases start with
      | none => trivial
      | some segment =>
          simp only [body, longSegment]
          refine Code.reads_readCount fun segmentCount => ?_
          refine Code.reads_readNumber fun parity => ?_
          trivial
  | longAccounts segment segmentCount i count sum =>
      simp only [body, longAccounts]
      split
      · refine Code.reads_readNumber fun balance => ?_
        split <;> trivial
      · exact Code.reads_readPointer fun _ => trivial
  | initAccounts | allocSegment | shortSegment => exact h.elim

end WorkloadBank

/-! ### The workers between their transactions -/

/-- Where a worker is in `init`, in `run` (with its number of transactions and its `count` of
accounts) or in `check`. -/
inductive BankCall where
  | init
  | initCheck
  | loop (cntr count : Nat)
  | runLong (cntr count : Nat)
  | runAlloc (cntr count trigger : Nat)
  /-- Before the draw of the two accounts. -/
  | draw (cntr count : Nat)
  | runShort (cntr count sendId recvId : Nat)
  | lastLong
  /-- Before and in the `n`-th `barrier.sync()` of `check`, with the violation that is known. -/
  | entering (n : Nat) (violation : Option String)
  | syncing (n : Nat) (violation : Option String)
  | setCounter
  | checkCounter
  | readLast (i : Nat)
  | decrease (i : Nat) (last : Int)
  | checkZero
  | ended (ending : Ending)

def violatedVisibility : String :=
  "Violated consistency (check that committed writes in shared memory get visible to the following transactions' reads)"

def violatedIsolation : String := "Violated isolation or atomicity"

def violatedInit : String := "Violated consistency during initialization"

def violatedDecrease : String := "Violated consistency, isolation or atomicity"

def violatedZero : String := "Violated consistency"

def decrements : Nat := 100

section Workload

variable {Tid : Type} [DecidableEq Tid] {w : Nat} (bank : WorkloadBank BlockId) (nbtxperwrk : Nat)
  (first : Tid)

def afterSync (tid : Tid) (n : Nat) (violation : Option String) : BankCall :=
  match n, violation with
  | 1, _ => if tid = first then .setCounter else .entering 2 none
  | 2, none => .readLast 0
  | 2, some e => .entering 3 (some e)
  | _, some e => .ended (.returned (some e))
  | _, none => if tid = first then .checkZero else .ended (.returned none)

inductive BankStep (tid : Tid) : Barrier Tid w × BankCall → Barrier Tid w × BankCall → Prop where
  | long {b : Barrier Tid w} {cntr count : Nat} (h : cntr < nbtxperwrk) :
      BankStep tid (b, .loop cntr count) (b, .runLong cntr count)
  | alloc {b : Barrier Tid w} {cntr count trigger : Nat} (h : cntr < nbtxperwrk) :
      BankStep tid (b, .loop cntr count) (b, .runAlloc cntr count trigger)
  | short {b : Barrier Tid w} {cntr count : Nat} (h : cntr < nbtxperwrk) :
      BankStep tid (b, .loop cntr count) (b, .draw cntr count)
  /-- The range is from zero to `count - 1`, which wraps around. -/
  | draw {b : Barrier Tid w} {cntr count sendId recvId : Nat}
      (h : count ≠ 0 → sendId < count ∧ recvId < count) :
      BankStep tid (b, .draw cntr count) (b, .runShort cntr count sendId recvId)
  | last {b : Barrier Tid w} {cntr count : Nat} (h : ¬ cntr < nbtxperwrk) :
      BankStep tid (b, .loop cntr count) (b, .lastLong)
  | enter {b : Barrier Tid w} {n : Nat} {violation : Option String} :
      BankStep tid (b, .entering n violation) (b.sync tid, .syncing n violation)
  | sync {b : Barrier Tid w} {n : Nat} {violation : Option String}
      (h : (b.sync tid).point tid ≠ .outside) :
      BankStep tid (b, .syncing n violation) (b.sync tid, .syncing n violation)
  | leave {b : Barrier Tid w} {n : Nat} {violation : Option String}
      (h : (b.sync tid).point tid = .outside) :
      BankStep tid (b, .syncing n violation) (b.sync tid, afterSync first tid n violation)

def bankCall (_ : Tid) : Task → BankCall
  | .init => .init
  | .run _ => .loop 0 bank.nbaccounts
  | .check => .entering 1 none

def bankBlock (nbworkers : Nat) : BankCall → Option (Bool × BankCode)
  | .init => some (false, bank.initCode)
  | .initCheck => some (true, bank.initCheckCode)
  | .runLong _ _ | .lastLong => some (true, bank.longCode)
  | .runAlloc _ _ trigger => some (false, bank.allocCode trigger)
  | .runShort _ _ sendId recvId => some (false, bank.shortCode sendId recvId)
  | .setCounter => some (false, bank.setCounterCode (decrements * nbworkers))
  | .checkCounter => some (true, bank.counterIsCode (decrements * nbworkers))
  | .readLast _ => some (true, bank.lastCode)
  | .decrease _ last => some (false, bank.decreaseCode last)
  | .checkZero => some (true, bank.counterIsCode 0)
  | .loop _ _ | .draw _ _ | .entering _ _ | .syncing _ _ | .ended _ => none

def verdict (correct : Bool) (violation : String) : BankCall :=
  .ended (.returned (if correct then none else some violation))

/-- What follows a transaction. `transactional` repeats it after `TransactionRetry`, and any other
exception ends the call. -/
def bankReturns (call : BankCall) : Except (TxException Fault) BankResult → BankCall
  | .error .retry => call
  | .error _ => .ended .threw
  | .ok result =>
      match call, result with
      | .init, .done => .initCheck
      | .initCheck, .flag correct => verdict correct violatedVisibility
      | .runLong cntr count, .long consistent updated =>
          if consistent then .loop (cntr + 1) (updated.getD count)
          else .ended (.returned (some violatedIsolation))
      | .runAlloc cntr count _, .done => .loop (cntr + 1) count
      | .runShort cntr count _ _, .flag done =>
          if done then .loop (cntr + 1) count else .draw cntr count
      | .lastLong, .long consistent _ => verdict consistent violatedIsolation
      | .setCounter, .done => .checkCounter
      | .checkCounter, .flag correct =>
          .entering 2 (if correct then none else some violatedInit)
      | .readLast i, .last value => .decrease i value
      | .decrease i _, .flag correct =>
          if correct then
            if i + 1 < decrements then .readLast (i + 1) else .entering 3 none
          else .entering 3 (some violatedDecrease)
      | .checkZero, .flag correct => verdict correct violatedZero
      | call, _ => call

theorem bankBlock_reads {nbworkers : Nat} {call : BankCall} {code : BankCode}
    (h : bankBlock bank nbworkers call = some (true, code)) :
    Code.ReadsOnly BankPoint.IsLong code := by
  cases call <;> simp only [bankBlock, Option.some.injEq, Prod.mk.injEq, reduceCtorEq,
    false_and] at h
  case initCheck =>
    obtain ⟨-, rfl⟩ := h
    exact Code.reads_readNumber fun _ => trivial
  case runLong =>
    obtain ⟨-, rfl⟩ := h
    trivial
  case lastLong =>
    obtain ⟨-, rfl⟩ := h
    trivial
  case checkCounter =>
    obtain ⟨-, rfl⟩ := h
    exact Code.reads_readNumber fun _ => trivial
  case readLast =>
    obtain ⟨-, rfl⟩ := h
    exact Code.reads_readNumber fun _ => trivial
  case checkZero =>
    obtain ⟨-, rfl⟩ := h
    exact Code.reads_readNumber fun _ => trivial

def bankWorkload [Fintype Tid] :
    Workload (transactions (Code.request bank.body)) Tid (Barrier Tid w) BankCall where
  created b := b = ⟨BitVec.ofNat w (Fintype.card Tid), 0, .enter, fun _ => .outside⟩
  call := bankCall bank
  move := BankStep nbtxperwrk first
  block _ call := (bankBlock bank (Fintype.card Tid) call).map fun block =>
    (block.1, .client block.2)
  returns _ := bankReturns
  ended
    | .ended ending => some ending
    | _ => none
  quiet := by
    intro tid call p h
    obtain ⟨⟨isRo, code⟩, hblock, heq⟩ := Option.map_eq_some_iff.mp h
    obtain ⟨rfl, rfl⟩ := Prod.mk.inj heq
    exact Code.quiet (bank.reads_long) (bankBlock_reads bank hblock)

end Workload

end TransactionalMemory.Grading
