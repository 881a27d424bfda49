import TransactionalMemory.Library.Machine
import TransactionalMemory.Model.Access
import TransactionalMemory.Model.Allocation
import TransactionalMemory.Model.Lifecycle

/-!
# The interleaved system

`tm_create`, the step of one thread, and the machine whose runs are all interleavings of any number
of threads on one region. The clients are free: a thread outside a call may make any call its
transaction allows, so the runs cover every transaction program.
-/

namespace TransactionalMemory

open Concurrency

variable {V : Type} [Zero V]

/-- The region of `tm_create` before its first segment. -/
def Tm.bare (align : Nat) (toFreeOk : Bool) : Tm V where
  align := align
  readers := 0
  writer := false
  virtualMemoryLock := false
  emptySpots := none
  node _ := none
  nodeCount := 0
  vaArr _ := .garbage
  vaN := 0
  globalVersion := 0
  toFreeLock := false
  toFree := []
  toFreeSz := 64
  toFreeNull := !toFreeOk
  segment _ := none
  segmentCount := 0
  lock _ := vlInit
  data _ := 0

/-- `tm_create`: `none` is `invalid_shared`. -/
def tmCreate (choice : Choice V) (size align : Nat) : Outcome (Option (Tm V)) :=
  if !choice.mallocOk 0 then .next none
  else if !choice.mallocOk 1 then .crash
  else if !choice.mallocOk 3 then
    if posixMemalign align (choice.mallocOk 4) then .crash else .next none
  else
    let tm : Tm V := (Tm.bare align (choice.mallocOk 2)).apply (.newSegment 0)
    let numWords := toInt (size / align : Nat)
    if !posixMemalign align (choice.mallocOk 4) then .next none
    else if !mallocLocks numWords (choice.mallocOk 5) then .next none
    else
      let tm := (tm.apply (.fillSegment 0 numWords)).apply (.readySegment 0 size)
      .next (some { tm with vaN := tm.vaN + 1 })

section Steps

variable (platform : Platform V) (tm : Tm V) (choice : Choice V)

/-- A call made by the client of an open transaction. A range outside every installed segment, and a
write or free in a read-only transaction, break the contract of the interface. -/
def callStep (t : Tx V) (call : Call V) : Move V :=
  match call with
  | .begin _ => .blocked
  | .read source size =>
      match tm.range source size with
      | none => .crash
      | some s =>
          if t.isRo then
            match roTransactionReadCall tm s source size with
            | none => .crash
            | some c => .next (.call call, .roReading t c (.pre 0 []))
          else
            match tmReadCall tm s source size with
            | none => .crash
            | some c => .next (.call call, .reading t c (.word 0 []))
  | .write source size target =>
      match tm.range target size with
      | none => .crash
      | some s =>
          if t.isRo ∨ source.length ≠ size / tm.align then .crash
          else .next (.call call, .writing t (tmWriteCall tm s source size target) 0)
  | .alloc size =>
      if 0 < size ∧ size < 2 ^ 64 ∧ tm.align ∣ size then
        .next (.call call, .allocating t size .lock)
      else .crash
  | .free target => if t.isRo then .crash else .next (.call call, .freeing t target)
  | .finish => .next (.call call, .ending t .start)

def Thread.step : Thread V → Move V
  | .idle =>
      match choice.call with
      | some (.begin isRo) => .next (.call (.begin isRo), .beginning isRo .rdlock)
      | _ => .blocked
  | .live t =>
      match choice.call with
      | some call => callStep tm t call
      | none => .blocked
  | .beginning isRo pc => tmBeginStep tm choice isRo pc
  | .reading t c pc => tmReadStep platform tm choice t c pc
  | .roReading t c pc => roTransactionReadStep tm choice t c pc
  | .writing t c i => tmWriteStep platform tm choice t c i
  | .allocating t size pc => tmAllocStep tm choice t size pc
  | .freeing t target => tmFreeStep choice t target
  | .ending t pc => tmEndStep platform tm choice t pc
  | .aborting _ r => transactionCleanupStep r
  | .returning r none => .next (.ret r, .idle)
  | .returning r (some t) => .next (.ret r, .live t)

end Steps

def Tm.after (tm : Tm V) : Event V → Tm V
  | .op o => tm.apply o
  | .call _ | .ret _ => tm

structure State (Tid V : Type) where
  tm : Tm V
  thread : Tid → Thread V

structure Label (Tid V : Type) where
  tid : Tid
  choice : Choice V
  event : Event V

variable {Tid : Type} [DecidableEq Tid] (platform : Platform V)

def State.step (s : State Tid V) (tid : Tid) (choice : Choice V) :
    Outcome (Event V × State Tid V) :=
  match (s.thread tid).step platform s.tm choice with
  | .next (event, thread) =>
      .next (event, ⟨s.tm.after event, Function.update s.thread tid thread⟩)
  | .blocked => .blocked
  | .crash => .crash

theorem State.step_ne_crash {platform : Platform V} {s : State Tid V} {tid : Tid}
    {choice : Choice V} (h : (s.thread tid).step platform s.tm choice ≠ .crash) :
    s.step platform tid choice ≠ .crash := by
  unfold State.step
  split
  · simp
  · simp
  · exact absurd ‹_› h

/-- All interleavings of the threads in `Tid` on a region that `tm_create` made from a size and an
alignment its contract allows. -/
def system (Tid : Type) [DecidableEq Tid] (platform : Platform V) :
    Machine (State Tid V) (Label Tid V) where
  init s := (∀ tid, s.thread tid = .idle) ∧ ∃ choice size align,
    0 < size ∧ size < 2 ^ 64 ∧ align ∣ size ∧ (∃ k, align = 2 ^ k) ∧
      tmCreate choice size align = .next (some s.tm)
  step s l s' := s.step platform l.tid l.choice = .next (l.event, s')

def State.move (s : State Tid V) (turn : Tid × Choice V) : Option (Label Tid V × State Tid V) :=
  match s.step platform turn.1 turn.2 with
  | .next (event, s') => some (⟨turn.1, turn.2, event⟩, s')
  | _ => none

theorem State.step_of_move {s s' : State Tid V} {turn : Tid × Choice V} {l : Label Tid V}
    (h : s.move platform turn = some (l, s')) : (system Tid platform).step s l s' := by
  unfold State.move at h
  split at h
  · cases h
    assumption
  · cases h

end TransactionalMemory
