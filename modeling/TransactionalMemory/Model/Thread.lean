import TransactionalMemory.Model.Transaction

/-!
# Threads and their program points

A thread runs one transaction after another. Between calls it holds at most the transaction it has
open; inside a call it stands at one of the program points below, each just before an access to the
shared region or before a loop test. Loop counters and the locals a loop carries are part of the
point.
-/

namespace TransactionalMemory

inductive Call (V : Type) where
  | begin (isRo : Bool)
  | read (source : Addr) (size : Nat)
  | write (source : List V) (size : Nat) (target : Addr)
  | alloc (size : Nat)
  | free (target : Addr)
  | finish

/-- `alloc_t`. The code never answers `abort_alloc`. -/
inductive AllocResult where
  | success (target : Addr)
  | nomem
deriving DecidableEq, Repr

inductive Ret (V : Type) where
  /-- `false` is `invalid_tx`. -/
  | begin (valid : Bool)
  /-- `tm_read`: the target buffer, or `none` for `false`. -/
  | read (target : Option (List V))
  | write (ok : Bool)
  | alloc (result : AllocResult)
  | free (ok : Bool)
  | finish (committed : Bool)

inductive Event (V : Type) where
  | call (c : Call V)
  | op (o : Op V)
  | ret (r : Ret V)

/-- What a step does not decide itself: the call its client makes, the outcome of each allocation,
the word `memcpy` copies next, and the garbage `malloc` returns. -/
structure Choice (V : Type) where
  call : Option (Call V) := none
  mallocs : List Bool := []
  word : Nat := 0
  garbage : Nat := 0

def Choice.mallocOk {V : Type} (c : Choice V) (i : Nat) : Bool := c.mallocs.getD i true

inductive BeginPc where
  | rdlock
  | body

structure ReadCall where
  seg : SegId
  source : Addr
  align : Int
  numWords : Int
  startWord : Int

inductive ReadPc (V : Type) where
  /-- The test of the loop and the lookup in the write set. -/
  | word (i : Nat) (target : List V)
  | load (i : Nat) (target : List V)
  | copy (i : Nat) (versionRead : Int) (target : List V)
  | recheck (i : Nat) (versionRead : Int) (x : V) (target : List V)

structure RoCall where
  seg : SegId
  startIdx : Int
  numWords : Int
  /-- The first word of the range and the number of words that `memcpy` copies. -/
  firstWord : Nat
  words : Nat

inductive RoPc (V : Type) where
  | pre (i : Nat) (prev : List Int)
  /-- `target` holds the words `memcpy` has copied so far. -/
  | copy (prev : List Int) (target : List (Option V))
  | post (i : Nat) (prev : List Int) (target : List (Option V))
  | loadClock (i : Nat) (versionRead : Int) (prev : List Int) (target : List (Option V))
  /-- The loop of `revalidate_sets`, at entry `k`. -/
  | revalidate (i k : Nat) (versionRead nextRv : Int) (prev : List Int) (target : List (Option V))

structure WriteCall (V : Type) where
  seg : SegId
  source : List V
  target : Addr
  idxStart : Int
  numWords : Int

inductive AllocPc where
  | lock
  | check
  /-- `spot = tm->empty_spots->index`. -/
  | popIndex
  /-- `tmp = tm->empty_spots`. -/
  | popTmp (spot : Nat)
  /-- The load of `tm->empty_spots->next`. -/
  | popNext (spot : Nat) (tmp : NodeId)
  | popStore (spot : Nat) (tmp : NodeId) (next : Option NodeId)
  | popFree (spot : Nat) (tmp : NodeId)
  | counter
  | unlock (spot : Nat)
  /-- `segment_init`: the struct, the data, the locks. -/
  | initStruct (spot : Nat)
  | initData (spot : Nat) (s : SegId)
  | initLocks (spot : Nat) (s : SegId)
  /-- `tmp->next = tm->empty_spots` on a freshly allocated node. -/
  | pushNode (spot : Nat)
  | pushStore (spot : Nat) (n : NodeId)

inductive EndPc where
  | start
  /-- The load and the compare-and-exchange of `vl_try_lock`. -/
  | tryLoad (i : Nat)
  | tryCas (i : Nat) (prev : Int)
  /-- `vl_unlock` of entry `j` after entry `i` could not be locked. -/
  | rollback (i j : Nat)
  | fetchAdd
  | validate (wv : Int) (i : Nat)
  /-- `vl_unlock` of entry `j` after a failed validation. -/
  | undo (wv : Int) (j : Nat)
  | validated (wv : Int)
  | copy (wv : Int) (i : Nat)
  | release (wv : Int) (i : Nat)
  | lockToFree
  | push (i : Nat)
  | unlockCleanup
  | checkBatch
  | wrlock
  | drain (i : Nat)
  | wrunlock

inductive Thread (V : Type) where
  | idle
  | live (t : Tx V)
  | beginning (isRo : Bool) (pc : BeginPc)
  | reading (t : Tx V) (c : ReadCall) (pc : ReadPc V)
  | roReading (t : Tx V) (c : RoCall) (pc : RoPc V)
  | writing (t : Tx V) (c : WriteCall V) (i : Nat)
  | allocating (t : Tx V) (size : Nat) (pc : AllocPc)
  | freeing (t : Tx V) (target : Addr)
  | ending (t : Tx V) (pc : EndPc)
  /-- `transaction_cleanup(tm, t, true)`, on the way to a return value. -/
  | aborting (t : Tx V) (r : Ret V)
  | returning (r : Ret V) (t : Option (Tx V))

abbrev Move (V : Type) := Outcome (Event V × Thread V)

def Move.op {V : Type} (o : Op V) (thread : Thread V) : Move V := .next (.op o, thread)

end TransactionalMemory
