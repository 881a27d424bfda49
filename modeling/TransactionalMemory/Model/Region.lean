import Mathlib.Logic.Function.Basic
import TransactionalMemory.Model.VersionedLock

/-!
# The shared region

`struct shared_s` with everything it points to: the segments, their words and locks, and the nodes
of the free list. A pointer is a name that `malloc` hands out once, so a block that was freed is
never mistaken for a later one. Every step of a thread is one operation `Op` on the region, a load
or a store of what the source accesses there.
-/

namespace TransactionalMemory

/-- A `segment_t`. -/
abbrev SegId := Nat

/-- An `empty_spot_t`. -/
abbrev NodeId := Nat

/-- One aligned word of a segment. Its versioned lock and its data have the same index. -/
structure Word where
  seg : SegId
  index : Nat
deriving DecidableEq, Repr

/-- How far `segment_init` has come. -/
inductive SegState where
  /-- The struct is allocated, its fields are not set. -/
  | raw
  /-- The data is allocated and zeroed, the locks are not. -/
  | filled
  | ready
  /-- `segment_init` gave up and left dangling pointers. -/
  | broken
deriving DecidableEq, Repr

structure Segment where
  size : Nat
  numWords : Int
  state : SegState
deriving DecidableEq, Repr

/-- An entry of `va_arr`, which `tm_create` leaves uninitialised. -/
inductive VaEntry where
  | garbage
  | null
  | segment (s : SegId)
deriving DecidableEq, Repr

structure EmptySpot where
  next : Option NodeId
  index : Nat
deriving DecidableEq, Repr

def vaSize : Nat := 65536

def vecInitial : Int := 8

def freeBatchsize : Nat := 128

/-- `size * RESIZE_FACTOR`, truncated. -/
def resize (size : Int) : Int := 6 * size / 5

/-- `struct shared_s`. -/
structure Tm (V : Type) where
  align : Nat
  /-- Read holds on `cleanup_lock`. -/
  readers : Nat
  /-- Whether `cleanup_lock` is held for writing. -/
  writer : Bool
  virtualMemoryLock : Bool
  emptySpots : Option NodeId
  node : NodeId → Option EmptySpot
  nodeCount : Nat
  vaArr : Nat → VaEntry
  vaN : Nat
  globalVersion : Int
  toFreeLock : Bool
  /-- The first `to_free_n` entries of `to_free`. -/
  toFree : List Int
  toFreeSz : Int
  toFreeNull : Bool
  segment : SegId → Option Segment
  segmentCount : Nat
  lock : Word → Int
  data : Word → V

/-- One access to the shared region. Loads carry the value they find. -/
inductive Op (V : Type) where
  | tau
  | rdlock
  | rdunlock
  | wrlock
  | wrunlock
  | loadClock (value : Int)
  | fetchAddClock (old : Int)
  | loadLock (w : Word) (value : Int)
  | casLock (w : Word) (expected : Int) (success : Bool)
  | fetchSubLock (w : Word)
  | storeLock (w : Word) (value : Int)
  | copyOut (w : Word) (x : V)
  | copyIn (w : Word) (x : V)
  /-- No access: `tm_read` answers a word from the write set. -/
  | ownWord (x : V)
  /-- No access: the decision of `tm_end` to write back these values under this version. -/
  | commit (version : Int) (writes : List (Word × V))
  | lockVirtualMemory
  | unlockVirtualMemory
  | loadEmptySpots
  | storeEmptySpots (head : Option NodeId)
  | newNode (spot : EmptySpot)
  | freeNode (n : NodeId)
  | nextSpot
  | newSegment (spot : Nat)
  /-- `segment_init` fails at the struct, and stores the null pointer. -/
  | noSegment (spot : Nat)
  | fillSegment (s : SegId) (numWords : Int)
  | readySegment (s : SegId) (size : Nat)
  /-- `segment_init` fails at the data. -/
  | failData (s : SegId)
  /-- `segment_init` fails at the locks. -/
  | failLocks (s : SegId)
  | lockToFree
  | unlockToFree
  | pushToFree (spot : Int) (capacity : Int)
  | loadToFreeN
  | deleteSegment (spot : Int)
  | resetToFree

namespace Tm

variable {V : Type} [Zero V]

def setSegment (tm : Tm V) (s : SegId) (f : Segment → Segment) : Tm V :=
  { tm with segment := Function.update tm.segment s ((tm.segment s).map f) }

/-- `delete_segment`, run under the write lock. The block of the segment and its arrays is gone. -/
def deleteSegment (tm : Tm V) (spot : Int) : Tm V :=
  match tm.vaArr spot.toNat with
  | .segment s =>
      { tm with
        segment := Function.update tm.segment s none
        vaArr := Function.update tm.vaArr spot.toNat .null
        node := Function.update tm.node tm.nodeCount (some ⟨tm.emptySpots, spot.toNat⟩)
        nodeCount := tm.nodeCount + 1
        emptySpots := some tm.nodeCount }
  | _ => tm

def apply (tm : Tm V) : Op V → Tm V
  | .rdlock => { tm with readers := tm.readers + 1 }
  | .rdunlock => { tm with readers := tm.readers - 1 }
  | .wrlock => { tm with writer := true }
  | .wrunlock => { tm with writer := false }
  | .fetchAddClock _ => { tm with globalVersion := toInt (tm.globalVersion + 1) }
  | .casLock w expected true => { tm with lock := Function.update tm.lock w (vlTaken expected) }
  | .fetchSubLock w => { tm with lock := Function.update tm.lock w (vlUnlock (tm.lock w)) }
  | .storeLock w value => { tm with lock := Function.update tm.lock w value }
  | .copyIn w x => { tm with data := Function.update tm.data w x }
  | .lockVirtualMemory => { tm with virtualMemoryLock := true }
  | .unlockVirtualMemory => { tm with virtualMemoryLock := false }
  | .storeEmptySpots head => { tm with emptySpots := head }
  | .newNode spot =>
      { tm with
        node := Function.update tm.node tm.nodeCount (some spot)
        nodeCount := tm.nodeCount + 1 }
  | .freeNode n => { tm with node := Function.update tm.node n none }
  | .nextSpot => { tm with vaN := tm.vaN + 1 }
  | .newSegment spot =>
      { tm with
        vaArr := Function.update tm.vaArr spot (.segment tm.segmentCount)
        segment := Function.update tm.segment tm.segmentCount (some ⟨0, 0, .raw⟩)
        segmentCount := tm.segmentCount + 1 }
  | .noSegment spot => { tm with vaArr := Function.update tm.vaArr spot .null }
  | .fillSegment s numWords =>
      { tm.setSegment s fun g => { g with numWords := numWords, state := .filled } with
        data := fun w => if w.seg = s then 0 else tm.data w }
  | .readySegment s size =>
      { tm.setSegment s fun g => { g with size := size, state := .ready } with
        lock := fun w => if w.seg = s then vlInit else tm.lock w }
  | .failData s => tm.setSegment s fun g => { g with state := .broken }
  | .failLocks s => tm.setSegment s fun g => { g with state := .broken }
  | .lockToFree => { tm with toFreeLock := true }
  | .unlockToFree => { tm with toFreeLock := false }
  | .pushToFree spot capacity =>
      { tm with toFree := tm.toFree ++ [spot], toFreeSz := capacity }
  | .deleteSegment spot => tm.deleteSegment spot
  | .resetToFree => { tm with toFree := [] }
  | .tau | .loadClock _ | .loadLock _ _ | .casLock _ _ false | .copyOut _ _ | .ownWord _
  | .commit _ _ | .loadEmptySpots | .loadToFreeN => tm

/-- Whether a pointer into a segment's lock array, and so into its data, may be followed. -/
def valid (tm : Tm V) (w : Word) : Bool :=
  match tm.segment w.seg with
  | some g => decide (g.state = .ready ∧ (w.index : Int) < g.numWords)
  | none => false

def wordAt (tm : Tm V) (s : SegId) (k : Int) : Option Word :=
  if 0 ≤ k ∧ tm.valid ⟨s, k.toNat⟩ then some ⟨s, k.toNat⟩ else none

/-- The segment of a range that the callers of `tm_read` and `tm_write` may pass: aligned, not
empty, and inside one segment that `tm_create` or `tm_alloc` returned and nothing deleted. -/
def range (tm : Tm V) (addr : Addr) (size : Nat) : Option SegId :=
  match tm.vaArr (indexFromVa addr).toNat with
  | .segment s =>
      match tm.segment s with
      | some g =>
          if g.state = .ready ∧ 0 < size ∧ tm.align ∣ size ∧ tm.align ∣ offsetFromVa addr ∧
              offsetFromVa addr + size ≤ g.size then some s
          else none
      | none => none
  | _ => none

/-- The words of a range, counted over unbounded integers. -/
def wordsOf (tm : Tm V) (s : SegId) (addr : Addr) (size : Nat) : List Word :=
  (List.range (size / tm.align)).map fun i => ⟨s, offsetFromVa addr / tm.align + i⟩

end Tm

end TransactionalMemory
