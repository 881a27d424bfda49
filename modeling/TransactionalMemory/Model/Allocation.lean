import TransactionalMemory.Model.Thread

/-!
# `tm_alloc` and `tm_free`

The free list is popped under `virtual_memory_lock` and pushed without it when `segment_init` fails.
Each use of `tm->empty_spots` is a step of its own.
-/

namespace TransactionalMemory

variable {V : Type} [Zero V] (tm : Tm V) (choice : Choice V)

/-- `posix_memalign` refuses an alignment that is not a multiple of `sizeof(void *)`. -/
def posixMemalign (align : Nat) (ok : Bool) : Bool := ok && decide (8 ∣ align)

/-- `malloc(num_words * sizeof(versioned_lock_t))`, where a negative count asks for too much. -/
def mallocLocks (numWords : Int) (ok : Bool) : Bool := ok && decide (0 ≤ numWords)

def headSpot : Option EmptySpot := tm.emptySpots.bind tm.node

/-- `tm_alloc`. A null `malloc` result that is followed at once ends the run. -/
def tmAllocStep (t : Tx V) (size : Nat) : AllocPc → Move V
  | .lock =>
      if tm.virtualMemoryLock then .blocked
      else .op .lockVirtualMemory (.allocating t size .check)
  | .check =>
      if tm.emptySpots = none then .op .loadEmptySpots (.allocating t size .counter)
      else .op .loadEmptySpots (.allocating t size .popIndex)
  | .popIndex =>
      match headSpot tm with
      | none => .crash
      | some spot => .op .loadEmptySpots (.allocating t size (.popTmp spot.index))
  | .popTmp spot =>
      match tm.emptySpots with
      | none => .crash
      | some tmp => .op .loadEmptySpots (.allocating t size (.popNext spot tmp))
  | .popNext spot tmp =>
      match headSpot tm with
      | none => .crash
      | some head => .op .loadEmptySpots (.allocating t size (.popStore spot tmp head.next))
  | .popStore spot tmp next => .op (.storeEmptySpots next) (.allocating t size (.popFree spot tmp))
  | .popFree spot tmp =>
      if tm.node tmp = none then .crash
      else .op (.freeNode tmp) (.allocating t size (.unlock spot))
  | .counter => .op .nextSpot (.allocating t size (.unlock tm.vaN))
  | .unlock spot => .op .unlockVirtualMemory (.allocating t size (.initStruct spot))
  | .initStruct spot =>
      -- past the end of `va_arr` the pointer to the new struct is written out of bounds
      if spot < vaSize then
        if choice.mallocOk 0 then
          .op (.newSegment spot) (.allocating t size (.initData spot tm.segmentCount))
        -- without a struct `&s->data` is no place to store at, but a failing `posix_memalign`
        -- stores nothing
        else if posixMemalign tm.align (choice.mallocOk 1) then .crash
        else .op (.noSegment spot) (.allocating t size (.pushNode spot))
      else .crash
  | .initData spot s =>
      if posixMemalign tm.align (choice.mallocOk 0) then
        .op (.fillSegment s (toInt (size / tm.align : Nat)))
          (.allocating t size (.initLocks spot s))
      else .op (.failData s) (.allocating t size (.pushNode spot))
  | .initLocks spot s =>
      if mallocLocks (toInt (size / tm.align : Nat)) (choice.mallocOk 0) then
        .op (.readySegment s size)
          (.returning (.alloc (.success (vaFromIndex spot 0))) (some t))
      else .op (.failLocks s) (.allocating t size (.pushNode spot))
  | .pushNode spot =>
      if choice.mallocOk 0 then
        .op (.newNode ⟨tm.emptySpots, spot⟩) (.allocating t size (.pushStore spot tm.nodeCount))
      else .crash
  | .pushStore _ n => .op (.storeEmptySpots (some n)) (.returning (.alloc .nomem) (some t))

def tmFreeStep (t : Tx V) (target : Addr) : Move V :=
  let spot := toInt (indexFromVa target).toNat
  if spot = 0 then .op .tau (.aborting t (.free false))
  else if choice.mallocOk 0 then
    .op .tau (.returning (.free true) (some { t with toFree := t.toFree ++ [spot] }))
  else .crash

end TransactionalMemory
