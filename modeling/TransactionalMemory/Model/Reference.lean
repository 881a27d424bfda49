import TransactionalMemory.Model.Allocation

/-!
# The reference implementation

`reference/tm.c` runs transactions under one lock and copies straight to memory. A pointer into the
region is a block that `posix_memalign` returned, named once, with the byte offset into the segment
it holds. `memcpy` moves whole words here, since ranges are aligned.
-/

namespace TransactionalMemory.Reference

abbrev BlockId := Nat

structure Ptr where
  block : BlockId
  offset : Nat
deriving DecidableEq, Repr

/-- `struct region`, with the memory its pointers lead to. -/
structure Region (V : Type) where
  /-- Shared holds on `lock`. -/
  readers : Nat
  /-- Whether `lock` is held exclusively. -/
  writer : Bool
  start : BlockId
  /-- The list of `tm_alloc`ed segments, newest first. -/
  allocs : List BlockId
  size : Nat
  align : Nat
  /-- The sizes of the segments whose blocks are not freed. -/
  segment : BlockId → Option Nat
  blockCount : Nat
  word : BlockId → Nat → V

inductive Call (V : Type) where
  | begin (isRo : Bool)
  | read (source : Ptr) (size : Nat)
  | write (source : List V) (size : Nat) (target : Ptr)
  | alloc (size : Nat)
  | free (target : Ptr)
  /-- `isRo` is whether the handle is `read_only_tx`. -/
  | finish (isRo : Bool)

inductive Ret (V : Type) where
  | begin (valid : Bool)
  | read (ok : Bool) (target : List V)
  | write (ok : Bool)
  /-- `none` is `nomem_alloc`. -/
  | alloc (target : Option Ptr)
  | free (ok : Bool)
  | finish (committed : Bool)

section

variable {V : Type} [Zero V]

/-- `tm_create`: `none` is `invalid_shared`. -/
def tmCreate (mallocOk memalignOk lockOk : Bool) (size align : Nat) : Option (Region V) :=
  if !mallocOk || !posixMemalign align memalignOk || !lockOk then none
  else some {
    readers := 0
    writer := false
    start := 0
    allocs := []
    size := size
    align := align
    segment := Function.update (fun _ => none) 0 (some size)
    blockCount := 1
    word := fun _ _ => 0 }

/-- `tm_alloc`: the block is aligned for the list node in front of the segment as well. -/
def tmAlloc (r : Region V) (memalignOk : Bool) (size : Nat) : Option Ptr × Region V :=
  let align := if r.align < 8 then 8 else r.align
  if posixMemalign align memalignOk then
    (some ⟨r.blockCount, 0⟩, { r with
      allocs := r.blockCount :: r.allocs
      segment := Function.update r.segment r.blockCount (some size)
      blockCount := r.blockCount + 1
      word := Function.update r.word r.blockCount fun _ => 0 })
  else (none, r)

end

variable {V : Type} (r : Region V)

def Region.inBounds (p : Ptr) (size : Nat) : Bool :=
  (r.segment p.block).any fun n => decide (p.offset + size ≤ n)

def Region.load (p : Ptr) (n : Nat) : List V :=
  (List.range n).map fun i => r.word p.block (p.offset / r.align + i)

def Region.store (p : Ptr) (values : List V) : Region V :=
  { r with word := fun b k =>
      if b = p.block ∧ p.offset / r.align ≤ k then
        values[k - p.offset / r.align]?.getD (r.word b k)
      else r.word b k }

def tmBegin (isRo : Bool) : Outcome (Bool × Region V) :=
  if isRo then
    if r.writer then .blocked else .next (true, { r with readers := r.readers + 1 })
  else
    if r.writer || r.readers ≠ 0 then .blocked else .next (true, { r with writer := true })

def tmEnd (isRo : Bool) : Bool × Region V :=
  if isRo then (true, { r with readers := r.readers - 1 }) else (true, { r with writer := false })

def tmRead (source : Ptr) (size : Nat) : Outcome (Bool × List V) :=
  if r.inBounds source size then .next (true, r.load source (size / r.align)) else .crash

def tmWrite (source : List V) (size : Nat) (target : Ptr) : Outcome (Bool × Region V) :=
  if r.inBounds target size then .next (true, r.store target (source.take (size / r.align)))
  else .crash

/-- `tm_free`, on an address that `tm_alloc` returned. -/
def tmFree (target : Ptr) : Outcome (Bool × Region V) :=
  if target.offset = 0 ∧ target.block ∈ r.allocs then
    .next (true, { r with
      allocs := r.allocs.erase target.block
      segment := Function.update r.segment target.block none })
  else .crash

/-- One call, where no allocation fails. -/
def Region.run [Zero V] : Call V → Outcome (Ret V × Region V)
  | .begin isRo =>
      match tmBegin r isRo with
      | .next (valid, r') => .next (.begin valid, r')
      | .blocked => .blocked
      | .crash => .crash
  | .read source size =>
      match tmRead r source size with
      | .next (ok, target) => .next (.read ok target, r)
      | .blocked => .blocked
      | .crash => .crash
  | .write source size target =>
      match tmWrite r source size target with
      | .next (ok, r') => .next (.write ok, r')
      | .blocked => .blocked
      | .crash => .crash
  | .alloc size => .next (.alloc (tmAlloc r true size).1, (tmAlloc r true size).2)
  | .free target =>
      match tmFree r target with
      | .next (ok, r') => .next (.free ok, r')
      | .blocked => .blocked
      | .crash => .crash
  | .finish isRo => .next (.finish (tmEnd r isRo).1, (tmEnd r isRo).2)

end TransactionalMemory.Reference
