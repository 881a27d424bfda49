import TransactionalMemory.Library.Release
import TransactionalMemory.Model.Region

/-!
# `tm_destroy`

The blocks of the region on the heap, and the calls of `free` that `tm_destroy` makes. `none` stands
for undefined behaviour: a block is freed that is not allocated, a pointer is followed or freed that
was never set, `va_arr` is read past its end.
-/

namespace TransactionalMemory

open Concurrency

/-- What the region has on the heap, apart from the private sets of its transactions. -/
inductive Block where
  | shared
  | vaArr
  | toFree
  | node (n : NodeId)
  /-- The struct of a segment. -/
  | segment (s : SegId)
  | data (s : SegId)
  | locks (s : SegId)
deriving DecidableEq, Repr

variable {V : Type}

def Tm.allocated (tm : Tm V) : Block → Bool
  | .shared | .vaArr => true
  | .toFree => !tm.toFreeNull
  | .node n => (tm.node n).isSome
  | .segment s => (tm.segment s).isSome
  | .data s => (tm.segment s).any fun g => decide (g.state = .filled ∨ g.state = .ready)
  | .locks s => (tm.segment s).any fun g => decide (g.state = .ready)

variable (tm : Tm V)

/-- `segment_cleanup`. The fields that `segment_init` has not set, or left dangling, point to no
block. -/
def segmentCleanup (freed : List Block) (s : SegId) : Option (List Block) :=
  releaseAll tm.allocated freed [.data s, .locks s, .segment s]

def cleanupEntry (freed : List Block) (i : Nat) : Option (List Block) :=
  if i < vaSize then
    match tm.vaArr i with
    | .garbage => none
    | .null => some freed
    | .segment s => segmentCleanup tm freed s
  else none

/-- The second loop, which reads `next` of a node that it frees right after. No list of nodes that
are all allocated is longer than `fuel` where that is the number of nodes ever allocated. -/
def cleanupSpots (fuel : Nat) (emptySpots : Option NodeId) (freed : List Block) :
    Option (List Block) :=
  match fuel, emptySpots with
  | _, none => some freed
  | 0, some _ => none
  | fuel + 1, some tmp =>
      (tm.node tmp).bind fun spot =>
        (release tm.allocated freed (.node tmp)).bind fun freed => cleanupSpots fuel spot.next freed

/-- `tm_cleanup`. `free` of a null `to_free` does nothing. -/
def tmCleanup : Option (List Block) := do
  let freed ← (List.range tm.vaN).foldlM (cleanupEntry tm) []
  let freed ← cleanupSpots tm tm.nodeCount tm.emptySpots freed
  let freed ← release tm.allocated freed .vaArr
  let freed ← if tm.toFreeNull then some freed else release tm.allocated freed .toFree
  release tm.allocated freed .shared

def tmDestroy : Option (List Block) := tmCleanup tm

end TransactionalMemory
