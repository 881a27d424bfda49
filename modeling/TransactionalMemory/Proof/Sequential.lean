import TransactionalMemory.Model.Reference
import TransactionalMemory.SegmentGenerations
import TransactionalMemory.Proof.Entries
import TransactionalMemory.Proof.ReadSet

/-!
# Sequential histories

Transactions run one after another, on any threads, and the reference implementation runs the same
calls beside them. The reference makes its step when the call returns. A segment has an address in
each of the two, so the pointers that clients pass are translated.
-/

namespace TransactionalMemory

open Concurrency

variable {V Tid : Type}

structure Mirror (V : Type) where
  region : Reference.Region V
  /-- The block of the segment at an index of `va_arr`. -/
  block : Nat → Option Reference.BlockId
  /-- The call in progress. -/
  call : Option (Reference.Call V)

namespace Mirror

variable (r : Mirror V)

def pointer (addr : Addr) : Option Reference.Ptr :=
  (r.block (indexFromVa addr).toNat).map fun b => ⟨b, offsetFromVa addr⟩

def translate (thread : Thread V) : Call V → Option (Reference.Call V)
  | .begin isRo => some (.begin isRo)
  | .read source size => (r.pointer source).map fun p => .read p size
  | .write source size target => (r.pointer target).map fun p => .write source size p
  | .alloc size => some (.alloc size)
  | .free target => (r.pointer target).map .free
  | .finish => thread.tx.map fun t => .finish t.isRo

def answer [Zero V] : Option (Reference.Ret V × Reference.Region V) :=
  r.call.bind fun call =>
    match r.region.run call with
    | .next result => some result
    | _ => none

/-- The two answers of a `tm_alloc` are the addresses of one segment. -/
def place (ret : Ret V) (answer : Reference.Ret V) : Nat → Option Reference.BlockId :=
  match ret, answer with
  | .alloc (.success target), .alloc (some p) =>
      Function.update r.block (indexFromVa target).toNat (some p.block)
  | _, _ => r.block

def next [Zero V] (s : State Tid V) (l : Label Tid V) : Mirror V :=
  match l.event with
  | .call call => { r with call := r.translate (s.thread l.tid) call }
  | .op _ => r
  | .ret ret =>
      match r.answer with
      | some (answer, region) => ⟨region, r.place ret answer, none⟩
      | none => r

/-- An aligned range that is not empty, inside a segment that the reference has not freed. -/
def InRange (addr : Addr) (size : Nat) : Prop :=
  0 < size ∧ r.region.align ∣ size ∧ ∃ p, r.pointer addr = some p ∧ r.region.align ∣ p.offset ∧
    r.region.inBounds p size = true

/-- The calls of a sequential history: a transaction begins when no other is open, a read-only one
only reads, segments stay below `2 ^ 31` bytes and the spots and versions inside their types. -/
def Legal (s : State Tid V) (tid : Tid) : Call V → Prop
  | .begin _ => ∀ tid, s.thread tid = .idle
  | .read source size => r.InRange source size
  | .write source size target => (∀ t, (s.thread tid).tx = some t → t.isRo = false) ∧
      r.InRange target size ∧ source.length = size / r.region.align
  | .alloc size => (∀ t, (s.thread tid).tx = some t → t.isRo = false) ∧ 0 < size ∧
      size < 2 ^ 31 ∧ r.region.align ∣ size ∧ (s.tm.emptySpots = none → s.tm.vaN < 65535)
  | .free target => (∀ t, (s.thread tid).tx = some t → t.isRo = false) ∧
      ∃ b ∈ r.region.allocs, r.pointer target = some ⟨b, 0⟩
  | .finish => s.tm.globalVersion + 1 < 2 ^ 30

/-- The two implementations answer alike: both succeed, a read delivers the same words, and a new
segment is at an address that no segment in use has. -/
def Agree : Ret V → Reference.Ret V → Prop
  | .begin valid, .begin valid' => valid = true ∧ valid' = true
  | .read target, .read ok target' => target = some target' ∧ ok = true
  | .write ok, .write ok' => ok = true ∧ ok' = true
  | .alloc result, .alloc target => ∃ spot b, result = .success (vaFromIndex spot 0) ∧
      target = some ⟨b, 0⟩ ∧ spot < 65535 ∧
        ∀ b', r.block spot = some b' → r.region.segment b' = none
  | .free ok, .free ok' => ok = true ∧ ok' = true
  | .finish committed, .finish committed' => committed = true ∧ committed' = true
  | _, _ => False

end Mirror

/-- No allocation fails, and each call is one of a sequential history. -/
def Sequential (s : State Tid V) (r : Mirror V) (l : Label Tid V) : Prop :=
  (∀ i, l.choice.mallocOk i = true) ∧ ∀ call, l.event = .call call → r.Legal s l.tid call

def sequentialMachine [Zero V] (Tid : Type) [DecidableEq Tid] (platform : Platform V) :
    Machine (State Tid V × Mirror V) (Label Tid V) where
  init p := (∀ tid, p.1.thread tid = .idle) ∧ ∃ choice size align region,
    0 < size ∧ size < 2 ^ 31 ∧ align ∣ size ∧ (∃ k, align = 2 ^ k) ∧
      (∀ i, choice.mallocOk i = true) ∧ tmCreate choice size align = .next (some p.1.tm) ∧
      Reference.tmCreate true true true size align = some region ∧
      p.2 = ⟨region, Function.update (fun _ => none) 0 (some region.start), none⟩
  step p l p' := Sequential p.1 p.2 l ∧ (system Tid platform).step p.1 l p'.1 ∧
    p'.2 = p.2.next p.1 l

/-- What the steps of sequential histories turn out to meet. -/
def SequentialOk (s : State Tid V) (l : Label Tid V) : Prop :=
  VersionsBounded s l ∧ AccessOk s l ∧ FreesInstalled s l

def Solo (s : State Tid V) (tid : Tid) : Prop := ∀ u, u ≠ tid → s.thread u = .idle

end TransactionalMemory
