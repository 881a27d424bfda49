import TransactionalMemory.Library.ReadersWriter
import TransactionalMemory.Model.Reference

/-!
# Threads on the reference implementation

The threads of a program that uses `reference/tm.c`. Between transactions they move on state of
their own and on state they share; in a transaction they ask for one call after another. `memcpy`
copies one word at a time, and every thread may move between two words. A word outside the segments
that are there cannot be accessed.
-/

namespace TransactionalMemory.Reference

open Concurrency

/-- What a client does next in its transaction, and how it goes on with the answer. -/
inductive Request (V π β : Type) where
  | read (source : Ptr) (size : Nat) (next : List V → π)
  | write (source : List V) (size : Nat) (target : Ptr) (next : π)
  | alloc (size : Nat) (next : Option Ptr → π)
  | free (target : Ptr) (next : π)
  /-- A step of its own. -/
  | skip (next : π)
  | finish (result : β)

inductive TxPoint (V π : Type) where
  | client (p : π)
  /-- In the `memcpy` of `tm_read`, with what it has copied. -/
  | reading (source : Ptr) (size : Nat) (copied : List V) (next : List V → π)
  /-- In the `memcpy` of `tm_write`, before word `i`. -/
  | writing (source : List V) (size : Nat) (target : Ptr) (i : Nat) (next : π)

def Ptr.word (p : Ptr) (align i : Nat) : Ptr := ⟨p.block, p.offset + i * align⟩

variable {V π β : Type} [Zero V] (request : π → Request V π β)

def TxPoint.step (r : Region V) (memalignOk : Bool) : TxPoint V π → Outcome (TxPoint V π × Region V)
  | .client p =>
      match request p with
      | .read source size next => .next (.reading source size [] next, r)
      | .write source size target next => .next (.writing source size target 0 next, r)
      | .alloc size next =>
          .next (.client (next (tmAlloc r memalignOk size).1), (tmAlloc r memalignOk size).2)
      | .free target next =>
          match tmFree r target with
          | .next (_, r') => .next (.client next, r')
          | .blocked => .blocked
          | .crash => .crash
      | .skip next => .next (.client next, r)
      | .finish _ => .blocked
  | .reading source size copied next =>
      if copied.length < size / r.align then
        let word := source.word r.align copied.length
        if r.inBounds word r.align then
          .next (.reading source size (copied ++ r.load word 1) next, r)
        else .crash
      else .next (.client (next copied), r)
  | .writing source size target i next =>
      if i < size / r.align then
        match source[i]? with
        | none => .crash
        | some v =>
            let word := target.word r.align i
            if r.inBounds word r.align then
              .next (.writing source size target (i + 1) next, r.store word [v])
            else .crash
      else .next (.client next, r)

def TxPoint.result : TxPoint V π → Option β
  | .client p =>
      match request p with
      | .finish result => some result
      | _ => none
  | _ => none

/-- Transactions as blocks on the region. An allocation may fail at any time. -/
def transactions : Blocks (TxPoint V π) (Region V) β where
  step x y := ∃ memalignOk, x.1.step request x.2 memalignOk = .next y
  result := TxPoint.result request
  halted := by
    rintro ⟨point, r⟩ y ⟨memalignOk, hstep⟩
    cases point with
    | reading | writing => rfl
    | client p =>
        cases hp : request p <;> simp only [TxPoint.step, hp] at hstep
        case finish => cases hstep
        all_goals simp only [TxPoint.result, hp]

variable {request} {Tid γ κ : Type} [DecidableEq Tid]

structure State (Tid γ κ V π : Type) where
  region : Region V
  shared : γ
  own : Tid → κ
  /-- The transaction a thread is in: whether it is `read_only_tx`, and where it stands. -/
  inside : Tid → Option (Bool × TxPoint V π)

section Steps

variable (clients : Clients (transactions request) Tid γ κ)

inductive Step (tid : Tid) (s : State Tid γ κ V π) : State Tid γ κ V π → Prop where
  | move {g : γ} {k : κ} (hout : s.inside tid = none)
      (h : clients.move tid (s.shared, s.own tid) (g, k)) :
      Step tid s { s with shared := g, own := Function.update s.own tid k }
  | begin {isRo valid : Bool} {p : TxPoint V π} {r : Region V} (hout : s.inside tid = none)
      (hblock : clients.block tid (s.own tid) = some (isRo, p))
      (h : tmBegin s.region isRo = .next (valid, r)) :
      Step tid s { s with
        region := r, inside := Function.update s.inside tid (some (isRo, p)) }
  | call {isRo memalignOk : Bool} {p p' : TxPoint V π} {r : Region V}
      (hin : s.inside tid = some (isRo, p))
      (h : p.step request s.region memalignOk = .next (p', r)) :
      Step tid s { s with
        region := r, inside := Function.update s.inside tid (some (isRo, p')) }
  | finish {isRo : Bool} {p : TxPoint V π} {b : β} (hin : s.inside tid = some (isRo, p))
      (hresult : p.result request = some b) :
      Step tid s { s with
        region := (tmEnd s.region isRo).2
        own := Function.update s.own tid (clients.returns tid (s.own tid) b)
        inside := Function.update s.inside tid none }

def threads (size align : Nat) : Machine (State Tid γ κ V π) Tid where
  init s := clients.init s.shared s.own ∧ tmCreate true true true size align = some s.region ∧
    ∀ tid, s.inside tid = none
  step s tid s' := Step clients tid s s'

end Steps

end TransactionalMemory.Reference
