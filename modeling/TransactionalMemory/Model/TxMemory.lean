import TransactionalMemory.Library.Machine
import TransactionalMemory.Model.Access

/-!
# The memory of a transaction

The model of the interleavings keeps values in the write set itself. Here `struct tx_s` is what it
is in memory: two arrays behind pointers that a failed `realloc` overwrites, and a buffer for each
value. The calls go through the words of their range as they do there. The versions that their loops
meet and the answers of the allocator are inputs.
-/

namespace TransactionalMemory

open Concurrency

/-- A buffer that `tm_write` has allocated for a value: the number of the `malloc` that returned
it. -/
abbrev BufferId := Nat

/-- An array behind a pointer. Of a null pointer's array only the number of entries is known. -/
inductive Vec (α : Type) where
  | array (items : List α)
  | null (n : Nat)

namespace Vec

variable {α : Type}

def length : Vec α → Nat
  | array items => items.length
  | null n => n

def items : Vec α → List α
  | array items => items
  | null _ => []

def find (v : Vec α) (p : α → Bool) : Outcome (Option α) :=
  match v with
  | array items => .next (items.find? p)
  | null 0 => .next none
  | null (_ + 1) => .crash

/-- The store of an entry behind the last one, in an array of `sz` entries. -/
def store (v : Vec α) (sz : Int) (x : α) : Outcome (Vec α) :=
  match v with
  | array items => if (items.length : Int) < sz then .next (array (items ++ [x])) else .crash
  | null _ => .crash

end Vec

/-- `struct tx_s` of a read-write transaction, without the list of frees. -/
structure TxMemory where
  rv : Int
  rs : Vec RsItem
  rsSz : Int
  ws : Vec (WsItem BufferId)
  wsSz : Int
  wsBloom : Bf
  /-- The number of buffers allocated so far. -/
  buffers : Nat

/-- What `tm_read` meets at a word: the version before and after the copy, and the outcome of a
`realloc`. -/
structure ReadTurn where
  before : Int
  after : Int
  reallocOk : Bool

/-- The same for `tm_write`, which loads the version once and allocates a buffer. -/
structure WriteTurn where
  version : Int
  reallocOk : Bool
  mallocOk : Bool

namespace TxMemory

def start (rv : Int) (bloom : Bf) : TxMemory where
  rv := rv
  rs := .array []
  rsSz := vecInitial
  ws := .array []
  wsSz := vecInitial
  wsBloom := bloom
  buffers := 0

variable (bit : Int → BitVec 64) (t : TxMemory)

def lookup (addr : Addr) : Outcome (Option (WsItem BufferId)) :=
  if bfIn bit t.wsBloom addr then t.ws.find fun item => item.addr = addr else .next none

def addToReadset (lock : Word) (versionRead : Int) (reallocOk : Bool) : Outcome (Bool × TxMemory) :=
  match t.rs.find fun item => item.versionedLock = some lock with
  | .next (some _) => .next (true, t)
  | .next none =>
      let full : Bool := t.rsSz ≤ t.rs.length
      let rsSz := if full then resize t.rsSz else t.rsSz
      if full && !reallocOk then .next (false, { t with rs := .null t.rs.length, rsSz := rsSz })
      else
        match t.rs.store rsSz ⟨versionRead, some lock⟩ with
        | .next rs => .next (true, { t with rs := rs, rsSz := rsSz })
        | _ => .crash
  | _ => .crash

/-- One turn of the loop of `tm_read` at the address `curr`, with the word whose lock it loads and
the one that it copies, where there is one. The answer `false` is for the call to clean up and fail.
-/
def tmReadTurn (curr : Addr) (lock copied : Option Word) (turn : ReadTurn) :
    Outcome (Bool × TxMemory) :=
  match t.lookup bit curr with
  | .next (some _) => .next (true, t)
  | .next none =>
      match lock with
      | none => .crash
      | some w =>
          if turn.before = -1 ∨ t.rv < turn.before then .next (false, t)
          else if copied = none then .crash
          else if turn.after ≠ turn.before then .next (false, t)
          else
            -- the result of `add_to_readset` is ignored here
            match t.addToReadset w turn.before turn.reallocOk with
            | .next (_, t') => .next (true, t')
            | _ => .crash
  | _ => .crash

def eraseLock (lock : Word) : Outcome TxMemory :=
  match t.rs with
  | .array items => .next { t with rs := .array (Tx.eraseLock items lock) }
  | .null 0 => .next t
  | .null (_ + 1) => .crash

def tmWriteTurn (curr : Addr) (w : Word) (turn : WriteTurn) : Outcome (Bool × TxMemory) :=
  if turn.version = -1 ∨ t.rv < turn.version then .next (false, t)
  else
    match t.lookup bit curr with
    | .next (some _) => .next (true, t)
    | .next none =>
        let full : Bool := (t.ws.length : Int) = t.wsSz
        let wsSz := if full then resize t.wsSz else t.wsSz
        if full && !turn.reallocOk then
          .next (false, { t with ws := .null t.ws.length, wsSz := wsSz })
        else if !turn.mallocOk then .next (false, { t with wsSz := wsSz })
        else
          match t.ws.store wsSz ⟨curr, t.buffers, w, w⟩ with
          | .next ws =>
              match eraseLock { t with
                ws := ws
                wsSz := wsSz
                wsBloom := bfAdd bit t.wsBloom curr
                buffers := t.buffers + 1 } w with
              | .next t' => .next (true, t')
              | _ => .crash
          | _ => .crash
    | _ => .crash

/-- `transaction_cleanup`: the buffers that its loop frees, before it frees the arrays, which `free`
allows to be null, and the struct. -/
def transactionCleanup : Outcome (List BufferId) :=
  match t.ws with
  | .array items => .next (items.map WsItem.value)
  | .null 0 => .next []
  | .null (_ + 1) => .crash

end TxMemory

/-! ### The calls of one transaction -/

/-- Where a transaction stands in its calls of `tm_read` and `tm_write`, each with the region and
the range it was called for. -/
inductive CallPoint (V : Type) where
  | outside
  | reading (tm : Tm V) (source : Addr) (size : Nat) (c : ReadCall) (i : Nat)
  | writing (tm : Tm V) (target : Addr) (size : Nat) (c : WriteCall V) (i : Nat)
  | hasRead (tm : Tm V) (source : Addr) (size : Nat)
  | hasWritten (tm : Tm V) (target : Addr) (size : Nat)
  /-- The call has returned `false`, and these buffers have been freed on the way. -/
  | disposed (freed : List BufferId)
  /-- An array was read through a null pointer or past its end, or an `int` overflowed. -/
  | faulted

def CallPoint.isOpen {V : Type} : CallPoint V → Bool
  | outside | hasRead _ _ _ | hasWritten _ _ _ => true
  | _ => false

structure TxState (V : Type) where
  memory : TxMemory
  point : CallPoint V

/-- A call brings the region as it finds it. Nothing it looks at there but locks and data changes
before it returns. -/
inductive TxAction (V : Type) where
  | read (tm : Tm V) (source : Addr) (size : Nat)
  | write (tm : Tm V) (source : List V) (size : Nat) (target : Addr)
  | readTurn (turn : ReadTurn)
  | writeTurn (turn : WriteTurn)
  /-- The loop of the call is done. -/
  | ret

namespace TxState

variable {V : Type}

def afterTurn (point : CallPoint V) : Outcome (Bool × TxMemory) → TxMemory → TxState V
  | .next (true, t'), _ => ⟨t', point⟩
  | .next (false, t'), _ =>
      match t'.transactionCleanup with
      | .next freed => ⟨t', .disposed freed⟩
      | _ => ⟨t', .faulted⟩
  | _, t => ⟨t, .faulted⟩

variable (bit : Int → BitVec 64) (t : TxMemory)

def readStep (tm : Tm V) (source : Addr) (size : Nat) (c : ReadCall) (i : Nat) (turn : ReadTurn) :
    TxState V :=
  match c.curr i with
  | none => ⟨t, .faulted⟩
  | some curr =>
      afterTurn (.reading tm source size c (i + 1))
        (t.tmReadTurn bit curr (tm.wordAt c.seg (c.startWord + i)) (c.wordAt tm i) turn) t

def writeStep (tm : Tm V) (target : Addr) (size : Nat) (c : WriteCall V) (i : Nat)
    (turn : WriteTurn) : TxState V :=
  match tm.wordAt c.seg (c.idxStart + i) with
  | none => ⟨t, .faulted⟩
  | some w =>
      afterTurn (.writing tm target size c (i + 1)) (t.tmWriteTurn bit (c.curr tm i) w turn) t

/-- The range of a call is one that the interface allows, in a region of a multiple of eight bytes,
as `posix_memalign` makes them. -/
def step (s : TxState V) : TxAction V → Option (TxState V)
  | .read tm source size =>
      if s.point.isOpen ∧ 8 ∣ tm.align then
        (tm.range source size).map fun g =>
          match tmReadCall tm g source size with
          | none => ⟨s.memory, .faulted⟩
          | some c => ⟨s.memory, .reading tm source size c 0⟩
      else none
  | .write tm source size target =>
      if s.point.isOpen ∧ 8 ∣ tm.align ∧ source.length = size / tm.align then
        (tm.range target size).map fun g =>
          ⟨s.memory, .writing tm target size (tmWriteCall tm g source size target) 0⟩
      else none
  | .readTurn turn =>
      match s.point with
      | .reading tm source size c i =>
          if (i : Int) < c.numWords then some (readStep bit s.memory tm source size c i turn)
          else none
      | _ => none
  | .writeTurn turn =>
      match s.point with
      | .writing tm target size c i =>
          if (i : Int) < c.numWords then some (writeStep bit s.memory tm target size c i turn)
          else none
      | _ => none
  | .ret =>
      match s.point with
      | .reading tm source size c i =>
          if (i : Int) < c.numWords then none else some ⟨s.memory, .hasRead tm source size⟩
      | .writing tm target size c i =>
          if (i : Int) < c.numWords then none else some ⟨s.memory, .hasWritten tm target size⟩
      | _ => none

end TxState

/-- A read-write transaction from `tm_begin` on: any calls, whatever they meet of the region and of
the allocator. -/
def txMachine (V : Type) (bit : Int → BitVec 64) : Machine (TxState V) (TxAction V) where
  init s := ∃ rv bloom, s = ⟨.start rv bloom, .outside⟩
  step s a s' := s.step bit a = some s'

end TransactionalMemory
