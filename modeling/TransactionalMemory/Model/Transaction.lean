import Mathlib.Data.List.Sort
import TransactionalMemory.Model.Bloom
import TransactionalMemory.Model.Region

/-!
# Transactions

`struct tx_s` with its read set, write set and private list of frees, and the helpers that touch
nothing else. Each function answers `blocked` where the thread has to wait, and `crash` where C
leaves the behaviour undefined: a null or stray pointer is followed, an array is written past its
end, an assertion fails.
-/

namespace TransactionalMemory

inductive Outcome (α : Type) where
  | next (a : α)
  | blocked
  | crash

/-- `rs_item_t`. A read that was overwritten by the same transaction has a null lock. -/
structure RsItem where
  versionRead : Int
  versionedLock : Option Word
deriving DecidableEq, Repr

structure WsItem (V : Type) where
  addr : Addr
  value : V
  rawAddr : Word
  versionedLock : Word

/-- `ws_item_cmp`: a pointer difference returned as an `int`. -/
def wsItemCmp {V : Type} (a b : WsItem V) : Int := toInt (a.addr - b.addr).toInt

/-- What the C language and its library leave open and the code relies on. -/
structure Platform (V : Type) where
  /-- The value of `1 << pos` in the bloom filter. -/
  bit : Int → BitVec 64
  /-- `qsort`, which permutes the array whatever the comparison function answers. -/
  qsort : (WsItem V → WsItem V → Int) → List (WsItem V) → List (WsItem V)
  qsort_perm : ∀ cmp items, (qsort cmp items).Perm items

/-- What gcc makes of them on x86-64: the shift count is taken modulo 32 and the `int` result is
sign-extended, and `qsort` is a stable sort. -/
def Platform.x86 (V : Type) : Platform V where
  bit pos := ((1#32) <<< (pos % 32).toNat).signExtend 64
  qsort cmp items := items.insertionSort fun a b => cmp a b ≤ 0
  qsort_perm _ _ := List.perm_insertionSort _ _

structure Tx (V : Type) where
  rv : Int
  isRo : Bool
  ws : List (WsItem V)
  wsSz : Int
  wsBloom : Bf
  /-- `none` once a failed `realloc` has replaced the array by a null pointer. -/
  rs : Option (List RsItem)
  rsSz : Int
  toFree : List Int

namespace Tx

variable {V : Type}

def start (rv : Int) (isRo : Bool) (bloom : Bf) : Tx V where
  rv := rv
  isRo := isRo
  ws := []
  wsSz := vecInitial
  wsBloom := bloom
  rs := some []
  rsSz := vecInitial
  toFree := []

def lookup (t : Tx V) (bit : Int → BitVec 64) (addr : Addr) : Option (WsItem V) :=
  if bfIn bit t.wsBloom addr then t.ws.find? fun item => item.addr = addr else none

/-- `add_to_readset`. The array is a null pointer only after the call that lost it answered
false. -/
def addToReadset (t : Tx V) (lock : Word) (versionRead : Int) (reallocOk : Bool) :
    Outcome (Bool × Tx V) :=
  match t.rs with
  | none => .crash
  | some rs =>
      if !t.isRo && rs.any fun item => item.versionedLock = some lock then .next (true, t)
      else
        let full : Bool := t.rsSz ≤ rs.length
        let rsSz := if full then resize t.rsSz else t.rsSz
        if full && !reallocOk then .next (false, { t with rs := none, rsSz := rsSz })
        else if (rs.length : Int) < rsSz then
          .next (true, { t with rs := some (rs ++ [⟨versionRead, some lock⟩]), rsSz := rsSz })
        else .crash

/-- The last loop of `tm_write`: the first entry of the lock becomes a null pointer. -/
def eraseLock (rs : List RsItem) (lock : Word) : List RsItem :=
  match rs with
  | [] => []
  | item :: rest =>
      if item.versionedLock = some lock then { item with versionedLock := none } :: rest
      else item :: eraseLock rest lock

def overwrite (ws : List (WsItem V)) (addr : Addr) (x : V) : List (WsItem V) :=
  match ws with
  | [] => []
  | item :: rest =>
      if item.addr = addr then { item with value := x } :: rest else item :: overwrite rest addr x

/-- The branch of `tm_write` that appends an entry: `none` when it aborts. A failed `realloc` leaves
a null `ws` that `transaction_cleanup` then walks. -/
def append (t : Tx V) (bit : Int → BitVec 64) (addr : Addr) (x : V) (w : Word)
    (reallocOk mallocOk : Bool) : Outcome (Option (Tx V)) :=
  let full : Bool := (t.ws.length : Int) = t.wsSz
  let wsSz := if full then resize t.wsSz else t.wsSz
  if full && !reallocOk then .crash
  else if !mallocOk then .next none
  else if (t.ws.length : Int) < wsSz then
    match t.rs with
    | none => .crash
    | some rs =>
        .next (some { t with
          ws := t.ws ++ [⟨addr, x, w, w⟩]
          wsSz := wsSz
          wsBloom := bfAdd bit t.wsBloom addr
          rs := some (eraseLock rs w) })
  else .crash

def writes (t : Tx V) : List (Word × V) := t.ws.map fun item => (item.rawAddr, item.value)

def locks (t : Tx V) : List Word := t.ws.map WsItem.versionedLock

end Tx

end TransactionalMemory
