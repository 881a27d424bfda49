import TransactionalMemory.Model.Address
import Mathlib.Data.List.Basic

/-!
# The bloom filter of the write set

`bloom.c` hashes an address with five seeds to bit positions of a 64-bit set. What `1 << pos`
evaluates to for the positions that occur, negative ones among them, is left to a parameter `bit`.
-/

namespace TransactionalMemory

structure Bf where
  bitset : BitVec 64
  align : Nat

/-- `bf_init`. Where no shift below 16 reaches `align` the field keeps what `malloc` left in it. -/
def bfInit (garbage : Nat) (align : Int) : Bf where
  bitset := 0#64
  align := ((List.range 16).find? fun i => decide (align ≤ 2 ^ i)).getD garbage

def hash (data : Addr) (align seed : Nat) : Int :=
  toInt ((((data >>> align) + BitVec.ofNat 64 seed) * 1607#64) >>> 5).toNat

/-- The position for seed number `i`: C's `%`, which keeps the sign of the hash. -/
def bfPos (bf : Bf) (x : Addr) (i : Nat) : Int := (hash x bf.align (i * 31)).tmod 64

variable (bit : Int → BitVec 64)

def bitGet (data : BitVec 64) (pos : Int) : Bool := decide (data &&& bit pos ≠ 0#64)

def bitSet (data : BitVec 64) (pos : Int) : BitVec 64 := data ||| bit pos

def bfIn (bf : Bf) (x : Addr) : Bool :=
  (List.range 5).all fun i => bitGet bit bf.bitset (bfPos bf x i)

def bfAdd (bf : Bf) (x : Addr) : Bf :=
  { bf with
    bitset := (List.range 5).foldl (fun data i => bitSet bit data (bfPos bf x i)) bf.bitset }

variable {bit}

@[simp]
theorem bfPos_bfAdd (bf : Bf) (x y : Addr) (i : Nat) :
    bfPos (bfAdd bit bf x) y i = bfPos bf y i := rfl

theorem bitGet_bitSet_of_bitGet {data : BitVec 64} {pos pos' : Int}
    (h : bitGet bit data pos = true) : bitGet bit (bitSet bit data pos') pos = true := by
  rw [bitGet, decide_eq_true_eq] at h ⊢
  intro hzero
  apply h
  have : data &&& bit pos = (data ||| bit pos') &&& bit pos &&& data := by
    ext i hi
    simp only [BitVec.getElem_and, BitVec.getElem_or]
    cases data[i] <;> simp
  rw [this, show (data ||| bit pos') &&& bit pos = 0#64 from hzero, BitVec.zero_and]

theorem bitGet_bitSet_self {data : BitVec 64} {pos : Int} (hbit : bit pos ≠ 0#64) :
    bitGet bit (bitSet bit data pos) pos = true := by
  rw [bitGet, decide_eq_true_eq]
  intro hzero
  apply hbit
  have : bit pos = (data ||| bit pos) &&& bit pos := by
    ext i hi
    simp only [BitVec.getElem_and, BitVec.getElem_or]
    cases (bit pos)[i] <;> simp
  exact this.trans hzero

/-- Setting bits only ever adds to what a set answers. -/
theorem bitGet_foldl {positions : List Int} {data : BitVec 64} {pos : Int}
    (h : bitGet bit data pos = true) :
    bitGet bit (positions.foldl (fun data pos => bitSet bit data pos) data) pos = true := by
  induction positions generalizing data with
  | nil => exact h
  | cons head positions ih => exact ih (bitGet_bitSet_of_bitGet h)

theorem bitGet_foldl_of_mem {positions : List Int} {data : BitVec 64} {pos : Int}
    (hmem : pos ∈ positions) (hbit : bit pos ≠ 0#64) :
    bitGet bit (positions.foldl (fun data pos => bitSet bit data pos) data) pos = true := by
  induction positions generalizing data with
  | nil => simp at hmem
  | cons head positions ih =>
      rcases List.mem_cons.mp hmem with rfl | hmem
      · rw [List.foldl_cons]
        exact bitGet_foldl (bitGet_bitSet_self hbit)
      · exact ih hmem

theorem bfAdd_bitset (bf : Bf) (x : Addr) : (bfAdd bit bf x).bitset =
    ((List.range 5).map (bfPos bf x)).foldl (fun data pos => bitSet bit data pos) bf.bitset := by
  rw [List.foldl_map]
  rfl

/-- **No false negatives**: an address that was added is found. -/
theorem bfIn_bfAdd_self (hbit : ∀ pos, bit pos ≠ 0#64) (bf : Bf) (x : Addr) :
    bfIn bit (bfAdd bit bf x) x = true := by
  rw [bfIn, List.all_eq_true]
  intro i hi
  rw [bfPos_bfAdd, bfAdd_bitset]
  exact bitGet_foldl_of_mem (List.mem_map_of_mem hi) (hbit _)

/-- Adding an address forgets none. -/
theorem bfIn_bfAdd {bf : Bf} {x y : Addr} (h : bfIn bit bf x = true) :
    bfIn bit (bfAdd bit bf y) x = true := by
  rw [bfIn, List.all_eq_true] at h ⊢
  intro i hi
  rw [bfPos_bfAdd, bfAdd_bitset]
  exact bitGet_foldl (h i hi)

end TransactionalMemory
