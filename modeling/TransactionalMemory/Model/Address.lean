import Mathlib.Data.Int.Basic
import Mathlib.Data.BitVec

/-!
# C integers and virtual addresses

`macros.h` packs a segment index and a byte offset into one 64-bit virtual address: the index plus
one in the top 16 bits, the offset in the low 48. Conversions to `int` wrap, as they do on every
compiler the code is built with; signed arithmetic that leaves `int` is undefined.
-/

namespace TransactionalMemory

/-- `uintptr_t`, and every `void *` of the interface. -/
abbrev Addr := BitVec 64

def toInt (n : Int) : Int := n.bmod (2 ^ 32)

def toSizeT (n : Int) : Nat := (n % 2 ^ 64).toNat

/-- The result of a signed operation, where `int` can hold it. -/
def checkedInt (n : Int) : Option Int := if -2 ^ 31 ≤ n ∧ n < 2 ^ 31 then some n else none

theorem toInt_eq_self {n : Int} (hlo : -2 ^ 31 ≤ n) (hhi : n < 2 ^ 31) : toInt n = n := by
  unfold toInt
  rw [Int.bmod_eq_of_le] <;> omega

theorem toInt_mem (n : Int) : -2 ^ 31 ≤ toInt n ∧ toInt n < 2 ^ 31 := by
  unfold toInt
  have hlo := Int.le_bmod (x := n) (m := 2 ^ 32) (by decide)
  have hhi := Int.bmod_lt (x := n) (m := 2 ^ 32) (by decide)
  omega

/-- `index_from_va`, an `unsigned long`. -/
def indexFromVa (va : Addr) : BitVec 64 := ((va >>> 48) &&& 0xFFFF#64) - 1#64

def vaFromIndex (idx : Nat) (offset : Nat) : Addr :=
  (BitVec.ofNat 64 (idx + 1) <<< 48) + BitVec.ofNat 64 offset

/-- `offset_from_va`, a `size_t`. -/
def offsetFromVa (va : Addr) : Nat := (va &&& 0xFFFFFFFFFFFF#64).toNat

theorem vaFromIndex_toNat {idx offset : Nat} (hidx : idx < 65535) (hoffset : offset < 2 ^ 48) :
    (vaFromIndex idx offset).toNat = (idx + 1) * 2 ^ 48 + offset := by
  simp only [vaFromIndex, BitVec.toNat_add, BitVec.toNat_shiftLeft, BitVec.toNat_ofNat,
    Nat.shiftLeft_eq]
  omega

theorem offsetFromVa_eq_mod (va : Addr) : offsetFromVa va = va.toNat % 2 ^ 48 := by
  rw [offsetFromVa, BitVec.toNat_and]
  exact Nat.and_two_pow_sub_one_eq_mod va.toNat 48

/-- The index field of an address, as a number. -/
theorem indexFromVa_eq (va : Addr) :
    indexFromVa va = BitVec.ofNat 64 (va.toNat / 2 ^ 48) - 1#64 := by
  rw [indexFromVa]
  congr 1
  apply BitVec.eq_of_toNat_eq
  have hlt := va.isLt
  have hmask : va.toNat / 2 ^ 48 &&& (0xFFFF#64).toNat = va.toNat / 2 ^ 48 % 2 ^ 16 :=
    Nat.and_two_pow_sub_one_eq_mod (va.toNat / 2 ^ 48) 16
  rw [BitVec.toNat_and, BitVec.toNat_ushiftRight, Nat.shiftRight_eq_div_pow, hmask,
    BitVec.toNat_ofNat]
  omega

/-- **The encoding round-trips** at every index that fits the 16-bit field. -/
theorem indexFromVa_vaFromIndex {idx offset : Nat} (hidx : idx < 65535)
    (hoffset : offset < 2 ^ 48) : (indexFromVa (vaFromIndex idx offset)).toNat = idx := by
  rw [indexFromVa_eq, vaFromIndex_toNat hidx hoffset,
    show ((idx + 1) * 2 ^ 48 + offset) / 2 ^ 48 = idx + 1 by omega, BitVec.toNat_sub]
  simp only [BitVec.toNat_ofNat]
  omega

theorem offsetFromVa_vaFromIndex {idx offset : Nat} (hidx : idx < 65535)
    (hoffset : offset < 2 ^ 48) : offsetFromVa (vaFromIndex idx offset) = offset := by
  rw [offsetFromVa_eq_mod, vaFromIndex_toNat hidx hoffset]
  omega

/-- The first index the field cannot hold wraps to the null address. -/
theorem vaFromIndex_wraps : vaFromIndex 65535 0 = 0#64 := by decide

theorem vaFromIndex_add {idx offset : Nat} :
    vaFromIndex idx 0 + BitVec.ofNat 64 offset = vaFromIndex idx offset := by
  simp [vaFromIndex]

/-- An address whose offset stays below `2 ^ 48` keeps its index, and its offset grows by what is
added. -/
theorem offsetFromVa_add {va : Addr} {n : Nat} (h : offsetFromVa va + n < 2 ^ 48) :
    offsetFromVa (va + BitVec.ofNat 64 n) = offsetFromVa va + n := by
  rw [offsetFromVa_eq_mod] at h ⊢
  rw [offsetFromVa_eq_mod, BitVec.toNat_add, BitVec.toNat_ofNat]
  have := va.isLt
  omega

theorem indexFromVa_add {va : Addr} {n : Nat} (h : offsetFromVa va + n < 2 ^ 48) :
    indexFromVa (va + BitVec.ofNat 64 n) = indexFromVa va := by
  rw [offsetFromVa_eq_mod] at h
  have hlt := va.isLt
  rw [indexFromVa_eq, indexFromVa_eq, BitVec.toNat_add, BitVec.toNat_ofNat]
  congr 2
  omega

/-- Index and offset together name the address. -/
theorem addr_eq_of_index_offset {va va' : Addr} (hindex : indexFromVa va = indexFromVa va')
    (hoffset : offsetFromVa va = offsetFromVa va') : va = va' := by
  rw [indexFromVa_eq, indexFromVa_eq] at hindex
  have hfield : BitVec.ofNat 64 (va.toNat / 2 ^ 48) = BitVec.ofNat 64 (va'.toNat / 2 ^ 48) := by
    simpa using hindex
  rw [offsetFromVa_eq_mod, offsetFromVa_eq_mod] at hoffset
  have hlt := va.isLt
  have hlt' := va'.isLt
  have hfieldNat := congrArg BitVec.toNat hfield
  simp only [BitVec.toNat_ofNat] at hfieldNat
  apply BitVec.eq_of_toNat_eq
  omega

end TransactionalMemory
