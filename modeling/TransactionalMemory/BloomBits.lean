import TransactionalMemory.Model.System

/-!
# The bits of the bloom filter

`bloom.c` keeps 64 bits and shifts the `int` constant `1`, which has 32. Consecutive seeds move the
position by almost 21 bits, so that among the first three positions of any address at least one is
outside of what an `int` can be shifted by.
-/

namespace TransactionalMemory

/-! ### `bf_init` -/

/-- What `bf_init` finds for every power of two that a `size_t` holds. From `2 ^ 16` on no shift of
the loop is enough, until the conversion to `int` leaves nothing of the alignment. -/
theorem bfInit_align (garbage : Nat) {k : Nat} (hk : k < 64) :
    (bfInit garbage (toInt (2 ^ k : Nat))).align =
      if k < 16 then k else if k < 31 then garbage else 0 := by
  have hfind : ∀ k < 64, ((List.range 16).find? fun i => decide (toInt (2 ^ k : Nat) ≤ 2 ^ i)) =
      if k < 16 then some k else if k < 31 then none else some 0 := by
    decide +kernel
  simp only [bfInit, hfind k hk]
  split
  · rfl
  · split <;> rfl

/-! ### Positions -/

theorem toInt_emod (n : Int) : toInt n % 64 = n % 64 := by
  have hbmod : n.bmod (2 ^ 32) % (2 ^ 32 : Nat) = n % (2 ^ 32 : Nat) := Int.bmod_emod
  unfold toInt
  generalize n.bmod (2 ^ 32) = m at hbmod ⊢
  omega

/-- Truncation to `int` keeps the low bits of the product, whatever it does to the sign. -/
theorem hash_emod (data : Addr) (align seed : Nat) : hash data align seed % (64 : Int) =
    ((((data >>> align).toNat + seed) * 1607 % 2048 / 32 : Nat) : Int) := by
  let product := (((data >>> align) + BitVec.ofNat 64 seed) * 1607#64).toNat
  have hproduct : product % 2048 = ((data >>> align).toNat + seed) * 1607 % 2048 := by
    simp only [product, BitVec.toNat_mul, BitVec.toNat_add, BitVec.toNat_ofNat]
    omega
  have hlow : product / 32 % 64 = product % 2048 / 32 :=
    (Nat.mod_mul_right_div_self product 32 64).symm
  calc hash data align seed % (64 : Int)
      = ((product / 32 : Nat) : Int) % (64 : Int) := by
        rw [hash, toInt_emod, BitVec.toNat_ushiftRight, Nat.shiftRight_eq_div_pow]
    _ = ((product / 32 % 64 : Nat) : Int) := (Int.natCast_mod _ 64).symm
    _ = ((((data >>> align).toNat + seed) * 1607 % 2048 / 32 : Nat) : Int) := by rw [hlow, hproduct]

/-- The remainder has the sign of the hash, so that the positions of negative hashes are negative
but for the multiples of 64. -/
theorem bfPos_nonneg_iff (bf : Bf) (x : Addr) (i : Nat) :
    0 ≤ bfPos bf x i ↔ 0 ≤ hash x bf.align (i * 31) ∨ (64 : Int) ∣ hash x bf.align (i * 31) := by
  have hpos : bfPos bf x i = (hash x bf.align (i * 31)).tmod 64 := rfl
  rw [hpos]
  generalize hash x bf.align (i * 31) = n
  rw [Int.dvd_iff_tmod_eq_zero]
  have hrem := Int.mul_tdiv_add_tmod n 64
  rcases le_or_gt 0 n with hn | hn
  · exact ⟨fun _ => Or.inl hn, fun _ => Int.tmod_nonneg 64 hn⟩
  · have hle : n.tmod 64 ≤ 0 := by
      have hneg := Int.tmod_nonneg 64 (Int.neg_nonneg_of_nonpos hn.le)
      rw [Int.neg_tmod] at hneg
      omega
    omega

/-- A position that an `int` can be shifted by, in terms of the address. -/
theorem mod_lt_of_bfPos {bf : Bf} {x : Addr} {i : Nat}
    (h : 0 ≤ bfPos bf x i ∧ bfPos bf x i < 32) :
    ((x >>> bf.align).toNat + i * 31) * 1607 % 2048 < 1024 := by
  have hemod := hash_emod x bf.align (i * 31)
  have hpos : bfPos bf x i = (hash x bf.align (i * 31)).tmod 64 := rfl
  rw [hpos] at h
  generalize hash x bf.align (i * 31) = n at hemod h
  generalize ((x >>> bf.align).toNat + i * 31) * 1607 % 2048 = product at hemod ⊢
  -- a non-negative remainder is that of the low bits, also where the hash is negative
  have hrem := Int.mul_tdiv_add_tmod n 64
  omega

/-- **One of three shifts leaves the `int`**, for every address and whatever `bf_init` has found. -/
theorem exists_shift_out (bf : Bf) (x : Addr) :
    ∃ i < 3, ¬ (0 ≤ bfPos bf x i ∧ bfPos bf x i < 32) := by
  by_contra hnone
  have hin : ∀ i < 3, ((x >>> bf.align).toNat * 1607 % 2048 + i * 665) % 2048 < 1024 := by
    intro i hi
    have hlt := mod_lt_of_bfPos (by_contra fun hout => hnone ⟨i, hi, hout⟩)
    have hsplit : ((x >>> bf.align).toNat + i * 31) * 1607 =
        (x >>> bf.align).toNat * 1607 + i * 665 + 2048 * (i * 24) := by omega
    rwa [hsplit, Nat.add_mul_mod_self_left, ← Nat.mod_add_mod] at hlt
  generalize (x >>> bf.align).toNat * 1607 % 2048 = first at hin
  have hfirst := hin 0 (by decide)
  have hsecond := hin 1 (by decide)
  have hthird := hin 2 (by decide)
  omega

/-! ### Masks -/

/-- gcc takes the amount of a shift modulo 32: positions that are 32 apart have one mask. -/
theorem x86_bit_add (V : Type) (pos : Int) :
    (Platform.x86 V).bit (pos + 32) = (Platform.x86 V).bit pos := by
  simp only [Platform.x86, Int.add_emod_right]

/-- The last bit of the `int` is its sign, which the conversion to 64 bits copies. -/
example : (Platform.x86 Nat).bit 31 = 0xFFFFFFFF80000000#64 := by decide

/-- A shift of the `int` constant `1` is defined for these amounts. -/
def shiftDefined (pos : Int) : Bool := decide (0 ≤ pos ∧ pos < 32)

/-- The arithmetic of `bf_init`, `bf_in` and `bf_add` on one address is what 64 bits need: the
logarithm of the alignment, positions inside the set, shifts inside their operand, and masks of one
bit each. -/
structure BitArithmetic (bit : Int → BitVec 64) (garbage align : Nat) (x : Addr) : Prop where
  align_eq : (bfInit garbage (toInt align)).align = Nat.log2 align
  position : ∀ i < 5, 0 ≤ bfPos (bfInit garbage (toInt align)) x i ∧
    bfPos (bfInit garbage (toInt align)) x i < 64
  shift : ∀ i < 5, shiftDefined (bfPos (bfInit garbage (toInt align)) x i) = true
  mask : ∀ i < 5, bit (bfPos (bfInit garbage (toInt align)) x i) =
    1#64 <<< (bfPos (bfInit garbage (toInt align)) x i).toNat

/-- **No address is hashed as meant**: whatever the alignment, one of its five shifts is by more
than the `int` has bits, or by less than nothing. -/
theorem not_bitArithmetic (bit : Int → BitVec 64) (garbage align : Nat) (x : Addr) :
    ¬ BitArithmetic bit garbage align x := by
  intro h
  obtain ⟨i, hi, hout⟩ := exists_shift_out (bfInit garbage (toInt align)) x
  exact hout (of_decide_eq_true (h.shift i (by omega)))

/-- The third position of the first word of a region with words of eight bytes is 41. -/
theorem not_bitArithmetic_first_word : (∃ tm : Tm Nat, tmCreate {} 8 8 = .next (some tm)) ∧
    bfPos (bfInit 0 (toInt 8)) (vaFromIndex 0 0) 2 = 41 ∧
    ¬ BitArithmetic (Platform.x86 Nat).bit 0 8 (vaFromIndex 0 0) := by
  have hpos : bfPos (bfInit 0 (toInt 8)) (vaFromIndex 0 0) 2 = 41 := by decide +kernel
  refine ⟨⟨_, rfl⟩, hpos, fun h => ?_⟩
  have hshift := h.shift 2 (by decide)
  rw [Nat.cast_ofNat, hpos] at hshift
  exact absurd hshift (by decide)

end TransactionalMemory
