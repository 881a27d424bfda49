import TransactionalMemory.Proof.Installed
import TransactionalMemory.Proof.Ranges

/-!
# The three paths to a word

`tm_read`, `ro_transaction_read` and `tm_write` each compute the words of a range in their own mix
of `int` and `size_t`. They reach the words of the range exactly where its end is at most `2 ^ 31`
bytes into the segment and within the locks that `segment_init` counted in `int`.
-/

namespace TransactionalMemory

variable {V : Type} {tm : Tm V} {g : SegId} {addr : Addr} {size total : Nat}

/-- All paths take turn `i` of `size / align` to word `offset / align + i`. -/
structure PathsExact (tm : Tm V) (g : SegId) (addr : Addr) (size : Nat) : Prop where
  read : ∃ c, tmReadCall tm g addr size = some c ∧ c.numWords = (size / tm.align : Nat) ∧
    ∀ i < size / tm.align,
      tm.wordAt c.seg (c.startWord + i) = some ⟨g, offsetFromVa addr / tm.align + i⟩ ∧
      c.wordAt tm i = some ⟨g, offsetFromVa addr / tm.align + i⟩ ∧
      c.curr i = some (addr + BitVec.ofNat 64 (i * tm.align))
  roRead : ∃ c, roTransactionReadCall tm g addr size = some c ∧
    c.numWords = (size / tm.align : Nat) ∧ c.words = size / tm.align ∧
    ∀ i < size / tm.align,
      tm.wordAt c.seg (c.startIdx + i) = some ⟨g, offsetFromVa addr / tm.align + i⟩ ∧
      c.firstWord + i = offsetFromVa addr / tm.align + i
  write : ∀ source : List V, let c := tmWriteCall tm g source size addr
    c.numWords = (size / tm.align : Nat) ∧ ∀ i < size / tm.align,
      tm.wordAt c.seg (c.idxStart + i) = some ⟨g, offsetFromVa addr / tm.align + i⟩ ∧
      c.curr tm i = addr + BitVec.ofNat 64 (i * tm.align)

/-- The range ends within `int`, in bytes and in the words that `segment_init` counted. -/
def Tm.RangeFits (tm : Tm V) (addr : Addr) (size total : Nat) : Prop :=
  tm.align < 2 ^ 31 ∧ offsetFromVa addr + size ≤ 2 ^ 31 ∧
    ((offsetFromVa addr + size) / tm.align : Nat) ≤ toInt (total / tm.align : Nat)

/-- A power of two that `int` does not hold is narrowed to its sign bit or to zero. -/
theorem toInt_two_pow {k : Nat} (hk : 31 ≤ k) :
    toInt (2 ^ k : Nat) = -2 ^ 31 ∨ toInt (2 ^ k : Nat) = 0 := by
  rcases Nat.eq_or_lt_of_le hk with rfl | hlt
  · exact Or.inl (by decide)
  · have hdvd : (2 : Nat) ^ 32 ∣ 2 ^ k := Nat.pow_dvd_pow 2 hlt
    right
    unfold toInt
    rw [Int.bmod_def]
    omega

theorem checkedInt_natCast {n : Nat} (h : n < 2 ^ 31) : checkedInt n = some (n : Int) := by
  rw [checkedInt, if_pos ⟨by omega, by omega⟩]

/-- A multiple of a power of two below `2 ^ 31` leaves room for one more. -/
theorem mul_two_pow_lt {m k : Nat} (hk : k < 31) (h : m * 2 ^ k < 2 ^ 31) :
    (m + 1) * 2 ^ k ≤ 2 ^ 31 := by
  have hsplit : 2 ^ 31 = 2 ^ (31 - k) * 2 ^ k := by rw [← Nat.pow_add]; congr 1; omega
  rw [hsplit] at h ⊢
  exact Nat.mul_le_mul_right _ (Nat.lt_of_mul_lt_mul_right h)

theorem Tm.wordAt_iff {numWords k : Int} {n sz : Nat}
    (hseg : tm.segment g = some ⟨sz, numWords, .ready⟩) :
    tm.wordAt g k = some ⟨g, n⟩ ↔ k = n ∧ (n : Int) < numWords := by
  constructor
  · intro h
    obtain ⟨hk, hvalid, hw⟩ := Tm.wordAt_eq_some h
    obtain rfl : n = k.toNat := congrArg Word.index hw
    exact ⟨by omega, by simpa [Tm.valid, hseg] using hvalid⟩
  · rintro ⟨rfl, hlt⟩
    simp [Tm.wordAt, Tm.valid, hseg, hlt]

/-- A wider alignment leaves `tm_read` no words, or divides by zero. -/
theorem align_lt_of_words {k n : Nat} (hsize : size ≤ 2 ^ 48) (hn : 0 < n)
    (hne : toInt (2 ^ k : Nat) ≠ 0)
    (hnum : toInt (size / toSizeT (toInt (2 ^ k : Nat)) : Nat) = n) : k < 31 := by
  by_contra hge
  rcases toInt_two_pow (not_lt.mp hge) with hneg | hzero
  · have hwide : toSizeT (-2 ^ 31) = 2 ^ 64 - 2 ^ 31 := by decide
    have hzero : toInt ((0 : Nat) : Int) = 0 := by decide
    rw [hneg, hwide, Nat.div_eq_of_lt (by omega), hzero] at hnum
    omega
  · exact hne hzero

section Exact

variable {numWords : Int} (hpow : ∃ k, tm.align = 2 ^ k)
  (hcount : numWords = toInt (total / tm.align : Nat))
  (hseg : tm.segment g = some ⟨total, numWords, .ready⟩) (htotal : total ≤ 2 ^ 48)
  (hsize : 0 < size) (hdvd : tm.align ∣ size) (haligned : tm.align ∣ offsetFromVa addr)
  (hin : offsetFromVa addr + size ≤ total)
include hpow hcount hseg htotal hsize hdvd haligned hin

/-- Where the paths are exact, nothing was narrowed. -/
theorem PathsExact.fits (h : PathsExact tm g addr size) : tm.RangeFits addr size total := by
  obtain ⟨c, hcall, hnum, hwords⟩ := h.read
  obtain ⟨hne, rfl⟩ := tmReadCall_eq_some hcall
  obtain ⟨k, hk⟩ := hpow
  obtain ⟨n, hn⟩ := hdvd
  obtain ⟨first, hfirst⟩ := haligned
  have hpos : 0 < tm.align := by rw [hk]; exact Nat.two_pow_pos k
  have hdiv : size / tm.align = n := by rw [hn, Nat.mul_div_cancel_left _ hpos]
  have hfirst' : offsetFromVa addr / tm.align = first := by
    rw [hfirst, Nat.mul_div_cancel_left _ hpos]
  have hnpos : 0 < n := Nat.pos_of_ne_zero (by rintro rfl; simp at hn; omega)
  simp only [hdiv, hfirst'] at hnum hwords
  have hklt : k < 31 := align_lt_of_words (by omega) hnpos (hk ▸ hne) (hk ▸ hnum)
  have halign : tm.align < 2 ^ 31 := by rw [hk]; exact Nat.pow_lt_pow_right (by decide) hklt
  rw [toInt_natCast halign] at hwords
  obtain ⟨hlock, -, -⟩ := hwords 0 hnpos
  obtain ⟨hlast, hdata, -⟩ := hwords (n - 1) (Nat.sub_lt hnpos one_pos)
  obtain ⟨hstart, -⟩ := (Tm.wordAt_iff hseg).mp hlock
  obtain ⟨-, hbound⟩ := (Tm.wordAt_iff hseg).mp hlast
  simp only [ReadCall.wordAt] at hdata
  generalize (toInt (offsetFromVa addr)).tdiv tm.align = start at hstart hdata
  refine ⟨halign, ?_, ?_⟩
  · obtain rfl : start = first := by simpa using hstart
    have hfits : ((first : Int) + (n - 1 : Nat)) * tm.align < 2 ^ 31 := by
      by_contra hge
      rw [checkedInt, if_pos (if_neg fun hrange => hge hrange.2)] at hdata
      cases hdata
    have hlt : (first + (n - 1)) * 2 ^ k < 2 ^ 31 := by
      rw [hk] at hfits
      exact_mod_cast hfits
    have hend := mul_two_pow_lt hklt hlt
    rw [Nat.add_assoc, Nat.sub_add_cancel hnpos] at hend
    rw [hfirst, hn, ← Nat.mul_add, Nat.mul_comm, hk]
    exact hend
  · rw [← hcount, hfirst, hn, ← Nat.mul_add, Nat.mul_div_cancel_left _ hpos]
    clear hnum hdata
    omega

omit hpow htotal hin in
/-- Where the range fits, every conversion keeps its value. -/
theorem Tm.RangeFits.exact (h : tm.RangeFits addr size total) : PathsExact tm g addr size := by
  obtain ⟨halign, hend, hlocks⟩ := h
  have hcountLt : numWords < 2 ^ 31 := hcount ▸ (toInt_mem _).2
  obtain ⟨n, hn⟩ := hdvd
  obtain ⟨first, hfirst⟩ := haligned
  have hpos : 0 < tm.align := Nat.pos_of_ne_zero (by rintro hzero; simp [hn, hzero] at hsize)
  have hdiv : size / tm.align = n := by rw [hn, Nat.mul_div_cancel_left _ hpos]
  have hfirst' : offsetFromVa addr / tm.align = first := by
    rw [hfirst, Nat.mul_div_cancel_left _ hpos]
  have hnpos : 0 < n := Nat.pos_of_ne_zero (by rintro rfl; simp at hn; omega)
  rw [← hcount, hfirst, hn, ← Nat.mul_add, Nat.mul_div_cancel_left _ hpos] at hlocks
  clear hcount
  have hsmall : n < 2 ^ 31 ∧ first < 2 ^ 31 ∧ offsetFromVa addr < 2 ^ 31 := by
    push_cast at hlocks
    omega
  have hne : (tm.align : Int) ≠ 0 := by omega
  have hword : ∀ i < n, tm.wordAt g ((first : Int) + i) = some ⟨g, first + i⟩ := by
    intro i hi
    rw [Tm.wordAt_iff hseg]
    push_cast at hlocks ⊢
    exact ⟨rfl, by omega⟩
  -- the last byte of the range is the widest product that `tm_read` forms
  have hbytes : ∀ i < n, (first + i) * tm.align < 2 ^ 31 ∧ i * tm.align < 2 ^ 31 := by
    intro i hi
    have hturn : (first + i + 1) * tm.align ≤ (first + n) * tm.align :=
      Nat.mul_le_mul_right _ (by omega)
    have hle : i * tm.align ≤ (first + i) * tm.align := Nat.mul_le_mul_right _ (by omega)
    have hall : (first + n) * tm.align ≤ 2 ^ 31 := by
      rw [Nat.add_mul, Nat.mul_comm first, Nat.mul_comm n, ← hfirst, ← hn]
      exact hend
    rw [Nat.add_mul _ 1, Nat.one_mul] at hturn
    omega
  have hnum : toInt (n : Nat) = n := toInt_natCast hsmall.1
  have hstart : toInt (first : Nat) = first := toInt_natCast hsmall.2.1
  have hoffset : toInt (offsetFromVa addr) = offsetFromVa addr := toInt_natCast hsmall.2.2
  refine ⟨⟨⟨g, addr, tm.align, n, first⟩, ?_, by rw [hdiv], fun i hi => ?_⟩,
    ⟨⟨g, first, n, first, n⟩, ?_, by rw [hdiv], by rw [hdiv], fun i hi => ?_⟩,
    fun source => ⟨?_, fun i hi => ?_⟩⟩
  · have hwide : toSizeT tm.align = tm.align := toSizeT_natCast (halign.trans (by decide))
    simp only [tmReadCall, toInt_natCast halign, hwide, hdiv, hnum, hoffset, if_neg hne]
    rw [hfirst, Nat.cast_mul, Int.mul_tdiv_cancel_left _ hne]
  · rw [hdiv] at hi
    obtain ⟨hdata, hcurr⟩ := hbytes i hi
    have hproduct := checkedInt_natCast hdata
    have hoffset := checkedInt_natCast hcurr
    push_cast at hproduct hoffset
    refine ⟨by rw [hfirst']; exact hword i hi, ?_, ?_⟩
    · simp only [ReadCall.wordAt, hproduct, reduceCtorEq, if_false, hfirst']
      exact hword i hi
    · rw [ReadCall.curr, hoffset, Option.map_some, ← Nat.cast_mul, BitVec.ofInt_natCast]
  · simp [roTransactionReadCall, hdiv, hfirst', hnum, hstart, hnpos]
  · rw [hdiv] at hi
    exact ⟨by rw [hfirst']; exact hword i hi, by rw [hfirst']⟩
  · simp [tmWriteCall, hdiv, hnum]
  · rw [hdiv] at hi
    exact ⟨by simp only [tmWriteCall, hfirst', hstart]; exact hword i hi, rfl⟩

/-- **The three paths agree** exactly where the range ends within `int`. -/
theorem paths_exact : PathsExact tm g addr size ↔ tm.RangeFits addr size total :=
  ⟨fun h => h.fits hpow hcount hseg htotal hsize hdvd haligned hin,
    fun h => h.exact hcount hseg hsize hdvd haligned⟩

end Exact

def Tm.bytes (total : Nat) : Tm Nat := Tm.created true total 8

theorem paths_exact_of_words : PathsExact (Tm.bytes 32) 0 (vaFromIndex 0 8) 16 ↔
    (Tm.bytes 32).RangeFits (vaFromIndex 0 8) 16 32 :=
  paths_exact ⟨3, rfl⟩ rfl rfl (by decide) (by decide) (by decide) (by decide) (by decide)

/-- **An offset of two gigabytes** is negative to `tm_read`. -/
theorem paths_drift : ¬ ∀ (tm : Tm Nat) (g : SegId) (addr : Addr) (size total : Nat),
    (∃ k, tm.align = 2 ^ k) →
    tm.segment g = some ⟨total, toInt (total / tm.align : Nat), .ready⟩ → total ≤ 2 ^ 48 →
    0 < size → tm.align ∣ size → tm.align ∣ offsetFromVa addr → offsetFromVa addr + size ≤ total →
    PathsExact tm g addr size := by
  intro hall
  have hexact := hall (Tm.bytes (2 ^ 31 + 8)) 0 (vaFromIndex 0 (2 ^ 31)) 8 (2 ^ 31 + 8) ⟨3, rfl⟩ rfl
    (by decide) (by decide) (by decide) (by decide) (by decide)
  have hfits := hexact.fits ⟨3, rfl⟩ rfl rfl (by decide) (by decide) (by decide) (by decide)
    (by decide)
  exact absurd hfits.2.1 (by decide)

end TransactionalMemory
