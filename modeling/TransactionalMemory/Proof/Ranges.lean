import TransactionalMemory.Proof.History

/-!
# Ranges and the words their calls visit

The interface names a range by an address and a size, and the calls work on word indices that they
compute in `int`. Where the computation does not wrap, the words a call visits are the words of its
range. `tm_read` on a read-write transaction narrows the byte offset, the other two calls only word
counts, so its ranges have to end below `2 ^ 31` bytes and theirs below `2 ^ 31` words.
-/

namespace TransactionalMemory

open Concurrency

variable {V : Type} {tm : Tm V}

/-- Turn `i` of a call's loop is at word `i` of the range. -/
structure CallWords (g : SegId) (start num : Int) (words : List Word) : Prop where
  start_nonneg : 0 ≤ start
  length : num = words.length
  word : ∀ i < words.length, words[i]? = some ⟨g, (start + i).toNat⟩

theorem CallWords.wordAt {g : SegId} {start num : Int} {words : List Word}
    (h : CallWords g start num words) {i : Nat} (hi : (i : Int) < num) {w : Word}
    (hw : tm.wordAt g (start + i) = some w) : words[i]? = some w := by
  have hlength := h.length
  rw [h.word i (by omega)]
  unfold Tm.wordAt at hw
  split at hw
  · exact hw
  · cases hw

theorem CallWords.wordAt_eq {g : SegId} {start num : Int} {words : List Word}
    (h : CallWords g start num words) {i : Nat} {w : Word} (hw : words[i]? = some w)
    (hvalid : tm.valid w = true) : tm.wordAt g (start + i) = some w := by
  rw [h.word i (List.getElem?_eq_some_iff.mp hw).1] at hw
  obtain rfl := Option.some.inj hw
  have hnonneg := h.start_nonneg
  rw [Tm.wordAt, if_pos ⟨by omega, hvalid⟩]

theorem Tm.range_eq_some {addr : Addr} {size : Nat} {g : SegId} (h : tm.range addr size = some g) :
    ∃ seg, tm.vaArr (indexFromVa addr).toNat = .segment g ∧ tm.segment g = some seg ∧
      seg.state = .ready ∧ 0 < size ∧ tm.align ∣ size ∧ tm.align ∣ offsetFromVa addr ∧
      offsetFromVa addr + size ≤ seg.size := by
  unfold Tm.range at h
  split at h
  · rename_i g' hspot
    split at h
    · rename_i seg hseg
      split at h
      · rename_i hrange
        obtain rfl := Option.some.inj h
        exact ⟨seg, hspot, hseg, hrange⟩
      · cases h
    · cases h
  · cases h

theorem Tm.named_eq {addr : Addr} {size : Nat} {g : SegId} (h : tm.range addr size = some g) :
    tm.named addr size = tm.wordsOf g addr size := by
  rw [Tm.named, h]
  rfl

theorem callWords_wordsOf {g : SegId} {addr : Addr} {size : Nat} {start num : Int}
    (hstart : start = (offsetFromVa addr / tm.align : Nat)) (hnum : num = (size / tm.align : Nat)) :
    CallWords g start num (tm.wordsOf g addr size) := by
  generalize hfirst : offsetFromVa addr / tm.align = first at hstart
  refine ⟨by omega, by simp [Tm.wordsOf, hnum], fun i hi => ?_⟩
  have hi' : i < size / tm.align := by simpa [Tm.wordsOf] using hi
  have hindex : (start + i).toNat = first + i := by omega
  rw [hindex, ← hfirst]
  simp [Tm.wordsOf, hi']

/-! ### Where `int` is wide enough -/

theorem toInt_natCast {n : Nat} (h : n < 2 ^ 31) : toInt n = n :=
  toInt_eq_self (by omega) (by omega)

theorem toSizeT_natCast {n : Nat} (h : n < 2 ^ 64) : toSizeT n = n := by
  unfold toSizeT
  omega

/-- A range of a read that `tm_read` computes in `int` without wrapping. -/
def Tm.ReadFits (tm : Tm V) (source : Addr) (size : Nat) : Prop :=
  tm.align < 2 ^ 31 ∧ offsetFromVa source + size ≤ 2 ^ 31

/-- A range whose word indices `int` holds. -/
def Tm.WordsFit (tm : Tm V) (addr : Addr) (size : Nat) : Prop :=
  offsetFromVa addr / tm.align + size / tm.align < 2 ^ 31

instance (tm : Tm V) (source : Addr) (size : Nat) : Decidable (tm.ReadFits source size) :=
  inferInstanceAs (Decidable (_ ∧ _))

instance (tm : Tm V) (addr : Addr) (size : Nat) : Decidable (tm.WordsFit addr size) :=
  inferInstanceAs (Decidable (_ < _))

theorem tmReadCall_eq {source : Addr} {size : Nat} (g : SegId) (halign : 0 < tm.align)
    (hfits : tm.ReadFits source size) : ∃ c, tmReadCall tm g source size = some c := by
  obtain ⟨hsmall, -⟩ := hfits
  have hne : toInt tm.align ≠ 0 := by
    rw [toInt_natCast hsmall]
    exact_mod_cast halign.ne'
  unfold tmReadCall
  rw [if_neg hne]
  exact ⟨_, rfl⟩

theorem tmReadCall_fields {g : SegId} {source : Addr} {size : Nat} {c : ReadCall}
    (halign : 8 ∣ tm.align) (hrange : tm.range source size = some g)
    (hfits : tm.ReadFits source size) (hcall : tmReadCall tm g source size = some c) :
    c.seg = g ∧ c.source = source ∧ c.align = tm.align ∧
      c.startWord = (offsetFromVa source / tm.align : Nat) ∧
      c.numWords = (size / tm.align : Nat) := by
  obtain ⟨seg, -, -, -, hpos, hsize, -, -⟩ := Tm.range_eq_some hrange
  obtain ⟨hlt, hend⟩ := hfits
  have halign_pos : 0 < tm.align := Nat.pos_of_dvd_of_pos hsize hpos
  have height : 8 ≤ tm.align := Nat.le_of_dvd halign_pos halign
  have hdiv : size / tm.align ≤ size / 8 := Nat.div_le_div_left height (by decide)
  have halign_eq : toInt tm.align = tm.align := toInt_natCast hlt
  have hnum : toInt (size / tm.align : Nat) = (size / tm.align : Nat) := toInt_natCast (by omega)
  have hoffset : toInt (offsetFromVa source) = offsetFromVa source := toInt_natCast (by omega)
  obtain ⟨-, hc⟩ := tmReadCall_eq_some hcall
  rw [halign_eq, toSizeT_natCast (by omega), hnum, hoffset] at hc
  refine ⟨by rw [hc], by rw [hc], by rw [hc], ?_, by rw [hc]⟩
  rw [hc]
  rfl

theorem tmReadCall_words {g : SegId} {source : Addr} {size : Nat} {c : ReadCall}
    (halign : 8 ∣ tm.align) (hrange : tm.range source size = some g)
    (hfits : tm.ReadFits source size) (hcall : tmReadCall tm g source size = some c) :
    CallWords c.seg c.startWord c.numWords (tm.named source size) := by
  obtain ⟨hseg, -, -, hstart, hnum⟩ := tmReadCall_fields halign hrange hfits hcall
  rw [Tm.named_eq hrange, hseg]
  exact callWords_wordsOf hstart hnum

theorem roTransactionReadCall_words {g : SegId} {source : Addr} {size : Nat} {c : RoCall}
    (hrange : tm.range source size = some g) (hfits : tm.WordsFit source size)
    (hcall : roTransactionReadCall tm g source size = some c) :
    CallWords c.seg c.startIdx c.numWords (tm.named source size) ∧
      CallWords c.seg c.firstWord c.words (tm.named source size) := by
  obtain ⟨-, hc⟩ := roTransactionReadCall_eq_some hcall
  have hnum : toInt (size / tm.align : Nat) = (size / tm.align : Nat) :=
    toInt_natCast ((Nat.le_add_left _ _).trans_lt hfits)
  have hstart : toInt (offsetFromVa source / tm.align : Nat) =
      (offsetFromVa source / tm.align : Nat) :=
    toInt_natCast ((Nat.le_add_right _ _).trans_lt hfits)
  rw [hnum, hstart] at hc
  rw [Tm.named_eq hrange]
  have hseg : c.seg = g := by rw [hc]
  rw [hseg]
  exact ⟨callWords_wordsOf (by rw [hc]) (by rw [hc]), callWords_wordsOf (by rw [hc]) (by rw [hc])⟩

theorem tmWriteCall_words {g : SegId} {source : List V} {target : Addr} {size : Nat}
    (hrange : tm.range target size = some g) (hfits : tm.WordsFit target size) :
    CallWords g (tmWriteCall tm g source size target).idxStart
      (tmWriteCall tm g source size target).numWords (tm.named target size) := by
  rw [Tm.named_eq hrange]
  refine callWords_wordsOf ?_ ?_
  · simp only [tmWriteCall]
    exact toInt_natCast ((Nat.le_add_right _ _).trans_lt hfits)
  · simp only [tmWriteCall]
    exact toInt_natCast ((Nat.le_add_left _ _).trans_lt hfits)

/-! ### The alignment of the region -/

theorem Tm.align_after [Zero V] (tm : Tm V) (event : Event V) :
    (tm.after event).align = tm.align := by
  cases event with
  | op o =>
      cases o with
      | casLock w expected success => cases success <;> rfl
      | deleteSegment spot =>
          simp only [Tm.after, Tm.apply, Tm.deleteSegment]
          split <;> rfl
      | _ => rfl
  | _ => rfl

/-- `tm_create` wants a power of two, and `posix_memalign` has refused those below eight. -/
theorem align_pos_dvd [Zero V] {Tid : Type} [DecidableEq Tid] {platform : Platform V}
    {s : State Tid V} (h : (system Tid platform).Reachable s) :
    0 < s.tm.align ∧ 8 ∣ s.tm.align := by
  refine h.invariant (P := fun s => 0 < s.tm.align ∧ 8 ∣ s.tm.align) (fun s hs => ?_)
    fun s l s' _ ih hstep => ?_
  · obtain ⟨-, choice, size, align, -, -, -, ⟨k, hpow⟩, hcreate⟩ := hs
    obtain ⟨halign, -, htm⟩ := tmCreate_eq hcreate
    rw [htm]
    exact ⟨hpow ▸ Nat.two_pow_pos k, halign⟩
  · obtain ⟨-, htm, -⟩ := system_step_move hstep
    rw [htm, Tm.align_after]
    exact ih

end TransactionalMemory
