import TransactionalMemory.BankConservation
import TransactionalMemory.Model.BankTransactions
import TransactionalMemory.Proof.TransactionRules

/-!
# The bank on the words of the reference implementation

A region lays out the records of the bank when its segments are just theirs and each holds the words
of its record. From such a region the closures, access by access, come to what the bank of records
computes in one step, and the region they leave lays out the records it leaves. The fuel of the
records bounds the loops of the words.
-/

namespace TransactionalMemory.Grading

open Concurrency
open Reference (Ptr Region BlockId transactions total_finish total_skip total_read total_alloc
  total_free)
open AccountSegment (size countAt nextAt parityAt accountAt)

/-! ### Rules for the accesses of a closure -/

section Rules

variable {L β : Type} {body : L → Code L β}
  {post : Except (TxException Fault) β → Region Cell → Prop} {r : Region Cell} {p : Ptr} {c : Cell}

def Code.Total (body : L → Code L β) (post : Except (TxException Fault) β → Region Cell → Prop)
    (code : Code L β) (r : Region Cell) : Prop :=
  (transactions (Code.request body)).Total post (.client code, r)

structure Holds (r : Region Cell) (p : Ptr) (c : Cell) : Prop where
  align : r.align = 8
  inBounds : r.inBounds p 8 = true
  word : r.word p.block (p.offset / 8) = c

theorem Holds.word_inBounds (h : Holds r p c) :
    ∀ i < 8 / r.align, r.inBounds (p.word r.align i) r.align = true := by
  intro i hi
  rw [h.align] at hi ⊢
  obtain rfl : i = 0 := by omega
  have hp : p.word 8 0 = p := by simp [Reference.Ptr.word]
  rw [hp]
  exact h.inBounds

theorem Code.total_ret {b : β} (h : post (.ok b) r) : Code.Total body post (.ret b) r :=
  total_finish rfl h

theorem Code.total_again {point : L} (h : Code.Total body post (body point) r) :
    Code.Total body post (.again point) r :=
  total_skip rfl h

theorem Code.total_readWord {next : Cell → Code L β} (hp : Holds r p c)
    (h : Code.Total body post (next c) r) : Code.Total body post (.readWord p next) r := by
  refine total_read rfl hp.word_inBounds ?_
  have hload : r.load p (8 / r.align) = [c] := by
    simp [Reference.Region.load, hp.align, hp.word]
  rw [hload]
  exact h

theorem Code.total_readNumber {next : Int → Code L β} {n : Int} (hp : Holds r p (.number n))
    (h : Code.Total body post (next n) r) : Code.Total body post (.readNumber p next) r :=
  total_readWord hp h

theorem Code.total_readCount {next : Nat → Code L β} {n : Nat} (hp : Holds r p (.number n))
    (h : Code.Total body post (next n) r) : Code.Total body post (.readCount p next) r :=
  total_readNumber hp (by simpa using h)

theorem Code.total_write {next : Code L β} {content : Cell} (hp : Holds r p c)
    (h : Code.Total body post next (r.store p [content])) :
    Code.Total body post (.write p content next) r := by
  refine Reference.total_write rfl (by simp [hp.align]) hp.word_inBounds ?_
  have htake : [content].take (8 / r.align) = [content] := by simp [hp.align]
  rw [htake]
  exact h

end Rules

/-! ### The layout -/

section Layout

def base (b : BlockId) : Ptr := ⟨b, 0⟩

def nextCell : Option BlockId → Cell
  | none => .number 0
  | some b => .pointer (base b)

/-- The words of one record. The slots from `count` on are there as well. -/
structure HoldsSegment (nbaccounts : Nat) (word : Nat → Cell) (segment : AccountSegment BlockId) :
    Prop where
  count : word 0 = .number segment.count
  next : word 1 = nextCell segment.next
  parity : word 2 = .number segment.parity
  accounts : ∀ i < nbaccounts, word (3 + i) = .number (segment.accounts i)
  fits : segment.count ≤ nbaccounts

structure Lays (bank : WorkloadBank BlockId) (r : Region Cell) (m : BankMemory BlockId) : Prop where
  align : r.align = 8
  segment : ∀ b segment, m b = some segment → HoldsSegment bank.nbaccounts (r.word b) segment
  /-- Nothing else is allocated. -/
  live : ∀ b, r.segment b = (m b).map fun _ => size bank.nbaccounts
  allocs : ∀ b, b ∈ r.allocs ↔ b ≠ bank.start ∧ m b ≠ none
  nodup : r.allocs.Nodup
  fresh : ∀ b, r.blockCount ≤ b → m b = none
  start : m bank.start ≠ none
  /-- The first segment is not the next one of another. -/
  first : ∀ b segment, m b = some segment → segment.next ≠ some bank.start

variable {nbaccounts : Nat} {word : Nat → Cell} {segment : AccountSegment BlockId}

theorem HoldsSegment.putCount {n : Nat} (h : HoldsSegment nbaccounts word segment)
    (hn : n ≤ nbaccounts) :
    HoldsSegment nbaccounts (Function.update word 0 (.number n)) { segment with count := n } where
  count := Function.update_self ..
  next := h.next
  parity := h.parity
  accounts i hi := by
    rw [Function.update_of_ne (by omega)]
    exact h.accounts i hi
  fits := hn

theorem HoldsSegment.putNext {next : Option BlockId} (h : HoldsSegment nbaccounts word segment) :
    HoldsSegment nbaccounts (Function.update word 1 (nextCell next))
      { segment with next := next } where
  count := h.count
  next := Function.update_self ..
  parity := h.parity
  accounts i hi := by
    rw [Function.update_of_ne (by omega)]
    exact h.accounts i hi
  fits := h.fits

theorem HoldsSegment.putParity {parity : Int} (h : HoldsSegment nbaccounts word segment) :
    HoldsSegment nbaccounts (Function.update word 2 (.number parity))
      { segment with parity := parity } where
  count := h.count
  next := h.next
  parity := Function.update_self ..
  accounts i hi := by
    rw [Function.update_of_ne (by omega)]
    exact h.accounts i hi
  fits := h.fits

theorem HoldsSegment.putAccount {i : Nat} {balance : Int}
    (h : HoldsSegment nbaccounts word segment) :
    HoldsSegment nbaccounts (Function.update word (3 + i) (.number balance))
      { segment with accounts := Function.update segment.accounts i balance } where
  count := by
    rw [Function.update_of_ne (by omega)]
    exact h.count
  next := by
    rw [Function.update_of_ne (by omega)]
    exact h.next
  parity := by
    rw [Function.update_of_ne (by omega)]
    exact h.parity
  accounts j hj := by
    by_cases hji : j = i
    · subst hji
      simp only [Function.update_self]
    · rw [Function.update_of_ne (by omega), h.accounts j hj]
      exact congrArg Cell.number (Function.update_of_ne hji ..).symm
  fits := h.fits

variable {bank : WorkloadBank BlockId} {r : Region Cell} {m : BankMemory BlockId} {b : BlockId}
  {k : Nat} {c : Cell}

theorem Lays.inBounds (h : Lays bank r m) (hm : m b = some segment)
    (hk : k < 3 + bank.nbaccounts) : r.inBounds ⟨b, k * 8⟩ 8 = true := by
  rw [Reference.Region.inBounds, h.live b, hm]
  simp only [Option.map_some, Option.any_some, decide_eq_true_eq, size]
  omega

theorem Lays.holds (h : Lays bank r m) (hm : m b = some segment) (hk : k < 3 + bank.nbaccounts)
    (hc : r.word b k = c) : Holds r ⟨b, k * 8⟩ c where
  align := h.align
  inBounds := h.inBounds hm hk
  word := by simpa using hc

theorem Lays.count (h : Lays bank r m) (hm : m b = some segment) :
    Holds r (countAt (base b)) (.number segment.count) :=
  h.holds (k := 0) hm (by omega) (h.segment b segment hm).count

theorem Lays.next (h : Lays bank r m) (hm : m b = some segment) :
    Holds r (nextAt (base b)) (nextCell segment.next) :=
  h.holds (k := 1) hm (by omega) (h.segment b segment hm).next

theorem Lays.parity (h : Lays bank r m) (hm : m b = some segment) :
    Holds r (parityAt (base b)) (.number segment.parity) :=
  h.holds (k := 2) hm (by omega) (h.segment b segment hm).parity

theorem accountAt_base (b : BlockId) (i : Nat) : accountAt (base b) i = ⟨b, (3 + i) * 8⟩ := by
  simp only [accountAt, base, Reference.Ptr.mk.injEq, true_and]
  omega

theorem Lays.account {i : Nat} (h : Lays bank r m) (hm : m b = some segment)
    (hi : i < bank.nbaccounts) : Holds r (accountAt (base b) i) (.number (segment.accounts i)) := by
  rw [accountAt_base]
  exact h.holds hm (by omega) ((h.segment b segment hm).accounts i hi)

theorem Region.store_single (halign : r.align = 8) (b : BlockId) (k : Nat) :
    r.store ⟨b, k * 8⟩ [c] =
      { r with word := Function.update r.word b (Function.update (r.word b) k c) } := by
  have hword : (r.store ⟨b, k * 8⟩ [c]).word =
      Function.update r.word b (Function.update (r.word b) k c) := by
    funext b' k'
    have hstore := Reference.Region.store_word (r := r) (p := ⟨b, k * 8⟩) (i := 0) (v := c)
      (by omega) b' k'
    have hp : (⟨b, k * 8⟩ : Ptr).word r.align 0 = ⟨b, k * 8⟩ := by simp [Reference.Ptr.word]
    rw [hp] at hstore
    rw [hstore]
    by_cases hb : b' = b
    · subst hb
      by_cases hk : k' = k <;> simp [halign, hk]
    · simp [hb]
  simp only [Reference.Region.store] at hword ⊢
  rw [hword]

/-- Where the region lays out the records, so does the region after the write of a word. -/
theorem Lays.write {segment' : AccountSegment BlockId} (h : Lays bank r m) (hm : m b = some segment)
    (hsegment : HoldsSegment bank.nbaccounts (Function.update (r.word b) k c) segment')
    (hnext : segment'.next ≠ some bank.start) :
    Lays bank (r.store ⟨b, k * 8⟩ [c]) (Function.update m b (some segment')) := by
  have hnone : ∀ b', Function.update m b (some segment') b' = none ↔ m b' = none := by
    intro b'
    by_cases hb : b' = b
    · subst hb
      simp [hm]
    · rw [Function.update_of_ne hb]
  have hsome : ∀ b' s, Function.update m b (some segment') b' = some s →
      b' = b ∧ s = segment' ∨ b' ≠ b ∧ m b' = some s := by
    intro b' s hs
    by_cases hb : b' = b
    · subst hb
      rw [Function.update_self] at hs
      exact .inl ⟨rfl, (Option.some.inj hs).symm⟩
    · exact .inr ⟨hb, by rwa [Function.update_of_ne hb] at hs⟩
  rw [Region.store_single h.align]
  refine ⟨h.align, fun b' s hs => ?_, fun b' => ?_, fun b' => ?_, h.nodup, fun b' hb' => ?_,
    mt (hnone _).mp h.start, fun b' s hs => ?_⟩
  · rcases hsome b' s hs with ⟨rfl, rfl⟩ | ⟨hb, hs⟩
    · simpa only [Function.update_self] using hsegment
    · simpa only [Function.update_of_ne hb] using h.segment b' s hs
  · by_cases hb : b' = b
    · subst hb
      simpa [hm] using h.live b'
    · simpa only [Function.update_of_ne hb] using h.live b'
  · exact (h.allocs b').trans (and_congr_right fun _ => not_congr (hnone b').symm)
  · exact (hnone b').mpr (h.fresh b' hb')
  · rcases hsome b' s hs with ⟨-, rfl⟩ | ⟨-, hs⟩
    · exact hnext
    · exact h.first b' s hs

theorem Lays.writeCount {n : Nat} (h : Lays bank r m) (hm : m b = some segment)
    (hn : n ≤ bank.nbaccounts) : Lays bank (r.store (countAt (base b)) [.number n])
      (Function.update m b (some { segment with count := n })) :=
  h.write (k := 0) hm ((h.segment b segment hm).putCount hn) (h.first b segment hm)

theorem Lays.writeNext (h : Lays bank r m) (next : Option BlockId) (hm : m b = some segment)
    (hnext : next ≠ some bank.start) : Lays bank (r.store (nextAt (base b)) [nextCell next])
      (Function.update m b (some { segment with next := next })) :=
  h.write (k := 1) hm (h.segment b segment hm).putNext hnext

theorem Lays.writeParity (h : Lays bank r m) (parity : Int) (hm : m b = some segment) :
    Lays bank (r.store (parityAt (base b)) [.number parity])
      (Function.update m b (some { segment with parity := parity })) :=
  h.write (k := 2) hm (h.segment b segment hm).putParity (h.first b segment hm)

theorem Lays.writeAccount (h : Lays bank r m) (i : Nat) (balance : Int)
    (hm : m b = some segment) :
    Lays bank (r.store (accountAt (base b) i) [.number balance]) (Function.update m b
      (some { segment with accounts := Function.update segment.accounts i balance })) := by
  rw [accountAt_base]
  exact h.write hm (h.segment b segment hm).putAccount (h.first b segment hm)

/-- A new segment is the record of zeros. -/
theorem Lays.alloc (h : Lays bank r m) :
    Lays bank (r.withSegment (size bank.nbaccounts))
      (Function.update m r.blockCount (some .zeroed)) := by
  have hfresh := h.fresh r.blockCount le_rfl
  have hne : bank.start ≠ r.blockCount := fun heq => h.start (heq ▸ hfresh)
  refine ⟨h.align, fun b s hs => ?_, fun b => ?_, fun b => ?_, ?_, fun b hb => ?_, ?_,
    fun b s hs => ?_⟩
  · by_cases hb : b = r.blockCount
    · subst hb
      rw [Function.update_self] at hs
      obtain rfl := Option.some.inj hs
      simp only [Reference.Region.withSegment, Function.update_self]
      exact ⟨rfl, rfl, rfl, fun _ _ => rfl, Nat.zero_le _⟩
    · rw [Function.update_of_ne hb] at hs
      simpa only [Reference.Region.withSegment, Function.update_of_ne hb] using h.segment b s hs
  · by_cases hb : b = r.blockCount
    · subst hb
      simp [Reference.Region.withSegment]
    · simpa only [Reference.Region.withSegment, Function.update_of_ne hb] using h.live b
  · by_cases hb : b = r.blockCount
    · subst hb
      simp [Reference.Region.withSegment, hne.symm]
    · simpa [Reference.Region.withSegment, hb] using h.allocs b
  · refine List.nodup_cons.mpr ⟨fun hmem => ?_, h.nodup⟩
    exact ((h.allocs _).mp hmem).2 hfresh
  · have hlt : r.blockCount < b := hb
    rw [Function.update_of_ne hlt.ne']
    exact h.fresh b hlt.le
  · rw [Function.update_of_ne hne]
    exact h.start
  · by_cases hb : b = r.blockCount
    · subst hb
      rw [Function.update_self] at hs
      obtain rfl := Option.some.inj hs
      rintro ⟨⟩
    · rw [Function.update_of_ne hb] at hs
      exact h.first b s hs

theorem Lays.free (h : Lays bank r m) (hb : b ≠ bank.start) :
    Lays bank (r.withoutSegment b) (Function.update m b none) := by
  have hsome : ∀ b' s, Function.update m b none b' = some s → b' ≠ b ∧ m b' = some s := by
    intro b' s hs
    by_cases hb' : b' = b
    · subst hb'
      rw [Function.update_self] at hs
      cases hs
    · exact ⟨hb', by rwa [Function.update_of_ne hb'] at hs⟩
  refine ⟨h.align, fun b' s hs => ?_, fun b' => ?_, fun b' => ?_, ?_, fun b' hb' => ?_, ?_,
    fun b' s hs => h.first b' s (hsome b' s hs).2⟩
  · exact h.segment b' s (hsome b' s hs).2
  · by_cases hb' : b' = b
    · subst hb'
      simp [Reference.Region.withoutSegment]
    · simpa only [Reference.Region.withoutSegment, Function.update_of_ne hb'] using h.live b'
  · rw [Reference.Region.withoutSegment, h.nodup.mem_erase_iff, h.allocs b']
    by_cases hb' : b' = b
    · subst hb'
      simp
    · simp [hb']
  · exact h.nodup.erase b
  · by_cases hbb : b' = b
    · rw [hbb, Function.update_self]
    · rw [Function.update_of_ne hbb]
      exact h.fresh b' hb'
  · rw [Function.update_of_ne hb.symm]
    exact h.start

end Layout

/-! ### `short_tx` -/

section Refinement

variable {bank : WorkloadBank BlockId} {r : Region Cell} {m m' : BankMemory BlockId} {b : BlockId}
  {segment : AccountSegment BlockId}
  {post : Except (TxException Fault) BankResult → Region Cell → Prop}

theorem Code.total_readPointer {L β : Type} {body : L → Code L β}
    {post : Except (TxException Fault) β → Region Cell → Prop} {p : Ptr}
    {next : Option Ptr → Code L β} {b : Option BlockId} (hp : Holds r p (nextCell b))
    (h : Code.Total body post (next (b.map base)) r) :
    Code.Total body post (.readPointer p next) r := by
  cases b with
  | none => exact total_readWord hp h
  | some b => exact total_readWord hp h

theorem read_eq_ok (h : m.read b = .ok segment) : m b = some segment := by
  unfold BankMemory.read at h
  split at h
  · rename_i s hs
    rw [hs, Except.ok.inj h]
  · cases h

theorem writeAccount_of {i : Nat} {balance : Int} (hm : m b = some segment) :
    m.writeAccount (b, i) balance = .ok (Function.update m b
      (some { segment with accounts := Function.update segment.accounts i balance })) := by
  rw [BankMemory.writeAccount, BankMemory.read_of hm]
  exact BankMemory.write_of hm

def accountPtr (account : BlockId × Nat) : Ptr := accountAt (base account.1) account.2

theorem findPtr_eq (b : BlockId) (count : Nat) (ptr : Option (BlockId × Nat)) (id : Nat) :
    WorkloadBank.findPtr (base b) count (ptr.map accountPtr) id =
      ((WorkloadBank.findAccount b count ptr id).1.map accountPtr,
        (WorkloadBank.findAccount b count ptr id).2) := by
  cases ptr with
  | some ptr => rfl
  | none =>
      simp only [WorkloadBank.findPtr, WorkloadBank.findAccount, Option.map_none]
      split <;> rfl

def Inside (bank : WorkloadBank BlockId) (ptr : Option (BlockId × Nat)) : Prop :=
  ∀ account, ptr = some account → account.2 < bank.nbaccounts

theorem Inside.find {ptr : Option (BlockId × Nat)} {count : Nat} (h : Inside bank ptr)
    (hcount : count ≤ bank.nbaccounts) (b : BlockId) (id : Nat) :
    Inside bank (WorkloadBank.findAccount b count ptr id).1 := by
  intro account haccount
  cases ptr with
  | some ptr => exact h account haccount
  | none =>
      simp only [WorkloadBank.findAccount] at haccount
      split at haccount
      · obtain rfl := Option.some.inj haccount
        simp only
        omega
      · cases haccount

theorem shortSegment_total {fuel sendId recvId : Nat} {sendPtr recvPtr : Option (BlockId × Nat)}
    {found : Option ((BlockId × Nat) × (BlockId × Nat))} (h : Lays bank r m)
    (hsend : Inside bank sendPtr) (hrecv : Inside bank recvPtr)
    (hrun : WorkloadBank.shortLoop m fuel sendPtr recvPtr sendId recvId b = .ok found)
    (hnone : found = none → post (.ok (.flag false)) r)
    (hsome : ∀ sender recver, found = some (sender, recver) → sender.2 < bank.nbaccounts →
      recver.2 < bank.nbaccounts → Code.Total bank.body post
        (WorkloadBank.transferCode (accountPtr sender) (accountPtr recver)) r) :
    Code.Total bank.body post (WorkloadBank.shortSegment (sendPtr.map accountPtr)
      (recvPtr.map accountPtr) sendId recvId (base b)) r := by
  induction fuel generalizing sendPtr recvPtr sendId recvId b with
  | zero => cases hrun
  | succ fuel ih =>
      rw [WorkloadBank.shortLoop] at hrun
      cases hread : m.read b with
      | error e =>
          rw [hread] at hrun
          cases hrun
      | ok segment =>
          have hm := read_eq_ok hread
          have hfits := (h.segment b segment hm).fits
          have hsend' := hsend.find hfits b sendId
          have hrecv' := hrecv.find hfits b recvId
          rw [hread] at hrun
          simp only [bind, Except.bind] at hrun
          refine Code.total_readCount (h.count hm) ?_
          simp only [findPtr_eq]
          generalize WorkloadBank.findAccount b segment.count sendPtr sendId = send at *
          generalize WorkloadBank.findAccount b segment.count recvPtr recvId = recv at *
          obtain ⟨sendPtr', sendId'⟩ := send
          obtain ⟨recvPtr', recvId'⟩ := recv
          have hend : (sendPtr' = none ∨ recvPtr' = none) → segment.next = none → found = none := by
            rintro (rfl | rfl) hnext <;> rw [hnext] at hrun
            · exact (Except.ok.inj hrun).symm
            · cases sendPtr' <;> exact (Except.ok.inj hrun).symm
          have hrest : ∀ next, (sendPtr' = none ∨ recvPtr' = none) → segment.next = some next →
              WorkloadBank.shortLoop m fuel sendPtr' recvPtr' sendId' recvId' next = .ok found := by
            rintro next (rfl | rfl) hnext <;> rw [hnext] at hrun
            · exact hrun
            · cases sendPtr' <;> exact hrun
          -- the loop goes on, whichever of the two is missing
          have hnext : ∀ goOn : Option Ptr → BankCode, goOn none = .ret (.flag false) →
              (∀ next, goOn (some next) = .again (.shortSegment (sendPtr'.map accountPtr)
                (recvPtr'.map accountPtr) sendId' recvId' next)) →
              (sendPtr' = none ∨ recvPtr' = none) →
              Code.Total bank.body post (.readPointer (nextAt (base b)) goOn) r := by
            intro goOn hlast hmore hmissing
            refine Code.total_readPointer (h.next hm) ?_
            cases hnext : segment.next with
            | none =>
                rw [Option.map_none, hlast]
                exact Code.total_ret (hnone (hend hmissing hnext))
            | some next =>
                rw [Option.map_some, hmore]
                exact Code.total_again (ih hsend' hrecv' (hrest next hmissing hnext))
          cases sendPtr' with
          | none => exact hnext _ rfl (fun _ => rfl) (.inl rfl)
          | some sender =>
              cases recvPtr' with
              | none => exact hnext _ rfl (fun _ => rfl) (.inr rfl)
              | some recver =>
                  exact hsome sender recver (Except.ok.inj hrun).symm (hsend' sender rfl)
                    (hrecv' recver rfl)

theorem transfer_total {sender recver : BlockId × Nat} (h : Lays bank r m)
    (hsender : sender.2 < bank.nbaccounts) (hrecver : recver.2 < bank.nbaccounts)
    (hrun : WorkloadBank.transfer m sender recver = .ok m')
    (hpost : ∀ r', Lays bank r' m' → post (.ok (.flag true)) r') :
    Code.Total bank.body post
      (WorkloadBank.transferCode (accountPtr sender) (accountPtr recver)) r := by
  rw [WorkloadBank.transfer] at hrun
  cases hread : m.read sender.1 with
  | error e =>
      rw [hread] at hrun
      cases hrun
  | ok segment =>
      have hm := read_eq_ok hread
      rw [hread] at hrun
      refine Code.total_readNumber (h.account hm hsender) ?_
      simp only [bind, Except.bind] at hrun
      by_cases hfunds : segment.accounts sender.2 > 0
      · rw [if_pos hfunds] at hrun ⊢
        rw [writeAccount_of hm] at hrun
        refine Code.total_write (h.account hm hsender) ?_
        have h' := h.writeAccount sender.2 (segment.accounts sender.2 - 1) hm
        cases hread' : BankMemory.read (Function.update m sender.1 (some { segment with
            accounts := Function.update segment.accounts sender.2
              (segment.accounts sender.2 - 1) }))
            recver.1 with
        | error e =>
            simp only [hread'] at hrun
            cases hrun
        | ok segment' =>
            have hm' := read_eq_ok hread'
            simp only [hread', writeAccount_of hm'] at hrun
            obtain rfl := Except.ok.inj hrun
            refine Code.total_readNumber (h'.account hm' hrecver) ?_
            refine Code.total_write (h'.account hm' hrecver) (Code.total_ret (hpost _ ?_))
            exact h'.writeAccount _ _ hm'
      · rw [if_neg hfunds] at hrun ⊢
        obtain rfl := Except.ok.inj hrun
        exact Code.total_ret (hpost r h)

theorem shortCode_total {fuel sendId recvId : Nat} {done : Bool} (h : Lays bank r m)
    (hrun : bank.shortTx m sendId recvId fuel = .ok (m', done))
    (hpost : ∀ r', Lays bank r' m' → post (.ok (.flag done)) r') :
    Code.Total bank.body post (bank.shortCode sendId recvId) r := by
  rw [WorkloadBank.shortTx] at hrun
  have hinside : Inside bank none := by rintro account ⟨⟩
  refine Code.total_again ?_
  cases hloop : WorkloadBank.shortLoop m fuel none none sendId recvId bank.start with
  | error e =>
      rw [hloop] at hrun
      cases hrun
  | ok found =>
      rw [hloop] at hrun
      refine shortSegment_total h hinside hinside hloop (fun hfound => ?_) ?_
      · subst hfound
        cases hrun
        exact hpost r h
      · rintro sender recver rfl hsender hrecver
        simp only [bind, Except.bind] at hrun
        cases htransfer : WorkloadBank.transfer m sender recver with
        | error e =>
            rw [htransfer] at hrun
            cases hrun
        | ok m'' =>
            rw [htransfer] at hrun
            cases hrun
            exact transfer_total h hsender hrecver htransfer hpost

/-! ### `long_tx` -/

theorem longAccounts_total {count : Nat} (h : Lays bank r m) (hm : m b = some segment) (k : Nat) :
    ∀ i sum, i + k = segment.count →
      ((List.range' i k).foldlM (fun sum i => if segment.accounts i < 0 then none
        else some (sum + segment.accounts i)) sum = none → post (.ok (.long false none)) r) →
      (∀ sum', (List.range' i k).foldlM (fun sum i => if segment.accounts i < 0 then none
        else some (sum + segment.accounts i)) sum = some sum' →
          Code.Total bank.body post (bank.longSegment (segment.next.map base) count sum') r) →
      Code.Total bank.body post
        (WorkloadBank.longAccounts (base b) segment.count i count sum) r := by
  induction k with
  | zero =>
      intro i sum hi _ hsome
      rw [WorkloadBank.longAccounts, if_neg (by omega)]
      exact Code.total_readPointer (h.next hm) (Code.total_again (hsome sum rfl))
  | succ k ih =>
      intro i sum hi hnone hsome
      have hfits := (h.segment b segment hm).fits
      rw [WorkloadBank.longAccounts, if_pos (by omega)]
      refine Code.total_readNumber (h.account hm (by omega)) ?_
      rw [List.range'_succ, List.foldlM_cons] at hnone hsome
      by_cases hneg : segment.accounts i < 0
      · rw [if_pos hneg] at hnone ⊢
        exact Code.total_ret (hnone rfl)
      · rw [if_neg hneg] at hnone hsome ⊢
        exact Code.total_again (ih (i + 1) _ (by omega) hnone hsome)

theorem longSegment_total {fuel count : Nat} {sum : Int} {start : Option BlockId}
    {found : Option (Nat × Int)} (h : Lays bank r m)
    (hrun : WorkloadBank.longLoop m fuel count sum start = .ok found)
    (hnone : found = none → post (.ok (.long false none)) r)
    (hsome : ∀ count sum, found = some (count, sum) →
      post (.ok (.long (sum = bank.initBalance * count) (some count))) r) :
    Code.Total bank.body post (bank.longSegment (start.map base) count sum) r := by
  induction fuel generalizing count sum start with
  | zero =>
      cases start with
      | none => exact Code.total_ret (hsome _ _ (Except.ok.inj hrun).symm)
      | some b => cases hrun
  | succ fuel ih =>
      cases start with
      | none => exact Code.total_ret (hsome _ _ (Except.ok.inj hrun).symm)
      | some b =>
          rw [WorkloadBank.longLoop] at hrun
          cases hread : m.read b with
          | error e =>
              rw [hread] at hrun
              cases hrun
          | ok segment =>
              have hm := read_eq_ok hread
              rw [hread] at hrun
              simp only [bind, Except.bind, WorkloadBank.sumAccounts, List.range_eq_range'] at hrun
              rw [Option.map_some, WorkloadBank.longSegment]
              refine Code.total_readCount (h.count hm) ?_
              refine Code.total_readNumber (h.parity hm) ?_
              refine Code.total_again ?_
              refine longAccounts_total h hm segment.count 0 _ (Nat.zero_add _) (fun hneg => ?_)
                fun sum' hsum => ih ?_
              · rw [hneg] at hrun
                exact hnone (Except.ok.inj hrun).symm
              · rw [hsum] at hrun
                exact hrun

theorem longCode_total {fuel nbaccounts count : Nat} {consistent : Bool} (h : Lays bank r m)
    (hrun : bank.longTx m fuel nbaccounts = .ok (consistent, count))
    (hpost : ∀ updated : Option Nat, updated.getD nbaccounts = count →
      post (.ok (.long consistent updated)) r) :
    Code.Total bank.body post bank.longCode r := by
  rw [WorkloadBank.longTx] at hrun
  refine Code.total_again ?_
  cases hloop : WorkloadBank.longLoop m fuel 0 0 (some bank.start) with
  | error e =>
      rw [hloop] at hrun
      cases hrun
  | ok found =>
      rw [hloop] at hrun
      refine longSegment_total h hloop (fun hfound => ?_) fun count' sum hfound => ?_
      · subst hfound
        cases hrun
        exact hpost none rfl
      · subst hfound
        cases hrun
        exact hpost (some count) rfl

/-! ### `alloc_tx` -/

/-- The record before the last one leads to it. -/
def Precedes (m : BankMemory BlockId) (prev : Option BlockId) (b : BlockId) : Prop :=
  ∀ p, prev = some p → ∃ before, m p = some before ∧ before.next = some b

theorem freeNext_eq_ok {before : AccountSegment BlockId} {p : BlockId} (hm : m p = some before)
    (hnext : before.next = some b) (h : m.freeNext p = .ok m') :
    p ≠ b ∧ m' = Function.update (Function.update m b none) p
      (some { before with next := none }) := by
  simp only [BankMemory.freeNext, hm, hnext, BankMemory.write] at h
  by_cases hp : p = b
  · subst hp
    rw [Function.update_self] at h
    cases h
  · rw [Function.update_of_ne hp, hm] at h
    exact ⟨hp, (Except.ok.inj h).symm⟩

theorem Lays.ne_start (h : Lays bank r m) {prev : BlockId}
    (hprev : Precedes m (some prev) b) : b ≠ bank.start := by
  obtain ⟨before, hm, hnext⟩ := hprev prev rfl
  exact fun hb => h.first prev before hm (hb ▸ hnext)

theorem deleteAccount_total {trigger count : Nat} {prev : Option BlockId} (h : Lays bank r m)
    (hm : m b = some segment) (hprev : Precedes m prev b) (htrigger : count > trigger ∧ count > 2)
    (hrun : bank.allocLast m trigger r.blockCount count prev b segment = .ok m')
    (hpost : ∀ r', Lays bank r' m' → post (.ok .done) r') :
    Code.Total bank.body post
      (bank.deleteAccount (prev.map base) (base b) segment.count) r := by
  have hfits := (h.segment b segment hm).fits
  simp only [WorkloadBank.allocLast, if_pos htrigger] at hrun
  cases hcount : segment.count with
  | zero =>
      rw [hcount] at hrun
      cases hrun
  | succ k =>
      rw [hcount] at hrun
      simp only at hrun
      refine Code.total_readNumber (h.parity hm) ?_
      refine Code.total_readNumber (h.account hm (by omega)) ?_
      by_cases hk : k > 0
      · rw [if_pos hk, BankMemory.write_of hm] at hrun
        obtain rfl := Except.ok.inj hrun
        have h' := h.writeCount hm (n := k) (by omega)
        have hm' : Function.update m b (some { segment with count := k }) b = _ :=
          Function.update_self ..
        rw [if_pos hk]
        refine Code.total_write (h.count hm) (Code.total_write (h'.parity hm') (Code.total_ret ?_))
        have h'' := h'.writeParity (segment.parity + segment.accounts k - bank.initBalance) hm'
        rw [Function.update_idem] at h''
        exact hpost _ h''
      · rw [if_neg hk] at hrun ⊢
        cases prev with
        | none => cases hrun
        | some prev =>
            obtain ⟨before, hbefore, hnext⟩ := hprev prev rfl
            simp only [bind, Except.bind] at hrun
            cases hfree : m.freeNext prev with
            | error e =>
                rw [hfree] at hrun
                cases hrun
            | ok m₁ =>
                obtain ⟨hne, rfl⟩ := freeNext_eq_ok hbefore hnext hfree
                have hstart := h.ne_start hprev
                have h₁ := h.free hstart
                have hm₁ : Function.update m b none prev = some before := by
                  rw [Function.update_of_ne hne, hbefore]
                have h₂ := h₁.writeNext none hm₁ (by simp)
                have hm₂ : Function.update (Function.update m b none) prev
                    (some { before with next := none }) prev = _ := Function.update_self ..
                rw [hfree] at hrun
                simp only [BankMemory.read_of hm₂, BankMemory.write_of hm₂] at hrun
                obtain rfl := Except.ok.inj hrun
                refine Code.total_readPointer (hnext ▸ h.next hbefore) ?_
                refine Reference.total_free rfl ⟨rfl, ?_⟩ ?_
                · exact (h.allocs b).mpr ⟨hstart, by simp [hm]⟩
                · refine Code.total_write (h₁.next hm₁) ?_
                  refine Code.total_readNumber (h₂.parity hm₂) ?_
                  refine Code.total_write (h₂.parity hm₂) (Code.total_ret (hpost _ ?_))
                  exact h₂.writeParity _ hm₂

theorem addAccount_total {trigger count : Nat} {prev : Option BlockId} (hnb : 1 ≤ bank.nbaccounts)
    (h : Lays bank r m) (hm : m b = some segment) (hnext : segment.next = none)
    (htrigger : ¬ (count > trigger ∧ count > 2))
    (hrun : bank.allocLast m trigger r.blockCount count prev b segment = .ok m')
    (hpost : ∀ r', Lays bank r' m' → post (.ok .done) r')
    (hnomem : post (.error .alloc) r) :
    Code.Total bank.body post (bank.addAccount (base b) segment.count) r := by
  simp only [WorkloadBank.allocLast, if_neg htrigger] at hrun
  by_cases hroom : segment.count < bank.nbaccounts
  · rw [if_pos hroom, BankMemory.write_of hm] at hrun
    obtain rfl := Except.ok.inj hrun
    have h' := h.writeAccount segment.count bank.initBalance hm
    have hm' : Function.update m b (some { segment with
      accounts := Function.update segment.accounts segment.count bank.initBalance }) b = _ :=
        Function.update_self ..
    rw [WorkloadBank.addAccount, if_pos hroom]
    refine Code.total_write (h.account hm hroom) ?_
    refine Code.total_write (h'.count hm') (Code.total_ret ?_)
    have h'' := h'.writeCount (n := segment.count + 1) hm' hroom
    rw [Function.update_idem] at h''
    exact hpost _ h''
  · have hfresh := h.fresh r.blockCount le_rfl
    have hlast := @allocLast_new _ _ _ _ _ _ _ trigger _ prev htrigger hroom hm hnext hfresh
    simp only [WorkloadBank.allocLast, if_neg htrigger, if_neg hroom] at hrun hlast
    obtain rfl := Except.ok.inj (hrun.symm.trans hlast)
    have hne : b ≠ r.blockCount := by
      rintro rfl
      rw [hm] at hfresh
      cases hfresh
    have h₁ := h.alloc
    have hm₁ : Function.update m r.blockCount (some .zeroed) b = some segment := by
      rw [Function.update_of_ne hne, hm]
    have hstart : r.blockCount ≠ bank.start := fun heq => h.start (heq ▸ hfresh)
    have h₂ := h₁.writeNext (some r.blockCount) hm₁ (by simpa using hstart)
    have hm₂ : Function.update (Function.update m r.blockCount (some .zeroed)) b
        (some { segment with next := some r.blockCount }) r.blockCount = some .zeroed := by
      rw [Function.update_of_ne hne.symm, Function.update_self]
    have h₃ := h₂.writeCount (n := 1) hm₂ hnb
    rw [WorkloadBank.addAccount, if_neg hroom]
    refine Reference.total_alloc rfl ?_ (total_finish rfl hnomem)
    refine Code.total_write (h₁.next hm₁) ?_
    refine Code.total_write (h₂.count hm₂) ?_
    have hm₃ := Function.update_self r.blockCount
      (some { (AccountSegment.zeroed : AccountSegment BlockId) with count := 1 })
      (Function.update (Function.update m r.blockCount (some .zeroed)) b
        (some { segment with next := some r.blockCount }))
    refine Code.total_write (h₃.account hm₃ (i := 0) hnb) (Code.total_ret (hpost _ ?_))
    have h₄ := h₃.writeAccount 0 bank.initBalance hm₃
    rwa [Function.update_idem] at h₄

theorem allocSegment_total {fuel trigger count : Nat} (prev : Option BlockId)
    (hnb : 1 ≤ bank.nbaccounts) (h : Lays bank r m) (hprev : Precedes m prev b)
    (hrun : bank.allocLoop m trigger r.blockCount fuel count prev b = .ok m')
    (hpost : ∀ r', Lays bank r' m' → post (.ok .done) r') (hnomem : post (.error .alloc) r) :
    Code.Total bank.body post (bank.allocSegment trigger count (prev.map base) (base b)) r := by
  induction fuel generalizing count prev b with
  | zero => cases hrun
  | succ fuel ih =>
      rw [WorkloadBank.allocLoop] at hrun
      cases hread : m.read b with
      | error e =>
          rw [hread] at hrun
          cases hrun
      | ok segment =>
          have hm := read_eq_ok hread
          rw [hread] at hrun
          simp only [bind, Except.bind] at hrun
          rw [WorkloadBank.allocSegment]
          have hlink := h.next hm
          refine Code.total_readCount (h.count hm) ?_
          refine Code.total_readPointer hlink ?_
          cases hnext : segment.next with
          | some next =>
              rw [hnext] at hrun
              have hprecedes : Precedes m (some b) next := by
                rintro p ⟨⟩
                exact ⟨segment, hm, hnext⟩
              exact Code.total_again (ih (some b) hprecedes hrun)
          | none =>
              rw [hnext] at hrun
              simp only [Option.map_none]
              by_cases htrigger : count + segment.count > trigger ∧ count + segment.count > 2
              · rw [if_pos htrigger]
                exact deleteAccount_total h hm hprev htrigger hrun hpost
              · rw [if_neg htrigger]
                exact addAccount_total hnb h hm hnext htrigger hrun hpost hnomem

theorem allocCode_total {fuel trigger : Nat} (hnb : 1 ≤ bank.nbaccounts) (h : Lays bank r m)
    (hrun : bank.allocTx m trigger r.blockCount fuel = .ok m')
    (hpost : ∀ r', Lays bank r' m' → post (.ok .done) r') (hnomem : post (.error .alloc) r) :
    Code.Total bank.body post (bank.allocCode trigger) r := by
  have hprev : Precedes m none bank.start := by rintro p ⟨⟩
  have hsegment :
      Code.Total bank.body post (bank.allocSegment trigger 0 none (base bank.start)) r :=
    allocSegment_total none hnb h hprev hrun hpost hnomem
  exact Code.total_again hsegment

/-! ### `init` -/

def initBalances (bank : WorkloadBank BlockId) (accounts : Nat → Int) (i : Nat) : Nat → Int :=
  (List.range i).foldl (fun accounts i => Function.update accounts i bank.initBalance) accounts

theorem initAccounts_total (k : Nat) : ∀ i r,
    i + k = bank.nbaccounts →
    Lays bank r (Function.update m bank.start (some { segment with
      count := bank.nbaccounts, accounts := initBalances bank segment.accounts i })) →
    (∀ r', Lays bank r' (Function.update m bank.start (some { segment with
      count := bank.nbaccounts
      accounts := initBalances bank segment.accounts bank.nbaccounts })) → post (.ok .done) r') →
    Code.Total bank.body post (bank.initAccounts i) r := by
  induction k with
  | zero =>
      intro i r hi h hpost
      obtain rfl : i = bank.nbaccounts := hi
      rw [WorkloadBank.initAccounts, if_neg (lt_irrefl _)]
      exact Code.total_ret (hpost r h)
  | succ k ih =>
      intro i r hi h hpost
      have hi' : i < bank.nbaccounts := by omega
      have hcell : Function.update m bank.start (some { segment with
          count := bank.nbaccounts
          accounts := initBalances bank segment.accounts i }) bank.start = _ :=
        Function.update_self ..
      have h' := h.writeAccount i bank.initBalance hcell
      have hnext : initBalances bank segment.accounts (i + 1) =
          Function.update (initBalances bank segment.accounts i) i bank.initBalance := by
        rw [initBalances, List.range_succ, List.foldl_append]
        rfl
      rw [Function.update_idem, ← hnext] at h'
      rw [WorkloadBank.initAccounts, if_pos hi']
      exact Code.total_write (h.account hcell hi')
        (Code.total_again (ih (i + 1) _ (by omega) h' hpost))

theorem init_eq_ok {correct : Bool} (hm : m bank.start = some segment)
    (hrun : bank.init m = .ok (m', correct)) :
    m' = Function.update m bank.start (some { segment with
      count := bank.nbaccounts
      accounts := initBalances bank segment.accounts bank.nbaccounts }) ∧
    correct = decide (initBalances bank segment.accounts bank.nbaccounts 0 = bank.initBalance) := by
  have hcell : Function.update m bank.start (some { segment with
      count := bank.nbaccounts
      accounts := initBalances bank segment.accounts bank.nbaccounts }) bank.start = _ :=
    Function.update_self ..
  rw [initBalances] at hcell ⊢
  simp only [WorkloadBank.init, BankMemory.read_of hm, BankMemory.write_of hm, bind, Except.bind,
    BankMemory.read_of hcell, pure, Except.pure, Except.ok.injEq, Prod.mk.injEq] at hrun
  exact ⟨hrun.1.symm, hrun.2.symm⟩

theorem initCode_total {correct : Bool} (h : Lays bank r m)
    (hrun : bank.init m = .ok (m', correct))
    (hpost : ∀ r', Lays bank r' m' → post (.ok .done) r') :
    Code.Total bank.body post bank.initCode r := by
  obtain ⟨segment, hm⟩ := Option.ne_none_iff_exists'.mp h.start
  obtain ⟨rfl, -⟩ := init_eq_ok hm hrun
  have h' := h.writeCount hm (n := bank.nbaccounts) le_rfl
  exact Code.total_write (h.count hm)
    (Code.total_again (initAccounts_total bank.nbaccounts 0 _ (Nat.zero_add _) h' hpost))

theorem initCheckCode_total {correct : Bool} (hnb : 1 ≤ bank.nbaccounts)
    (hstart : m bank.start ≠ none) (h : Lays bank r m') (hrun : bank.init m = .ok (m', correct))
    (hpost : post (.ok (.flag correct)) r) :
    Code.Total bank.body post bank.initCheckCode r := by
  obtain ⟨segment, hm⟩ := Option.ne_none_iff_exists'.mp hstart
  obtain ⟨rfl, rfl⟩ := init_eq_ok hm hrun
  exact Code.total_readNumber (h.account (Function.update_self ..) hnb) (Code.total_ret hpost)

end Refinement

/-! ### All closures -/

/-- The closures do on the region what the bank does on the records that it lays out. -/
structure Implements (bank : WorkloadBank BlockId) (r : Region Cell) (m : BankMemory BlockId) :
    Prop where
  init : ∀ m' correct, bank.init m = .ok (m', correct) →
    Code.Total bank.body (fun result r' => result = .ok .done ∧ Lays bank r' m') bank.initCode r
  initCheck : ∀ m₀ correct, m₀ bank.start ≠ none → bank.init m₀ = .ok (m, correct) →
    Code.Total bank.body (fun result r' => result = .ok (.flag correct) ∧ r' = r)
      bank.initCheckCode r
  longTx : ∀ fuel nbaccounts consistent count,
    bank.longTx m fuel nbaccounts = .ok (consistent, count) →
      Code.Total bank.body (fun result r' => r' = r ∧ ∃ updated : Option Nat,
        result = .ok (.long consistent updated) ∧ updated.getD nbaccounts = count) bank.longCode r
  allocTx : ∀ fuel trigger m', bank.allocTx m trigger r.blockCount fuel = .ok m' →
    Code.Total bank.body (fun result r' => result = .ok .done ∧ Lays bank r' m' ∨
      result = .error .alloc ∧ r' = r) (bank.allocCode trigger) r
  shortTx : ∀ fuel sendId recvId m' done, bank.shortTx m sendId recvId fuel = .ok (m', done) →
    Code.Total bank.body (fun result r' => result = .ok (.flag done) ∧ Lays bank r' m')
      (bank.shortCode sendId recvId) r

theorem Lays.implements {bank : WorkloadBank BlockId} {r : Region Cell} {m : BankMemory BlockId}
    (hnb : 1 ≤ bank.nbaccounts) (h : Lays bank r m) : Implements bank r m where
  init _ _ hrun := initCode_total h hrun fun _ h' => ⟨rfl, h'⟩
  initCheck _ _ hstart hrun := initCheckCode_total hnb hstart h hrun ⟨rfl, rfl⟩
  longTx _ _ _ _ hrun := longCode_total h hrun fun updated hupdated => ⟨rfl, updated, rfl, hupdated⟩
  allocTx _ _ _ hrun := allocCode_total hnb h hrun (fun _ h' => .inl ⟨rfl, h'⟩) (.inr ⟨rfl, rfl⟩)
  shortTx _ _ _ _ _ hrun := shortCode_total h hrun fun _ h' => ⟨rfl, h'⟩

theorem lays_created {bank : WorkloadBank BlockId} {r : Region Cell} (hstart : bank.start = 0)
    (hcreate : Reference.tmCreate true true true (size bank.nbaccounts) 8 = some r) :
    Lays bank r (.created bank.start) := by
  have hr : r = { r with
      align := 8, allocs := []
      segment := Function.update (fun _ => none) 0 (some (size bank.nbaccounts))
      blockCount := 1, word := fun _ _ => 0 } := by
    obtain rfl := Option.some.inj hcreate
    rfl
  rw [hstart, hr]
  refine ⟨rfl, fun b segment hb => ?_, fun b => ?_, by simp [BankMemory.created, hstart],
    List.nodup_nil, fun b hb => ?_, by simp [BankMemory.created, hstart], fun b segment hb => ?_⟩
  · simp only [BankMemory.created] at hb
    split at hb
    · obtain rfl := Option.some.inj hb
      exact ⟨rfl, rfl, rfl, fun _ _ => rfl, Nat.zero_le _⟩
    · cases hb
  · by_cases hb : b = 0 <;> simp [BankMemory.created, hb]
  · have hb : 1 ≤ b := hb
    exact if_neg (Nat.ne_of_gt hb)
  · simp only [BankMemory.created] at hb
    split at hb
    · obtain rfl := Option.some.inj hb
      rintro ⟨⟩
    · cases hb

/-! ### Every sequence of closures -/

inductive ClosureMove where
  | short (sendId recvId : Nat)
  | alloc (trigger : Nat)

def ClosureMove.code (bank : WorkloadBank BlockId) : ClosureMove → BankCode
  | .short sendId recvId => bank.shortCode sendId recvId
  | .alloc trigger => bank.allocCode trigger

def Leaves (bank : WorkloadBank BlockId) (code : BankCode) (r r' : Region Cell) : Prop :=
  ∃ p result, (transactions (Code.request bank.body)).Runs (.client code, r) (p, r') ∧
    (transactions (Code.request bank.body)).result p = some result

/-- All sequences of `short_tx` and `alloc_tx` after `init`, on the region of `tm_create`. -/
def closureMachine (bank : WorkloadBank BlockId) : Machine (Region Cell) ClosureMove where
  init r := ∃ r₀, Reference.tmCreate true true true (size bank.nbaccounts) 8 = some r₀ ∧
    Leaves bank bank.initCode r₀ r
  step r move r' := Leaves bank (move.code bank) r r'

theorem Leaves.post {bank : WorkloadBank BlockId} {code : BankCode} {r r' : Region Cell}
    {post : Except (TxException Fault) BankResult → Region Cell → Prop} (h : Leaves bank code r r')
    (htotal : Code.Total bank.body post code r) : ∃ result, post result r' := by
  obtain ⟨p, result, hruns, hresult⟩ := h
  exact ⟨result, (htotal.of_runs hruns).post_of hresult⟩

theorem Leaves.of_total {bank : WorkloadBank BlockId} {code : BankCode} {r : Region Cell}
    {post : Except (TxException Fault) BankResult → Region Cell → Prop}
    (h : Code.Total bank.body post code r) : ∃ r', Leaves bank code r r' := by
  obtain ⟨y, result, hruns, hresult, -⟩ := h.ends
  exact ⟨y.2, y.1, result, hruns, hresult⟩

/-- **The words are the records**: any sequence of closures, access by access, leaves the words of
records that the same closures leave in single steps. -/
theorem words_refine_records {bank : WorkloadBank BlockId} {r : Region Cell}
    (hstart : bank.start = 0) (hnb : 1 ≤ bank.nbaccounts) (hinit : 0 ≤ bank.initBalance)
    (h : (closureMachine bank).Reachable r) :
    ∃ m, (bankMachine bank).Reachable m ∧ Lays bank r m ∧ Implements bank r m := by
  have hlays : ∃ m cells, (bankMachine bank).Reachable m ∧ Lays bank r m ∧
      Ledger bank m cells 0 := by
    refine h.invariant (P := fun r => ∃ m cells, (bankMachine bank).Reachable m ∧ Lays bank r m ∧
      Ledger bank m cells 0) ?_ ?_
    · rintro r ⟨r₀, hcreate, hleaves⟩
      obtain ⟨m, cells, hm, hledger⟩ := init_spec bank hinit hnb
      have htotal := ((lays_created hstart hcreate).implements hnb).init m true hm
      obtain ⟨_, -, hlays⟩ := hleaves.post htotal
      exact ⟨m, cells, .init ⟨true, hm⟩, hlays, hledger⟩
    · rintro r move r' - ⟨m, cells, hm, hlays, hledger⟩ hleaves
      cases move with
      | short sendId recvId =>
          obtain ⟨hlt, -⟩ | ⟨m', done, cells', hok, hledger'⟩ :=
            hledger.shortTx sendId recvId cells.length
          · omega
          · obtain ⟨_, -, hlays'⟩ :=
              hleaves.post ((hlays.implements hnb).shortTx _ _ _ _ _ hok)
            have hstep : (bankMachine bank).step m (.short sendId recvId) m' := ⟨_, _, hok⟩
            exact ⟨m', cells', hm.step hstep, hlays', hledger'⟩
      | alloc trigger =>
          have hfresh := hlays.fresh _ le_rfl
          obtain ⟨hlt, -⟩ | ⟨m', cells', hok, hledger'⟩ :=
            hledger.allocTx hinit hnb hfresh trigger cells.length
          · omega
          · obtain ⟨_, ⟨-, hlays'⟩ | ⟨-, rfl⟩⟩ :=
              hleaves.post ((hlays.implements hnb).allocTx _ _ _ hok)
            · have hstep : (bankMachine bank).step m (.alloc trigger r.blockCount) m' :=
                ⟨hfresh, _, hok⟩
              exact ⟨m', cells', hm.step hstep, hlays', hledger'⟩
            · exact ⟨m, cells, hm, hlays, hledger⟩
  obtain ⟨m, cells, hm, hlays, -⟩ := hlays
  exact ⟨m, hm, hlays, hlays.implements hnb⟩

theorem words_refine_records_after_transfer : ∃ r m, (closureMachine ⟨0, 2, 100⟩).Reachable r ∧
    (bankMachine ⟨0, 2, 100⟩).Reachable m ∧ Lays ⟨0, 2, 100⟩ r m ∧ Implements ⟨0, 2, 100⟩ r m := by
  obtain ⟨r₀, hcreate⟩ : ∃ r₀ : Region Cell,
      Reference.tmCreate true true true (size 2) 8 = some r₀ := ⟨_, rfl⟩
  obtain ⟨m, cells, hm, hledger⟩ := init_spec (⟨0, 2, 100⟩ : WorkloadBank BlockId) (by decide)
    (by decide)
  have hcreated : Lays ⟨0, 2, 100⟩ r₀ (.created 0) := lays_created rfl hcreate
  have hinit := (hcreated.implements (by decide)).init m true hm
  obtain ⟨r, hleaves⟩ := Leaves.of_total hinit
  obtain ⟨_, -, hlays⟩ := hleaves.post hinit
  obtain ⟨hlt, -⟩ | ⟨m', done, -, hok, -⟩ := hledger.shortTx 0 1 cells.length
  · omega
  · obtain ⟨r', hleaves'⟩ := Leaves.of_total
      ((hlays.implements (by decide)).shortTx _ _ _ _ _ hok)
    have hreachable : (closureMachine ⟨0, 2, 100⟩).Reachable r := .init ⟨r₀, hcreate, hleaves⟩
    have hstep : (closureMachine ⟨0, 2, 100⟩).step r (.short 0 1) r' := hleaves'
    obtain ⟨m'', hm''⟩ := words_refine_records rfl (by decide) (by decide)
      (hreachable.step hstep)
    exact ⟨r', m'', hreachable.step hstep, hm''⟩

end TransactionalMemory.Grading
