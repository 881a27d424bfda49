import TransactionalMemory.Library.Linked
import TransactionalMemory.Model.Bank
import Mathlib.Algebra.BigOperators.Intervals
import Mathlib.Tactic.LinearCombination
import Mathlib.Tactic.Ring

/-!
# The bank conserves money

The accounts are kept in a chain of segments of which only the last is not full. Transfers change
two balances and no count; accounts come and go at the last segment only. When an account goes, its
parity keeps what its owner had gained or lost.
-/

namespace TransactionalMemory.Grading

open Concurrency

variable {Addr : Type}

def AccountSegment.total (segment : AccountSegment Addr) : Int :=
  segment.parity + ∑ i ∈ Finset.range segment.count, segment.accounts i

abbrev BankCells (Addr : Type) := List (Addr × AccountSegment Addr)

namespace BankCells

def counts (cells : BankCells Addr) : List Nat := cells.map fun e => e.2.count

def total (cells : BankCells Addr) : Int := (cells.map fun e => e.2.total).sum

def Slot (cells : BankCells Addr) (ptr : Addr × Nat) : Prop :=
  ∃ segment, (ptr.1, segment) ∈ cells ∧ ptr.2 < segment.count

end BankCells

/-- The chain in memory, with `excess` more money than there should be. -/
structure Ledger (bank : WorkloadBank Addr) (m : BankMemory Addr) (cells : BankCells Addr)
    (excess : Int) : Prop where
  linked : Linked AccountSegment.next m (some bank.start) cells
  nodup : (cells.map Prod.fst).Nodup
  /-- All segments but the last are full. -/
  counts : ∃ n k, 1 ≤ k ∧ k ≤ bank.nbaccounts ∧
    cells.counts = List.replicate n bank.nbaccounts ++ [k]
  solvent : ∀ e ∈ cells, ∀ i < e.2.count, 0 ≤ e.2.accounts i
  balance : cells.total = bank.initBalance * cells.counts.sum + excess

/-- What the closures rely on and keep. -/
structure Conserves [DecidableEq Addr] (bank : WorkloadBank Addr) (m : BankMemory Addr) : Prop where
  chain : ∃ cells, Ledger bank m cells 0
  /-- The check succeeds, and counts the accounts. -/
  longTx : ∀ cells, Ledger bank m cells 0 → ∀ fuel ≥ cells.length, ∀ nbaccounts,
    bank.longTx m fuel nbaccounts = .ok (true, cells.counts.sum)
  shortTx : ∀ sendId recvId, ∃ enough, ∀ fuel ≥ enough, ∃ m' done,
    bank.shortTx m sendId recvId fuel = .ok (m', done)
  allocTx : ∀ trigger fresh, m fresh = none → ∃ enough, ∀ fuel ≥ enough, ∃ m',
    bank.allocTx m trigger fresh fuel = .ok m'
  /-- The first segment is never freed. -/
  keepsFirst : ∀ trigger fresh fuel, m fresh = none →
    bank.allocTx m trigger fresh fuel ≠ .error .notLastSegment

variable {bank : WorkloadBank Addr} {m m' : BankMemory Addr} {cells pre post : BankCells Addr}
  {excess : Int} {a : Addr} {segment segment' : AccountSegment Addr}

/-! ### Lists of cells -/

theorem forall_mem_middle {P : Addr × AccountSegment Addr → Prop}
    (h : ∀ e ∈ pre ++ (a, segment) :: post, P e) (hnew : P (a, segment')) :
    ∀ e ∈ pre ++ (a, segment') :: post, P e := by
  rw [List.forall_mem_append, List.forall_mem_cons] at h ⊢
  exact ⟨h.1, hnew, h.2.2⟩

theorem BankCells.counts_middle (cells post : BankCells Addr) (e : Addr × AccountSegment Addr) :
    BankCells.counts (cells ++ e :: post) = cells.counts ++ e.2.count :: post.counts := by
  simp [BankCells.counts]

theorem BankCells.total_middle (cells post : BankCells Addr) (e : Addr × AccountSegment Addr) :
    BankCells.total (cells ++ e :: post) = cells.total + e.2.total + post.total := by
  simp [BankCells.total, add_assoc]

/-! ### Rewriting one segment -/

theorem BankMemory.read_of (h : m a = some segment) : m.read a = .ok segment := by
  simp only [BankMemory.read, h]

variable [DecidableEq Addr]

theorem BankMemory.write_of (h : m a = some segment) :
    m.write a segment' = .ok (Function.update m a (some segment')) := by
  simp only [BankMemory.write, h]

/-- A segment is rewritten in place: its number of accounts and its link stay. -/
theorem Ledger.rewrite (h : Ledger bank m (pre ++ (a, segment) :: post) excess)
    (hcount : segment'.count = segment.count) (hnext : segment'.next = segment.next)
    (hsolvent : ∀ i < segment'.count, 0 ≤ segment'.accounts i) :
    Ledger bank (Function.update m a (some segment')) (pre ++ (a, segment') :: post)
      (excess + segment'.total - segment.total) := by
  have hcounts : BankCells.counts (pre ++ (a, segment') :: post) =
      BankCells.counts (pre ++ (a, segment) :: post) := by
    rw [BankCells.counts_middle, BankCells.counts_middle, hcount]
  refine ⟨h.linked.rewrite h.nodup hnext, ?_, ?_, forall_mem_middle h.solvent hsolvent, ?_⟩
  · simpa using h.nodup
  · rw [hcounts]
    exact h.counts
  · have hbalance := h.balance
    rw [BankCells.total_middle] at hbalance ⊢
    rw [hcounts]
    linear_combination hbalance

/-! ### Transfers -/

section Transfers

variable {ptr sender recver : Addr × Nat} {v : Int}

theorem sum_write_account {accounts : Nat → Int} {n i : Nat} (hi : i < n) :
    ∑ j ∈ Finset.range n, Function.update accounts i v j =
      ∑ j ∈ Finset.range n, accounts j + v - accounts i := by
  have hmem : i ∈ Finset.range n := Finset.mem_range.mpr hi
  have hsplit := Finset.sum_eq_add_sum_sdiff_singleton_of_mem hmem accounts
  rw [Finset.sum_update_of_mem hmem]
  omega

omit [DecidableEq Addr] in
theorem Ledger.account (h : Ledger bank m cells excess) (hptr : cells.Slot ptr) :
    ∃ segment, m ptr.1 = some segment ∧ 0 ≤ segment.accounts ptr.2 := by
  obtain ⟨segment, hmem, hlt⟩ := hptr
  exact ⟨segment, h.linked.cell hmem, h.solvent _ hmem _ hlt⟩

theorem Ledger.writeAccount (h : Ledger bank m cells excess) (hptr : cells.Slot ptr)
    (hsegment : m ptr.1 = some segment) (hv : 0 ≤ v) :
    ∃ m' cells', m.writeAccount ptr v = .ok m' ∧
      Ledger bank m' cells' (excess + v - segment.accounts ptr.2) ∧
      ∀ ptr', cells.Slot ptr' → cells'.Slot ptr' := by
  obtain ⟨a, i⟩ := ptr
  obtain ⟨segment', hmem, hlt⟩ := hptr
  obtain rfl : segment' = segment := by
    have hcell := h.linked.cell hmem
    simpa [hsegment] using hcell.symm
  obtain ⟨pre, post, rfl⟩ := List.append_of_mem hmem
  obtain ⟨written, hwritten⟩ : ∃ written, written =
      { segment' with accounts := Function.update segment'.accounts i v } := ⟨_, rfl⟩
  have hsolvent : ∀ j < written.count, 0 ≤ written.accounts j := by
    subst hwritten
    intro j hj
    by_cases hij : j = i
    · subst hij
      simpa using hv
    · simpa [Function.update_of_ne hij] using h.solvent _ hmem j hj
  have hwrite : m.writeAccount (a, i) v = .ok (Function.update m a (some written)) := by
    simp only [BankMemory.writeAccount, BankMemory.read_of hsegment, bind, Except.bind,
      BankMemory.write_of hsegment, hwritten]
  have htotal : written.total = segment'.total + v - segment'.accounts i := by
    simp only [hwritten, AccountSegment.total, sum_write_account hlt]
    omega
  have hledger : Ledger bank (Function.update m a (some written)) (pre ++ (a, written) :: post)
      (excess + written.total - segment'.total) :=
    h.rewrite (by rw [hwritten]) (by rw [hwritten]) hsolvent
  have hexcess : excess + (segment'.total + v - segment'.accounts i) - segment'.total =
      excess + v - segment'.accounts i := by omega
  rw [htotal, hexcess] at hledger
  refine ⟨_, pre ++ (a, written) :: post, hwrite, hledger, ?_⟩
  rintro ptr ⟨other, hother, hptr⟩
  rcases List.mem_append.mp hother with hpre | hpost
  · exact ⟨other, List.mem_append_left _ hpre, hptr⟩
  · rcases List.mem_cons.mp hpost with heq | hpost
    · obtain ⟨hfst, rfl⟩ := Prod.mk.inj heq
      exact ⟨written, by simp [hfst], by simpa [hwritten] using hptr⟩
    · exact ⟨other, List.mem_append_right _ (List.mem_cons_of_mem _ hpost), hptr⟩

/-- One account gets what the other loses, also when they are the same. -/
theorem Ledger.transfer (h : Ledger bank m cells excess) (hsender : cells.Slot sender)
    (hrecver : cells.Slot recver) :
    ∃ m' cells', WorkloadBank.transfer m sender recver = .ok m' ∧ Ledger bank m' cells' excess := by
  obtain ⟨segment, hsegment, -⟩ := h.account hsender
  by_cases hpos : segment.accounts sender.2 > 0
  · obtain ⟨m₁, cells₁, hwrite₁, h₁, hslots⟩ := h.writeAccount (v := segment.accounts sender.2 - 1)
      hsender hsegment (by omega)
    obtain ⟨segment₁, hsegment₁, hbalance⟩ := h₁.account (hslots _ hrecver)
    obtain ⟨m₂, cells₂, hwrite₂, h₂, -⟩ := h₁.writeAccount
      (v := segment₁.accounts recver.2 + 1) (hslots _ hrecver) hsegment₁ (by omega)
    refine ⟨m₂, cells₂, ?_, ?_⟩
    · simp only [WorkloadBank.transfer, BankMemory.read_of hsegment, bind, Except.bind, if_pos hpos,
        hwrite₁, BankMemory.read_of hsegment₁, hwrite₂]
    · convert h₂ using 1
      omega
  · refine ⟨m, cells, ?_, h⟩
    simp only [WorkloadBank.transfer, BankMemory.read_of hsegment, bind, Except.bind, if_neg hpos,
      pure, Except.pure]

end Transfers

/-! ### Along the chain -/

section Loops

variable {fuel count sendId recvId : Nat} {start : Addr} {sendPtr recvPtr : Option (Addr × Nat)}
  {rest : BankCells Addr}

omit [DecidableEq Addr] in
theorem findAccount_slot (id : Nat) {ptr : Option (Addr × Nat)}
    (h : ∀ x, ptr = some x → cells.Slot x) (hmem : (start, segment) ∈ cells) :
    ∀ x, (WorkloadBank.findAccount start segment.count ptr id).1 = some x → cells.Slot x := by
  intro x hx
  cases ptr with
  | some ptr => exact h x hx
  | none =>
      simp only [WorkloadBank.findAccount] at hx
      split at hx
      · rename_i hlt
        cases hx
        exact ⟨segment, hmem, hlt⟩
      · cases hx

omit [DecidableEq Addr] in
/-- Both pointers that the search returns are accounts. -/
theorem shortLoop_spec (fuel sendId recvId : Nat)
    (hrest : Linked AccountSegment.next m (some start) rest)
    (hsub : ∀ e ∈ rest, e ∈ cells) (hsend : ∀ x, sendPtr = some x → cells.Slot x)
    (hrecv : ∀ x, recvPtr = some x → cells.Slot x) :
    fuel < rest.length ∧
        WorkloadBank.shortLoop m fuel sendPtr recvPtr sendId recvId start = .error .outOfFuel ∨
      ∃ result, WorkloadBank.shortLoop m fuel sendPtr recvPtr sendId recvId start = .ok result ∧
        ∀ sender recver, result = some (sender, recver) →
          cells.Slot sender ∧ cells.Slot recver := by
  induction rest generalizing fuel sendPtr recvPtr sendId recvId start with
  | nil => cases hrest
  | cons e rest ih =>
      cases hrest with
      | @cons _ segment _ hcell hrest =>
          cases fuel with
          | zero => exact .inl ⟨by simp, rfl⟩
          | succ fuel =>
              have hmem := hsub _ List.mem_cons_self
              have hsend' := findAccount_slot sendId hsend hmem
              have hrecv' := findAccount_slot recvId hrecv hmem
              simp only [WorkloadBank.shortLoop, BankMemory.read_of hcell, bind, Except.bind, pure,
                Except.pure]
              generalize WorkloadBank.findAccount start segment.count sendPtr sendId =
                found at hsend'
              generalize WorkloadBank.findAccount start segment.count recvPtr recvId =
                found' at hrecv'
              obtain ⟨sendPtr', sendId'⟩ := found
              obtain ⟨recvPtr', recvId'⟩ := found'
              split
              · rename_i sender recver hsender hrecver
                refine .inr ⟨_, rfl, ?_⟩
                rintro _ _ ⟨⟩
                exact ⟨hsend' _ hsender, hrecv' _ hrecver⟩
              · split
                · exact .inr ⟨none, rfl, by rintro _ _ ⟨⟩⟩
                · rename_i next hnext
                  rw [hnext] at hrest
                  rcases ih _ _ _ hrest (fun e he => hsub e (List.mem_cons_of_mem _ he))
                    hsend' hrecv' with ⟨hlt, herror⟩ | hresult
                  · exact .inl ⟨by simpa using hlt, herror⟩
                  · exact .inr hresult

theorem sumAccounts_spec {accounts : Nat → Int} {n : Nat} (h : ∀ i < n, 0 ≤ accounts i)
    (sum : Int) :
    WorkloadBank.sumAccounts accounts n sum = some (sum + ∑ i ∈ Finset.range n, accounts i) := by
  induction n with
  | zero => simp [WorkloadBank.sumAccounts]
  | succ n ih =>
      have hnonneg := h n (Nat.lt_succ_self n)
      have hsum := ih fun i hi => h i (Nat.lt_succ_of_lt hi)
      rw [WorkloadBank.sumAccounts] at hsum ⊢
      rw [List.range_succ, List.foldlM_append, hsum, Finset.sum_range_succ, ← add_assoc]
      simp [Int.not_lt.mpr hnonneg]

omit [DecidableEq Addr] in
theorem longLoop_spec {p : Option Addr} (hrest : Linked AccountSegment.next m p rest)
    (hsolvent : ∀ e ∈ rest, ∀ i < e.2.count, 0 ≤ e.2.accounts i) (hfuel : rest.length ≤ fuel)
    (count : Nat) (sum : Int) : WorkloadBank.longLoop m fuel count sum p =
      .ok (some (count + rest.counts.sum, sum + rest.total)) := by
  induction hrest generalizing fuel count sum with
  | nil => cases fuel <;> simp [WorkloadBank.longLoop, BankCells.counts, BankCells.total]
  | @cons a segment rest hcell _ ih =>
      cases fuel with
      | zero => simp at hfuel
      | succ fuel =>
          have hsum := sumAccounts_spec (hsolvent _ List.mem_cons_self) (sum + segment.parity)
          have htail := ih (fun e he => hsolvent e (List.mem_cons_of_mem _ he))
            (Nat.le_of_succ_le_succ hfuel) (count + segment.count)
            (sum + segment.parity + ∑ i ∈ Finset.range segment.count, segment.accounts i)
          simp only [WorkloadBank.longLoop, BankMemory.read_of hcell, bind, Except.bind, hsum,
            htail]
          simp [BankCells.counts, BankCells.total, AccountSegment.total, add_assoc]

theorem allocLoop_spec {trigger : Nat} {fresh : Addr} {prev : Option Addr}
    (hrest : Linked AccountSegment.next m (some start) (pre ++ [(a, segment)])) :
    bank.allocLoop m trigger fresh fuel count prev start =
      if fuel ≤ pre.length then .error .outOfFuel
      else bank.allocLast m trigger fresh (count + pre.counts.sum + segment.count)
        ((pre.getLast?.map Prod.fst).or prev) a segment := by
  induction pre generalizing fuel count prev start with
  | nil =>
      cases fuel with
      | zero => rfl
      | succ fuel =>
          cases hrest with
          | cons hcell hnext =>
              cases hlast : segment.next with
              | some next => rw [hlast] at hnext; cases hnext
              | none =>
                  simp only [WorkloadBank.allocLoop, BankMemory.read_of hcell, bind, Except.bind,
                    hlast]
                  simp [BankCells.counts]
  | cons e pre ih =>
      cases fuel with
      | zero => rfl
      | succ fuel =>
          cases hrest with
          | @cons _ first _ hcell hnext =>
              cases hlink : first.next with
              | none => rw [hlink] at hnext; cases pre <;> cases hnext
              | some next =>
                  rw [hlink] at hnext
                  simp only [WorkloadBank.allocLoop, BankMemory.read_of hcell, bind, Except.bind,
                    hlink, ih hnext]
                  cases pre <;> simp [BankCells.counts, add_assoc, List.getLast?_cons]

end Loops

/-! ### Accounts come and go -/

section Accounts

variable {n : Nat} {fresh : Addr}

omit [DecidableEq Addr] in
theorem Ledger.last (h : Ledger bank m cells excess) : ∃ (pre : BankCells Addr) (a : Addr)
    (segment : AccountSegment Addr) (n : Nat), cells = pre ++ [(a, segment)] ∧
      pre.counts = List.replicate n bank.nbaccounts ∧ 1 ≤ segment.count ∧
        segment.count ≤ bank.nbaccounts := by
  obtain ⟨n, k, hpos, hle, hcounts⟩ := h.counts
  obtain ⟨pre, post, rfl, hpre, hpost⟩ := List.map_eq_append_iff.mp hcounts
  obtain ⟨e, rfl, rfl⟩ := List.map_eq_singleton_iff.mp hpost
  exact ⟨pre, e.1, e.2, n, rfl, hpre, hpos, hle⟩

theorem Ledger.rewrite_last (h : Ledger bank m (pre ++ [(a, segment)]) 0)
    (hpre : pre.counts = List.replicate n bank.nbaccounts) (hnext : segment'.next = segment.next)
    (hpos : 1 ≤ segment'.count) (hle : segment'.count ≤ bank.nbaccounts)
    (hsolvent : ∀ i < segment'.count, 0 ≤ segment'.accounts i)
    (hbalance : segment'.total - bank.initBalance * segment'.count =
      segment.total - bank.initBalance * segment.count) :
    Ledger bank (Function.update m a (some segment')) (pre ++ [(a, segment')]) 0 := by
  refine ⟨h.linked.rewrite h.nodup hnext, ?_, ⟨n, segment'.count, hpos, hle, ?_⟩,
    forall_mem_middle h.solvent hsolvent, ?_⟩
  · simpa using h.nodup
  · rw [BankCells.counts_middle, hpre]
    rfl
  · have hold := h.balance
    rw [BankCells.total_middle, BankCells.counts_middle, List.sum_append] at hold ⊢
    simp only [List.sum_cons, Nat.cast_add] at hold ⊢
    linear_combination hold + hbalance

theorem Ledger.deleteAccount {k : Nat} (h : Ledger bank m (pre ++ [(a, segment)]) 0)
    (hpre : pre.counts = List.replicate n bank.nbaccounts) (hcount : segment.count = k + 1)
    (hpos : 0 < k) (hle : segment.count ≤ bank.nbaccounts) :
    Ledger bank (Function.update m a (some { segment with
      count := k, parity := segment.parity + segment.accounts k - bank.initBalance }))
      (pre ++ [(a, { segment with
        count := k, parity := segment.parity + segment.accounts k - bank.initBalance })]) 0 := by
  have hfits : k ≤ bank.nbaccounts := by omega
  refine h.rewrite_last hpre rfl hpos hfits (fun i hi => ?_) ?_
  · have hlt : i < segment.count := by
      have hi' : i < k := hi
      omega
    exact h.solvent (a, segment) (by simp) i hlt
  · simp only [AccountSegment.total, hcount, Finset.sum_range_succ, Nat.cast_add, Nat.cast_one]
    ring

theorem Ledger.addAccount (hinit : 0 ≤ bank.initBalance)
    (h : Ledger bank m (pre ++ [(a, segment)]) 0)
    (hpre : pre.counts = List.replicate n bank.nbaccounts) (hlt : segment.count < bank.nbaccounts) :
    Ledger bank (Function.update m a (some { segment with
      count := segment.count + 1
      accounts := Function.update segment.accounts segment.count bank.initBalance }))
      (pre ++ [(a, { segment with
        count := segment.count + 1
        accounts := Function.update segment.accounts segment.count bank.initBalance })]) 0 := by
  refine h.rewrite_last hpre rfl (by simp) hlt (fun i hi => ?_) ?_
  · by_cases heq : i = segment.count
    · simpa [heq] using hinit
    · have hlt : i < segment.count := by
        have hi' : i < segment.count + 1 := hi
        omega
      simpa [Function.update_of_ne heq] using h.solvent (a, segment) (by simp) i hlt
  · have hothers : ∀ i ∈ Finset.range segment.count,
        Function.update segment.accounts segment.count bank.initBalance i = segment.accounts i :=
      fun i hi => Function.update_of_ne (Finset.mem_range.mp hi).ne ..
    simp only [AccountSegment.total, Finset.sum_range_succ, Function.update_self,
      Finset.sum_congr rfl hothers, Nat.cast_add, Nat.cast_one]
    ring

/-- The last segment is freed, and the one before it takes over the parity. -/
theorem Ledger.freeSegment {b : Addr} {before : AccountSegment Addr}
    (h : Ledger bank m (pre ++ [(b, before), (a, segment)]) 0)
    (hpre : pre.counts = List.replicate n bank.nbaccounts)
    (hbefore : before.count = bank.nbaccounts)
    (hcount : segment.count = 1) (hnb : 1 ≤ bank.nbaccounts) :
    Ledger bank (Function.update (Function.update m a none) b (some { before with
      next := none
      parity := before.parity + (segment.parity + segment.accounts 0 - bank.initBalance) }))
      (pre ++ [(b, { before with
        next := none
        parity :=
          before.parity + (segment.parity + segment.accounts 0 - bank.initBalance) })]) 0 := by
  have hne := ne_of_nodup_cells h.nodup
  have hne' : ∀ e ∈ pre, e.1 ≠ a := by
    intro e he
    have hnodup : (((pre ++ [(b, before)]) ++ (a, segment) :: []).map Prod.fst).Nodup := by
      simpa using h.nodup
    exact ne_of_nodup_cells hnodup e (by simp [he])
  refine ⟨?_, ?_, ⟨n, bank.nbaccounts, hnb, le_rfl, ?_⟩, ?_, ?_⟩
  · refine h.linked.splice (fun e he => ?_) (.cons (Function.update_self ..) .nil)
    rw [Function.update_of_ne (hne e (by simp [he])), Function.update_of_ne (hne' e he)]
  · have hnodup := h.nodup
    rw [List.map_append, List.nodup_append] at hnodup ⊢
    refine ⟨hnodup.1, by simp, fun x hx y hy => hnodup.2.2 x hx y ?_⟩
    obtain rfl : y = b := by simpa using hy
    simp
  · rw [BankCells.counts_middle, hpre, hbefore]
    rfl
  · intro e he
    rcases List.mem_append.mp he with hmem | hmem
    · exact h.solvent e (by simp [hmem])
    · obtain rfl := List.mem_singleton.mp hmem
      exact h.solvent (b, before) (by simp)
  · have hbalance := h.balance
    rw [BankCells.total_middle, BankCells.counts_middle, List.sum_append] at hbalance ⊢
    simp only [BankCells.total, BankCells.counts, List.map_nil, List.map_cons, List.sum_cons,
      List.sum_nil, hcount, Nat.cast_add, AccountSegment.total, Finset.sum_range_one, Nat.cast_zero,
      Nat.cast_one] at hbalance ⊢
    linear_combination hbalance

theorem Ledger.newSegment (hinit : 0 ≤ bank.initBalance) (hnb : 1 ≤ bank.nbaccounts)
    (h : Ledger bank m (pre ++ [(a, segment)]) 0)
    (hpre : pre.counts = List.replicate n bank.nbaccounts) (hfull : segment.count = bank.nbaccounts)
    (hfresh : m fresh = none) :
    Ledger bank (Function.update (Function.update (Function.update m fresh (some .zeroed))
        a (some { segment with next := some fresh }))
        fresh (some { AccountSegment.zeroed with
          count := 1, accounts := Function.update (fun _ => 0) 0 bank.initBalance }))
      (pre ++ [(a, { segment with next := some fresh }), (fresh, { AccountSegment.zeroed with
        count := 1, accounts := Function.update (fun _ => 0) 0 bank.initBalance })]) 0 := by
  have hold : ∀ e ∈ pre ++ [(a, segment)], e.1 ≠ fresh := by
    rintro ⟨x, c⟩ he rfl
    have hcell := h.linked.cell he
    rw [hfresh] at hcell
    cases hcell
  have ha : a ≠ fresh := hold (a, segment) (by simp)
  have hne := ne_of_nodup_cells h.nodup
  refine ⟨?_, ?_, ⟨n + 1, 1, le_rfl, hnb, ?_⟩, ?_, ?_⟩
  · refine h.linked.splice (fun e he => ?_) (.cons ?_ (.cons (Function.update_self ..) .nil))
    · rw [Function.update_of_ne (hold e (by simp [he])),
        Function.update_of_ne (hne e (by simp [he])), Function.update_of_ne (hold e (by simp [he]))]
    · rw [Function.update_of_ne ha, Function.update_self]
  · have hnodup := h.nodup
    have hnotMem : fresh ∉ (pre ++ [(a, segment)]).map Prod.fst := by
      rintro hmem
      obtain ⟨e, he, heq⟩ := List.mem_map.mp hmem
      exact hold e he heq
    have hconcat := List.Nodup.concat hnotMem hnodup
    simpa using hconcat
  · rw [BankCells.counts_middle, hpre, hfull, List.replicate_succ']
    simp [BankCells.counts]
  · intro e he
    rcases List.mem_append.mp he with hmem | hmem
    · exact h.solvent e (by simp [hmem])
    · rcases List.mem_cons.mp hmem with rfl | hmem
      · exact h.solvent (a, segment) (by simp)
      · obtain rfl := List.mem_singleton.mp hmem
        intro i hi
        obtain rfl : i = 0 := Nat.lt_one_iff.mp hi
        simpa using hinit
  · have hbalance := h.balance
    rw [BankCells.total_middle, BankCells.counts_middle, List.sum_append] at hbalance ⊢
    simp only [BankCells.total, BankCells.counts, List.map_nil, List.map_cons, List.sum_cons,
      List.sum_nil, Nat.cast_add, AccountSegment.total, AccountSegment.zeroed, Finset.sum_range_one,
      Function.update_self, Nat.cast_zero, Nat.cast_one] at hbalance ⊢
    linear_combination hbalance

theorem allocLast_free {trigger count : Nat} {b : Addr} {before : AccountSegment Addr}
    (htrigger : count > trigger ∧ count > 2) (hcount : segment.count = 1)
    (hbefore : m b = some before) (hnext : before.next = some a) (hba : b ≠ a) :
    bank.allocLast m trigger fresh count (some b) a segment =
      .ok (Function.update (Function.update m a none) b (some { before with
        next := none
        parity := before.parity + (segment.parity + segment.accounts 0 - bank.initBalance) })) := by
  have hfree : m.freeNext b =
      .ok (Function.update (Function.update m a none) b (some { before with next := none })) := by
    simp only [BankMemory.freeNext, hbefore, hnext]
    exact BankMemory.write_of (by rw [Function.update_of_ne hba, hbefore])
  have hread := BankMemory.read_of (Function.update_self b (some { before with next := none })
    (Function.update m a none))
  have hwrite : ∀ segment', BankMemory.write
      (Function.update (Function.update m a none) b (some { before with next := none }))
        b segment' = .ok (Function.update (Function.update m a none) b (some segment')) := by
    intro segment'
    rw [BankMemory.write_of (Function.update_self ..), Function.update_idem]
  simp only [WorkloadBank.allocLast, if_pos htrigger]
  split
  · omega
  · rename_i k hk
    obtain rfl : k = 0 := by omega
    simp only [gt_iff_lt, lt_self_iff_false, if_false, bind, Except.bind, hfree, hread, hwrite]

theorem allocLast_new {trigger count : Nat} {prev : Option Addr}
    (htrigger : ¬ (count > trigger ∧ count > 2)) (hfull : ¬ segment.count < bank.nbaccounts)
    (hsegment : m a = some segment) (hnext : segment.next = none) (hfresh : m fresh = none) :
    bank.allocLast m trigger fresh count prev a segment =
      .ok (Function.update (Function.update (Function.update m fresh (some .zeroed))
        a (some { segment with next := some fresh }))
        fresh (some { AccountSegment.zeroed with
          count := 1, accounts := Function.update (fun _ => 0) 0 bank.initBalance })) := by
  have hne : a ≠ fresh := by
    rintro rfl
    rw [hsegment] at hfresh
    cases hfresh
  have halloc : m.allocNext a fresh = .ok (Function.update (Function.update m fresh (some .zeroed))
      a (some { segment with next := some fresh })) := by
    simp only [BankMemory.allocNext, hsegment, hnext]
    exact BankMemory.write_of (by rw [Function.update_of_ne hne, hsegment])
  have hcell : Function.update (Function.update m fresh (some .zeroed)) a
      (some { segment with next := some fresh }) fresh = some .zeroed := by
    rw [Function.update_of_ne hne.symm, Function.update_self]
  simp only [WorkloadBank.allocLast, if_neg htrigger, if_neg hfull, bind, Except.bind, halloc,
    BankMemory.read_of hcell, BankMemory.write_of hcell]
  rfl

/-- What `alloc_tx` does at the last segment. -/
theorem Ledger.allocLast {trigger : Nat} (hinit : 0 ≤ bank.initBalance)
    (hnb : 1 ≤ bank.nbaccounts) (h : Ledger bank m (pre ++ [(a, segment)]) 0)
    (hfresh : m fresh = none) :
    ∃ m' cells', bank.allocLast m trigger fresh (pre.counts.sum + segment.count)
      (pre.getLast?.map Prod.fst) a segment = .ok m' ∧ Ledger bank m' cells' 0 := by
  obtain ⟨hcell, hlink⟩ := h.linked.suffix
  obtain ⟨pre', a', segment', n, heq, hpre, hpos, hle⟩ := h.last
  obtain ⟨rfl, hlast⟩ := List.append_inj' heq rfl
  obtain ⟨rfl, rfl⟩ : a = a' ∧ segment = segment' := by simpa using hlast
  by_cases htrigger : pre.counts.sum + segment.count > trigger ∧ pre.counts.sum + segment.count > 2
  · obtain ⟨k, hcount⟩ := Nat.exists_eq_add_of_le' hpos
    by_cases hk : k > 0
    · refine ⟨_, _, ?_, h.deleteAccount hpre hcount hk hle⟩
      simp only [WorkloadBank.allocLast, if_pos htrigger, BankMemory.write_of hcell]
      split
      · omega
      · rename_i k' hcount'
        obtain rfl : k' = k := by omega
        exact if_pos hk
    · obtain rfl : k = 0 := by omega
      -- More than two accounts do not fit in this segment, so it is not the first.
      obtain rfl | ⟨full, ⟨b, before⟩, rfl⟩ := List.eq_nil_or_concat' pre
      · have hsum : BankCells.counts ([] : BankCells Addr) = [] := rfl
        simp [hsum, hcount] at htrigger
      · have h' : Ledger bank m (full ++ (b, before) :: [(a, segment)]) 0 := by simpa using h
        obtain ⟨hbefore, hrest⟩ := h'.linked.suffix
        have hba : b ≠ a := fun heq =>
          ne_of_nodup_cells h'.nodup (a, segment) (by simp) heq.symm
        have hall : ∀ c ∈ BankCells.counts (full ++ [(b, before)]), c = bank.nbaccounts := by
          rw [hpre]
          exact fun c hc => List.eq_of_mem_replicate hc
        rw [BankCells.counts_middle] at hall
        have hfull := List.eq_replicate_of_mem fun c hc => hall c (List.mem_append_left _ hc)
        rw [List.getLast?_concat]
        exact ⟨_, _, allocLast_free htrigger hcount hbefore hrest.head_of_cons hba,
          h'.freeSegment hfull (hall _ (by simp)) hcount hnb⟩
  · by_cases hroom : segment.count < bank.nbaccounts
    · refine ⟨_, _, ?_, h.addAccount hinit hpre hroom⟩
      simp only [WorkloadBank.allocLast, if_neg htrigger, if_pos hroom, BankMemory.write_of hcell]
    · exact ⟨_, _, allocLast_new htrigger hroom hcell hlink.head_of_nil hfresh,
        h.newSegment hinit hnb hpre (by omega) hfresh⟩

end Accounts

/-! ### The closures -/

section Closures

variable {fuel : Nat} {fresh : Addr}

/-- A balance read after the loop of `init`. -/
theorem init_accounts {v : Int} {accounts : Nat → Int} {n i : Nat} (hi : i < n) :
    (List.range n).foldl (fun accounts j => Function.update accounts j v) accounts i = v := by
  induction n with
  | zero => exact absurd hi (Nat.not_lt_zero i)
  | succ n ih =>
      rw [List.range_succ, List.foldl_append, List.foldl_cons, List.foldl_nil]
      by_cases hin : i = n
      · rw [hin, Function.update_self]
      · rw [Function.update_of_ne hin, ih (by omega)]

theorem init_spec (bank : WorkloadBank Addr) (hinit : 0 ≤ bank.initBalance)
    (hnb : 1 ≤ bank.nbaccounts) :
    ∃ m cells, bank.init (.created bank.start) = .ok (m, true) ∧ Ledger bank m cells 0 := by
  have hstart : BankMemory.created bank.start bank.start = some .zeroed := if_pos rfl
  obtain ⟨accounts, haccounts⟩ : ∃ accounts, accounts = (List.range bank.nbaccounts).foldl
      (fun accounts i => Function.update accounts i bank.initBalance) (fun _ => 0) := ⟨_, rfl⟩
  have hvalue : ∀ i < bank.nbaccounts, accounts i = bank.initBalance := by
    intro i hi
    rw [haccounts, init_accounts hi]
  obtain ⟨segment, hsegment⟩ : ∃ segment,
    segment = { (AccountSegment.zeroed : AccountSegment Addr) with
      count := bank.nbaccounts, accounts := accounts } := ⟨_, rfl⟩
  have hread := BankMemory.read_of (Function.update_self bank.start (some segment)
    (BankMemory.created bank.start))
  refine ⟨Function.update (BankMemory.created bank.start) bank.start (some segment),
    [(bank.start, segment)], ?_, ?_, by simp, ⟨0, segment.count, ?_, ?_, rfl⟩, ?_, ?_⟩
  · have hzeroed : (AccountSegment.zeroed : AccountSegment Addr).accounts = fun _ => 0 := rfl
    have hfirst : segment.accounts 0 = bank.initBalance := by
      rw [hsegment]
      exact hvalue 0 hnb
    simp only [WorkloadBank.init, BankMemory.read_of hstart, BankMemory.write_of hstart, bind,
      Except.bind, hzeroed, ← haccounts, ← hsegment, hread, hfirst, pure, Except.pure, decide_true]
  · refine .cons (Function.update_self ..) ?_
    rw [hsegment]
    exact .nil
  · rwa [hsegment]
  · rw [hsegment]
  · intro e he i hi
    obtain rfl := List.mem_singleton.mp he
    subst hsegment
    exact hinit.trans_eq (hvalue i hi).symm
  · have hsum : ∑ i ∈ Finset.range bank.nbaccounts, accounts i =
        bank.nbaccounts * bank.initBalance := by
      rw [Finset.sum_congr rfl fun i hi => hvalue i (Finset.mem_range.mp hi)]
      simp
    subst hsegment
    simp [BankCells.total, BankCells.counts, AccountSegment.total, AccountSegment.zeroed, hsum,
      mul_comm]

omit [DecidableEq Addr] in
theorem Ledger.longTx (h : Ledger bank m cells 0) (hfuel : cells.length ≤ fuel) (nbaccounts : Nat) :
    bank.longTx m fuel nbaccounts = .ok (true, cells.counts.sum) := by
  have hloop := longLoop_spec h.linked h.solvent hfuel 0 0
  have hbalance := h.balance
  simp only [WorkloadBank.longTx, hloop, bind, Except.bind, pure, Except.pure]
  simp [hbalance]

/-- `short_tx` returns when it has come to the end of the chain. -/
theorem Ledger.shortTx (h : Ledger bank m cells 0) (sendId recvId fuel : Nat) :
    fuel < cells.length ∧ bank.shortTx m sendId recvId fuel = .error .outOfFuel ∨
      ∃ m' done cells', bank.shortTx m sendId recvId fuel = .ok (m', done) ∧
        Ledger bank m' cells' 0 := by
  have hnone : ∀ x, (none : Option (Addr × Nat)) = some x → cells.Slot x := by rintro x ⟨⟩
  obtain ⟨hlt, herror⟩ | ⟨result, hresult, hslots⟩ :=
    shortLoop_spec fuel sendId recvId h.linked (fun _ => id) hnone hnone
  · refine .inl ⟨hlt, ?_⟩
    simp only [WorkloadBank.shortTx, herror, bind, Except.bind]
  · right
    cases result with
    | none =>
        refine ⟨m, false, cells, ?_, h⟩
        simp only [WorkloadBank.shortTx, hresult, bind, Except.bind, pure, Except.pure]
    | some ptrs =>
        obtain ⟨hsender, hrecver⟩ := hslots _ _ rfl
        obtain ⟨m', cells', htransfer, h'⟩ := h.transfer hsender hrecver
        refine ⟨m', true, cells', ?_, h'⟩
        simp only [WorkloadBank.shortTx, hresult, htransfer, bind, Except.bind, pure, Except.pure]

theorem Ledger.allocTx (hinit : 0 ≤ bank.initBalance) (hnb : 1 ≤ bank.nbaccounts)
    (h : Ledger bank m cells 0) (hfresh : m fresh = none) (trigger fuel : Nat) :
    fuel < cells.length ∧ bank.allocTx m trigger fresh fuel = .error .outOfFuel ∨
      ∃ m' cells', bank.allocTx m trigger fresh fuel = .ok m' ∧ Ledger bank m' cells' 0 := by
  obtain ⟨pre, a, segment, n, rfl, -⟩ := h.last
  rw [WorkloadBank.allocTx, allocLoop_spec h.linked, Option.or_none, Nat.zero_add]
  by_cases hfuel : fuel ≤ pre.length
  · exact .inl ⟨by simpa using Nat.lt_succ_of_le hfuel, if_pos hfuel⟩
  · rw [if_neg hfuel]
    exact .inr (h.allocLast hinit hnb hfresh)

theorem Ledger.conserves (hinit : 0 ≤ bank.initBalance) (hnb : 1 ≤ bank.nbaccounts)
    (h : Ledger bank m cells 0) : Conserves bank m where
  chain := ⟨cells, h⟩
  longTx _ hcells _ hfuel nbaccounts := hcells.longTx hfuel nbaccounts
  shortTx sendId recvId := by
    refine ⟨cells.length, fun fuel hfuel => ?_⟩
    obtain ⟨hlt, -⟩ | ⟨m', done, -, hok, -⟩ :=
      h.shortTx sendId recvId fuel
    · omega
    · exact ⟨m', done, hok⟩
  allocTx trigger fresh hfresh := by
    refine ⟨cells.length, fun fuel hfuel => ?_⟩
    obtain ⟨hlt, -⟩ | ⟨m', -, hok, -⟩ :=
      h.allocTx hinit hnb hfresh trigger fuel
    · omega
    · exact ⟨m', hok⟩
  keepsFirst trigger fresh fuel hfresh := by
    obtain ⟨-, herror⟩ | ⟨m', -, hok, -⟩ :=
      h.allocTx hinit hnb hfresh trigger fuel
    · simp [herror]
    · simp [hok]

end Closures

/-- **Conservation**: after `init` and any sequence of transfers, creations and deletions. -/
theorem bank_conserves (hinit : 0 ≤ bank.initBalance) (hnb : 1 ≤ bank.nbaccounts)
    (h : (bankMachine bank).Reachable m) : Conserves bank m := by
  have hledger : ∃ cells, Ledger bank m cells 0 := by
    refine h.invariant (P := fun m => ∃ cells, Ledger bank m cells 0) ?_ ?_
    · rintro m ⟨correct, hm⟩
      obtain ⟨m', cells, hm', hcells⟩ := init_spec bank hinit hnb
      rw [hm'] at hm
      obtain ⟨rfl, -⟩ := Prod.mk.inj (Except.ok.inj hm)
      exact ⟨cells, hcells⟩
    · rintro m move m' - ⟨cells, hcells⟩ hstep
      cases move with
      | short sendId recvId =>
          obtain ⟨fuel, done, hok⟩ := hstep
          obtain ⟨-, herror⟩ | ⟨m'', done', cells', hok', hcells'⟩ :=
            hcells.shortTx sendId recvId fuel
          · rw [herror] at hok
            cases hok
          · rw [hok'] at hok
            obtain ⟨rfl, -⟩ := Prod.mk.inj (Except.ok.inj hok)
            exact ⟨cells', hcells'⟩
      | alloc trigger fresh =>
          obtain ⟨hfresh, fuel, hok⟩ := hstep
          obtain ⟨-, herror⟩ | ⟨m'', cells', hok', hcells'⟩ :=
            hcells.allocTx hinit hnb hfresh trigger fuel
          · rw [herror] at hok
            cases hok
          · rw [hok'] at hok
            obtain rfl := Except.ok.inj hok
            exact ⟨cells', hcells'⟩
  obtain ⟨cells, hcells⟩ := hledger
  exact hcells.conserves hinit hnb

def bankStep (bank : WorkloadBank Addr) (fuel : Nat) (m : BankMemory Addr) :
    BankMove Addr → Option (BankMemory Addr)
  | .short sendId recvId => (bank.shortTx m sendId recvId fuel).toOption.map Prod.fst
  | .alloc trigger fresh =>
      if (m fresh).isNone then (bank.allocTx m trigger fresh fuel).toOption else none

theorem bankStep_step {fuel : Nat} {move : BankMove Addr}
    (h : bankStep bank fuel m move = some m') : (bankMachine bank).step m move m' := by
  cases move with
  | short sendId recvId =>
      simp only [bankStep, Option.map_eq_some_iff] at h
      obtain ⟨⟨m'', done⟩, hrun, rfl⟩ := h
      cases hshort : bank.shortTx m sendId recvId fuel with
      | error fault => rw [hshort] at hrun; cases hrun
      | ok result =>
          rw [hshort] at hrun
          cases hrun
          exact ⟨fuel, done, hshort⟩
  | alloc trigger fresh =>
      simp only [bankStep] at h
      split at h
      · rename_i hfresh
        cases halloc : bank.allocTx m trigger fresh fuel with
        | error fault => rw [halloc] at h; cases h
        | ok result =>
            rw [halloc] at h
            cases h
            exact ⟨Option.isNone_iff_eq_none.mp hfresh, fuel, halloc⟩
      · cases h

theorem bankRun_reachable {fuel : Nat} {moves : List (BankMove Addr)}
    (h : (bankMachine bank).Reachable m) (hrun : moves.foldlM (bankStep bank fuel) m = some m') :
    (bankMachine bank).Reachable m' := by
  induction moves generalizing m with
  | nil =>
      cases hrun
      exact h
  | cons move moves ih =>
      rw [List.foldlM_cons] at hrun
      obtain ⟨m₁, hstep, hrest⟩ := Option.bind_eq_some_iff.mp hrun
      exact ih (h.step (bankStep_step hstep)) hrest

/-- An account with a gain of one is deleted with its segment: the first segment keeps the gain. -/
theorem bank_conserves_after_deletion : ∃ m : BankMemory Nat,
    (m 0).map AccountSegment.parity = some 1 ∧ Conserves (⟨0, 2, 100⟩ : WorkloadBank Nat) m := by
  obtain ⟨m₀, -, hm₀, -⟩ :=
    init_spec (⟨0, 2, 100⟩ : WorkloadBank Nat) (by decide) (by decide)
  have hinit : (bankMachine (⟨0, 2, 100⟩ : WorkloadBank Nat)).Reachable m₀ := .init ⟨_, hm₀⟩
  have hrun : ((WorkloadBank.init (⟨0, 2, 100⟩ : WorkloadBank Nat) (.created 0)).toOption.bind
      fun p => ([.short 0 1, .alloc 0 1, .short 0 2, .alloc 0 2] : List (BankMove Nat)).foldlM
        (bankStep ⟨0, 2, 100⟩ 2) p.1).bind (fun m => (m 0).map AccountSegment.parity) = some 1 := by
    decide +kernel
  rw [hm₀] at hrun
  obtain ⟨m, hm, hparity⟩ := Option.bind_eq_some_iff.mp hrun
  exact ⟨m, hparity, bank_conserves (by decide) (by decide) (bankRun_reachable hinit hm)⟩

end TransactionalMemory.Grading
