import TransactionalMemory.Proof.OpenTx
import TransactionalMemory.Proof.Schedules

/-!
# The order in which locks are taken

`tm_end` sorts its write set by `ws_item_cmp`, a pointer difference returned as an `int`. The low 32
bits of the difference of two addresses decide, so the order is that of the addresses exactly where
each such difference lies, modulo `2 ^ 32`, strictly between `0` and `2 ^ 31`.
-/

namespace TransactionalMemory

open Concurrency

variable {V Tid : Type}

/-! ### The comparison function -/

/-- `ws_item_cmp` orders the items strictly and totally, as their addresses are ordered. -/
structure AddrOrder (ws : List (WsItem V)) : Prop where
  antisymm : ∀ a ∈ ws, ∀ b ∈ ws, wsItemCmp a b < 0 ↔ 0 < wsItemCmp b a
  trans : ∀ a ∈ ws, ∀ b ∈ ws, ∀ c ∈ ws, wsItemCmp a b < 0 → wsItemCmp b c < 0 → wsItemCmp a c < 0
  zero : ∀ a ∈ ws, ∀ b ∈ ws, wsItemCmp a b = 0 ↔ a.addr = b.addr
  numeric : ∀ a ∈ ws, ∀ b ∈ ws, wsItemCmp a b < 0 ↔ a.addr < b.addr

/-- The distance from each address to every larger one is positive as an `int`. -/
def Comparable (ws : List (WsItem V)) : Prop :=
  ∀ a ∈ ws, ∀ b ∈ ws, a.addr < b.addr →
    0 < (b.addr.toNat - a.addr.toNat) % 2 ^ 32 ∧ (b.addr.toNat - a.addr.toNat) % 2 ^ 32 < 2 ^ 31

instance (ws : List (WsItem V)) : Decidable (Comparable ws) :=
  inferInstanceAs (Decidable (∀ a ∈ ws, ∀ b ∈ ws, _ → _))

theorem wsItemCmp_eq (a b : WsItem V) :
    wsItemCmp a b = toInt ((a.addr.toNat : Int) - b.addr.toNat) := by
  have ha := a.addr.isLt
  have hb := b.addr.isLt
  have hmod : ((a.addr - b.addr).toInt) % 2 ^ 32 =
      ((a.addr.toNat : Int) - b.addr.toNat) % 2 ^ 32 := by
    rw [BitVec.toInt_eq_toNat_cond, BitVec.toNat_sub]
    split <;> omega
  unfold wsItemCmp toInt
  simp only [Int.bmod_def]
  norm_cast at hmod ⊢
  rw [hmod]

/-- The sign of a distance that `int` narrows. -/
theorem toInt_sub_pos_iff {m n : Nat} (h : n < m) :
    0 < toInt ((m : Int) - n) ↔ 0 < (m - n) % 2 ^ 32 ∧ (m - n) % 2 ^ 32 < 2 ^ 31 := by
  unfold toInt
  rw [Int.bmod_def]
  split <;> omega

theorem toInt_sub_neg_iff {m n : Nat} (h : n < m) (hhalf : (m - n) % 2 ^ 32 < 2 ^ 31) :
    toInt ((n : Int) - m) < 0 ↔ 0 < (m - n) % 2 ^ 32 := by
  unfold toInt
  rw [Int.bmod_def]
  split <;> omega

/-- **When `ws_item_cmp` orders addresses.** -/
theorem addrOrder_iff {ws : List (WsItem V)} : AddrOrder ws ↔ Comparable ws := by
  constructor
  · intro h a ha b hb hlt
    have hpos : 0 < wsItemCmp b a := (h.antisymm a ha b hb).mp ((h.numeric a ha b hb).mpr hlt)
    rw [wsItemCmp_eq] at hpos
    exact (toInt_sub_pos_iff (BitVec.lt_def.mp hlt)).mp hpos
  · intro h
    have hnumeric : ∀ a ∈ ws, ∀ b ∈ ws, a.addr < b.addr →
        wsItemCmp a b < 0 ∧ 0 < wsItemCmp b a := by
      intro a ha b hb hlt
      have hdistance := h a ha b hb hlt
      rw [wsItemCmp_eq, wsItemCmp_eq]
      exact ⟨(toInt_sub_neg_iff (BitVec.lt_def.mp hlt) hdistance.2).mpr hdistance.1,
        (toInt_sub_pos_iff (BitVec.lt_def.mp hlt)).mpr hdistance⟩
    have hequal : ∀ a b : WsItem V, a.addr = b.addr → wsItemCmp a b = 0 := by
      intro a b heq
      rw [wsItemCmp_eq, heq, sub_self]
      decide
    -- the three ways two addresses compare
    have hcases : ∀ a ∈ ws, ∀ b ∈ ws, (a.addr < b.addr ∧ wsItemCmp a b < 0 ∧ 0 < wsItemCmp b a) ∨
        (a.addr = b.addr ∧ wsItemCmp a b = 0 ∧ wsItemCmp b a = 0) ∨
        (b.addr < a.addr ∧ wsItemCmp b a < 0 ∧ 0 < wsItemCmp a b) := by
      intro a ha b hb
      rcases lt_trichotomy a.addr.toNat b.addr.toNat with hlt | heq | hgt
      · exact Or.inl ⟨BitVec.lt_def.mpr hlt, hnumeric a ha b hb (BitVec.lt_def.mpr hlt)⟩
      · have haddr := BitVec.eq_of_toNat_eq heq
        exact Or.inr (Or.inl ⟨haddr, hequal a b haddr, hequal b a haddr.symm⟩)
      · exact Or.inr (Or.inr ⟨BitVec.lt_def.mpr hgt, hnumeric b hb a ha (BitVec.lt_def.mpr hgt)⟩)
    have hiff : ∀ a ∈ ws, ∀ b ∈ ws, wsItemCmp a b < 0 ↔ a.addr < b.addr := by
      intro a ha b hb
      rw [BitVec.lt_def]
      rcases hcases a ha b hb with ⟨hlt, _, _⟩ | ⟨heq, _, _⟩ | ⟨hgt, _, _⟩
      · have := BitVec.lt_def.mp hlt
        omega
      · rw [heq]
        omega
      · have := BitVec.lt_def.mp hgt
        omega
    refine ⟨fun a ha b hb => ?_, fun a ha b hb c hc hab hbc => ?_, fun a ha b hb => ?_, hiff⟩
    · have := hcases a ha b hb
      omega
    · rw [hiff _ ha _ hb, BitVec.lt_def] at hab
      rw [hiff _ hb _ hc, BitVec.lt_def] at hbc
      rw [hiff _ ha _ hc, BitVec.lt_def]
      omega
    · refine ⟨fun hzero => ?_, hequal a b⟩
      rcases hcases a ha b hb with ⟨_, _, _⟩ | ⟨heq, _⟩ | ⟨_, _, _⟩
      · omega
      · exact heq
      · omega

/-! ### The sorted write set -/

/-- `qsort` sorts by every comparison function that orders the items it is given. -/
def Platform.Sorts (platform : Platform V) : Prop := ∀ cmp items,
  (∀ a ∈ items, ∀ b ∈ items, cmp a b < 0 ↔ 0 < cmp b a) →
  (∀ a ∈ items, ∀ b ∈ items, ∀ c ∈ items, cmp a b ≤ 0 → cmp b c ≤ 0 → cmp a c ≤ 0) →
  (platform.qsort cmp items).Pairwise fun a b => cmp a b ≤ 0

def Tx.lockOrder (t : Tx V) (platform : Platform V) : List Addr :=
  (platform.qsort wsItemCmp t.ws).map WsItem.addr

theorem Platform.x86_sorts : (Platform.x86 V).Sorts := by
  intro cmp items hantisymm htrans
  let le : {a // a ∈ items} → {a // a ∈ items} → Prop := fun a b => cmp a.1 b.1 ≤ 0
  have htotal : Std.Total le := ⟨fun a b => by
    have := hantisymm a.1 a.2 b.1 b.2
    have := hantisymm b.1 b.2 a.1 a.2
    simp only [le]
    omega⟩
  have htrans' : IsTrans _ le := ⟨fun a b c hab hbc => htrans _ a.2 _ b.2 _ c.2 hab hbc⟩
  have hsorted := List.pairwise_insertionSort le items.attach
  have hmap := List.map_insertionSort le (fun a b => cmp a b ≤ 0) Subtype.val items.attach
    fun _ _ _ _ => Iff.rfl
  rw [List.attach_map_subtype_val] at hmap
  change (items.insertionSort fun a b => cmp a b ≤ 0).Pairwise _
  rw [← hmap, List.pairwise_map]
  exact hsorted

theorem AddrOrder.sorted {ws : List (WsItem V)} {platform : Platform V} (h : AddrOrder ws)
    (hsorts : platform.Sorts) (hnodup : (ws.map WsItem.addr).Nodup) :
    ((platform.qsort wsItemCmp ws).map WsItem.addr).Pairwise (· < ·) := by
  have hperm := platform.qsort_perm wsItemCmp ws
  have hle : ∀ a ∈ ws, ∀ b ∈ ws, wsItemCmp a b ≤ 0 ↔ a.addr.toNat ≤ b.addr.toNat := by
    intro a ha b hb
    have hlt := h.numeric b hb a ha
    have hanti := h.antisymm b hb a ha
    rw [BitVec.lt_def] at hlt
    omega
  have hsorted : (platform.qsort wsItemCmp ws).Pairwise fun a b => wsItemCmp a b ≤ 0 := by
    refine hsorts _ _ h.antisymm fun a ha b hb c hc hab hbc => ?_
    rw [hle _ ha _ hb] at hab
    rw [hle _ hb _ hc] at hbc
    rw [hle _ ha _ hc]
    omega
  have hdistinct : (platform.qsort wsItemCmp ws).Pairwise fun a b => a.addr ≠ b.addr :=
    List.pairwise_map.mp ((hperm.map _).nodup_iff.mpr hnodup)
  rw [List.pairwise_map]
  refine (hsorted.and hdistinct).imp_of_mem fun {a b} ha hb hab => ?_
  have hnat := (hle a (hperm.mem_iff.mp ha) b (hperm.mem_iff.mp hb)).mp hab.1
  have hne : a.addr.toNat ≠ b.addr.toNat := fun heq => hab.2 (BitVec.eq_of_toNat_eq heq)
  rw [BitVec.lt_def]
  omega

/-! ### Two transactions -/

/-- Each write set is sorted by address, and what the two have in common they lock in one order. -/
structure LocksInOrder (platform : Platform V) (t t' : Tx V) : Prop where
  order : AddrOrder t.ws
  order' : AddrOrder t'.ws
  sorted : (t.lockOrder platform).Pairwise (· < ·)
  sorted' : (t'.lockOrder platform).Pairwise (· < ·)
  common : (t.lockOrder platform).filter (· ∈ t'.lockOrder platform) =
    (t'.lockOrder platform).filter (· ∈ t.lockOrder platform)

theorem eq_of_pairwise_lt {as bs : List Addr} (ha : as.Pairwise (· < ·)) (hb : bs.Pairwise (· < ·))
    (hmem : ∀ a, a ∈ as ↔ a ∈ bs) : as = bs := by
  have hnodup : ∀ {l : List Addr}, l.Pairwise (· < ·) → l.Nodup := fun h =>
    h.imp fun {a b} hlt (heq : a = b) => BitVec.lt_irrefl b (heq ▸ hlt)
  refine List.Perm.eq_of_pairwise (fun a b _ _ hab hba => ?_) ha hb
    ((List.perm_ext_iff_of_nodup (hnodup ha) (hnodup hb)).mpr hmem)
  exact absurd (BitVec.lt_trans hab hba) (BitVec.lt_irrefl _)

variable [Zero V] [DecidableEq Tid] {platform : Platform V}

/-- **The global lock order.** Two transactions lock in the order of the addresses exactly if in
both write sets the distance from each address to every larger one, modulo `2 ^ 32`, is positive and
below `2 ^ 31`. -/
theorem lock_order (hbit : ∀ pos, platform.bit pos ≠ 0#64) (hsorts : platform.Sorts)
    {s : State Tid V} (h : (system Tid platform).Reachable s) {tid tid' : Tid} {t t' : Tx V}
    (ht : (s.thread tid).tx = some t) (ht' : (s.thread tid').tx = some t') :
    LocksInOrder platform t t' ↔ Comparable t.ws ∧ Comparable t'.ws := by
  constructor
  · intro hlocks
    exact ⟨addrOrder_iff.mp hlocks.order, addrOrder_iff.mp hlocks.order'⟩
  · rintro ⟨hcomparable, hcomparable'⟩
    have horder := addrOrder_iff.mpr hcomparable
    have horder' := addrOrder_iff.mpr hcomparable'
    have hsorted := horder.sorted hsorts (threadFiltered hbit h tid ht).distinct
    have hsorted' := horder'.sorted hsorts (threadFiltered hbit h tid' ht').distinct
    refine ⟨horder, horder', hsorted, hsorted', ?_⟩
    refine eq_of_pairwise_lt (hsorted.filter _) (hsorted'.filter _) fun a => ?_
    simp only [List.mem_filter, decide_eq_true_eq]
    exact and_comm

def Thread.wrote (thread : Thread Nat) (addrs : List Addr) : Bool :=
  thread.tx.any fun t => decide (t.ws.map WsItem.addr = addrs)

theorem Thread.exists_of_wrote {thread : Thread Nat} {addrs : List Addr}
    (h : thread.wrote addrs = true) :
    ∃ t, thread.tx = some t ∧ t.ws.map WsItem.addr = addrs := by
  obtain ⟨t, ht, hws⟩ := (Option.any_eq_true _ _).mp h
  exact ⟨t, ht, of_decide_eq_true hws⟩

def Thread.comparable (thread : Thread Nat) : Bool :=
  thread.tx.all fun t => decide (Comparable t.ws)

/-- A schedule of two threads on a region of three words, and the write sets it leads to. -/
theorem exists_writeSets (turns : Schedule Bool Nat) (test : State Bool Nat → Bool)
    (h : (Machine.drive (State.move (Platform.x86 Nat)) (fun _ _ => true) (fun _ _ _ => ())
      (State.fresh Bool Nat (3 * 8) 8, ()) turns).any (fun p => test p.1) = true) :
    ∃ s, (system Bool (Platform.x86 Nat)).Reachable s ∧ test s = true := by
  have hallowed : ∀ (_ : State Bool Nat) (_ : Label Bool Nat), true = true → True :=
    fun _ _ _ => trivial
  obtain ⟨p, hreach, htest⟩ := exists_of_schedule (fun _ _ => true) hallowed
    (State.fresh_init_words 3 (by decide) (by decide)) turns _ h
  exact ⟨p.1, hreach.of_observe.of_restrict, htest⟩

/-- Two transactions write the second word of the region, and each of them another one. -/
def commonWord : Schedule Bool Nat :=
  calls true (.begin false) 3 ++ calls false (.begin false) 3 ++
    calls true (.write [7] 8 (vaFromIndex 0 8)) 3 ++
    calls true (.write [8] 8 (vaFromIndex 0 0)) 3 ++
    calls false (.write [9] 8 (vaFromIndex 0 16)) 3 ++
    calls false (.write [10] 8 (vaFromIndex 0 8)) 3

theorem lock_order_of_words : ∃ t t' : Tx Nat,
    t.ws.map WsItem.addr = [vaFromIndex 0 8, vaFromIndex 0 0] ∧
      t'.ws.map WsItem.addr = [vaFromIndex 0 16, vaFromIndex 0 8] ∧
        LocksInOrder (Platform.x86 Nat) t t' := by
  obtain ⟨s, hreach, htest⟩ := exists_writeSets commonWord (fun s =>
    (s.thread true).wrote [vaFromIndex 0 8, vaFromIndex 0 0] &&
      (s.thread false).wrote [vaFromIndex 0 16, vaFromIndex 0 8] &&
      (s.thread true).comparable && (s.thread false).comparable) (by decide +kernel)
  simp only [Bool.and_eq_true] at htest
  obtain ⟨⟨⟨htrue, hfalse⟩, hcomparable⟩, hcomparable'⟩ := htest
  obtain ⟨t, ht, hws⟩ := Thread.exists_of_wrote htrue
  obtain ⟨t', ht', hws'⟩ := Thread.exists_of_wrote hfalse
  rw [Thread.comparable, ht] at hcomparable
  rw [Thread.comparable, ht'] at hcomparable'
  exact ⟨t, t', hws, hws', (lock_order (Platform.x86_bit Nat) Platform.x86_sorts hreach ht ht').mpr
    ⟨of_decide_eq_true hcomparable, of_decide_eq_true hcomparable'⟩⟩

def twoSegments : Schedule Bool Nat :=
  calls true (.begin false) 3 ++ calls true (.alloc 8) 8 ++
    calls true (.write [7] 8 (vaFromIndex 0 0)) 3 ++ calls true (.write [8] 8 (vaFromIndex 1 0)) 3

/-- **Segments are not told apart.** Words at one offset of two segments compare as equal. -/
theorem segments_compare_equal : ¬ ∀ s : State Bool Nat,
    (system Bool (Platform.x86 Nat)).Reachable s → ∀ tid tid' t t',
      (s.thread tid).tx = some t → (s.thread tid').tx = some t' →
        LocksInOrder (Platform.x86 Nat) t t' := by
  intro hall
  obtain ⟨s, hreach, htest⟩ := exists_writeSets twoSegments
    (fun s => (s.thread true).wrote [vaFromIndex 0 0, vaFromIndex 1 0]) (by decide +kernel)
  obtain ⟨t, ht, hws⟩ := Thread.exists_of_wrote htest
  have horder := (hall s hreach true true t t ht ht).order
  obtain ⟨a, b, hab⟩ : ∃ a b, t.ws = [a, b] :=
    List.length_eq_two.mp (by simpa using congrArg List.length hws)
  rw [hab, List.map_cons, List.map_cons, List.map_nil] at hws
  obtain ⟨ha, hb⟩ : a.addr = vaFromIndex 0 0 ∧ b.addr = vaFromIndex 1 0 := by simpa using hws
  have hzero : wsItemCmp a b = 0 := by
    rw [wsItemCmp, ha, hb]
    decide
  have heq := (horder.zero a (by simp [hab]) b (by simp [hab])).mp hzero
  rw [ha, hb] at heq
  exact absurd heq (by decide)

end TransactionalMemory
