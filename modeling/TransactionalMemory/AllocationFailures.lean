import TransactionalMemory.Model.TxMemory
import TransactionalMemory.Proof.Growth
import TransactionalMemory.Proof.Ranges

/-!
# Allocation failures in `tm_read` and `tm_write`

A buffer that cannot be allocated makes `tm_write` fail, with everything it had freed once. An array
that cannot grow is another matter: its only pointer is gone, `tm_read` goes on and answers `true`
for a word it has not recorded, and `tm_write` has `transaction_cleanup` walk the null pointer.
-/

namespace TransactionalMemory

open Concurrency

variable {V : Type} {bit : Int → BitVec 64} {t t' : TxMemory} {tm : Tm V} {s s' : TxState V}

/-! ### What is asked of a call -/

structure TxMemory.Room (t : TxMemory) : Prop where
  rs : ∃ items, t.rs = .array items ∧ (items.length : Int) ≤ t.rsSz
  ws : ∃ items, t.ws = .array items ∧ (items.length : Int) ≤ t.wsSz

/-- The word at this address came from the write set, or commit will validate it. -/
def TxMemory.Served (t : TxMemory) (addr : Addr) (w : Word) : Prop :=
  (∃ item ∈ t.ws.items, item.addr = addr) ∨ ∃ item ∈ t.rs.items, item.versionedLock = some w

def TxMemory.Stored (t : TxMemory) (addr : Addr) : Prop := ∃ item ∈ t.ws.items, item.addr = addr

def Tm.FirstWords (tm : Tm V) (addr : Addr) (size n : Nat) (P : Addr → Word → Prop) : Prop :=
  ∀ i < n, ∀ w, (tm.named addr size)[i]? = some w → P (addr + BitVec.ofNat 64 (i * tm.align)) w

def Tm.EveryWord (tm : Tm V) (addr : Addr) (size : Nat) (P : Addr → Word → Prop) : Prop :=
  tm.FirstWords addr size (tm.named addr size).length P

/-- **A call has dealt with its allocations**: one that succeeded has all its words and both arrays,
one that failed has freed every buffer once, and no array was read through a null pointer. -/
def TxState.Handled (s : TxState V) : Prop :=
  match s.point with
  | .hasRead tm source size => tm.EveryWord source size s.memory.Served ∧ s.memory.Room
  | .hasWritten tm target size =>
      tm.EveryWord target size (fun addr _ => s.memory.Stored addr) ∧ s.memory.Room
  | .disposed freed => ∀ b, freed.count b = if b < s.memory.buffers then 1 else 0
  | .faulted => False
  | .outside | .reading _ _ _ _ _ | .writing _ _ _ _ _ => True

/-- The word has to be recorded and the read set is full, but does not grow. -/
def TxMemory.ReadResizeFails (bit : Int → BitVec 64) (t : TxMemory) (curr : Addr) (w : Word)
    (turn : ReadTurn) : Prop :=
  t.lookup bit curr = .next none ∧ turn.before ≠ -1 ∧ turn.before ≤ t.rv ∧
    turn.after = turn.before ∧ (∀ item ∈ t.rs.items, item.versionedLock ≠ some w) ∧
    t.rsSz ≤ t.rs.length ∧ turn.reallocOk = false

/-- The word has to be added and the write set is full, but does not grow. -/
def TxMemory.WriteResizeFails (bit : Int → BitVec 64) (t : TxMemory) (curr : Addr)
    (turn : WriteTurn) : Prop :=
  turn.version ≠ -1 ∧ turn.version ≤ t.rv ∧ t.lookup bit curr = .next none ∧
    (t.ws.length : Int) = t.wsSz ∧ turn.reallocOk = false

def Tm.Locked (tm : Tm V) (addr : Addr) (size : Nat) : Prop :=
  ∀ w ∈ tm.named addr size, tm.valid w = true

/-- The range of a call is within `int` and has its locks, and no array that is full fails to grow.
-/
def CallGranted (bit : Int → BitVec 64) (s : TxState V) : TxAction V → Prop
  | .read tm source size => tm.ReadFits source size ∧ tm.Locked source size
  | .write tm _ size target => tm.WordsFit target size ∧ tm.Locked target size
  | .readTurn turn =>
      match s.point with
      | .reading tm _ _ c i => ∀ curr w, c.curr i = some curr →
          tm.wordAt c.seg (c.startWord + i) = some w → ¬ s.memory.ReadResizeFails bit curr w turn
      | _ => True
  | .writeTurn turn =>
      match s.point with
      | .writing tm _ _ c i => ¬ s.memory.WriteResizeFails bit (c.curr tm i) turn
      | _ => True
  | .ret => True

/-! ### One turn -/

structure TxMemory.Good (t : TxMemory) : Prop where
  rs : ∃ items, t.rs = .array items ∧ (items.length : Int) ≤ t.rsSz
  rsSz : 8 ≤ t.rsSz
  ws : ∃ items, t.ws = .array items ∧ (items.length : Int) ≤ t.wsSz ∧
    items.map WsItem.value = List.range t.buffers
  wsSz : 8 ≤ t.wsSz

namespace TxMemory.Good

theorem start {rv : Int} {bloom : Bf} : (TxMemory.start rv bloom).Good := by
  refine ⟨⟨[], rfl, ?_⟩, ?_, ⟨[], rfl, ?_, rfl⟩, ?_⟩ <;> simp [TxMemory.start, vecInitial]

theorem room (h : t.Good) : t.Room := by
  obtain ⟨ws, hws, hlength, -⟩ := h.ws
  exact ⟨h.rs, ws, hws, hlength⟩

/-- **Cleaning up** frees each buffer once. -/
theorem transactionCleanup (h : t.Good) :
    t.transactionCleanup = .next (List.range t.buffers) := by
  obtain ⟨ws, hws, -, hvalues⟩ := h.ws
  simp only [TxMemory.transactionCleanup, hws, hvalues]

/-- A lookup in the write set finds an entry of the address, or nothing. -/
theorem lookup_cases (h : t.Good) (bit : Int → BitVec 64) (addr : Addr) :
    t.lookup bit addr = .next none ∨
      ∃ item ∈ t.ws.items, item.addr = addr ∧ t.lookup bit addr = .next (some item) := by
  obtain ⟨ws, hws, -⟩ := h.ws
  unfold TxMemory.lookup
  split
  · rw [hws]
    cases hfind : ws.find? fun item => item.addr = addr with
    | none => exact Or.inl (congrArg _ hfind)
    | some item =>
        have haddr := List.find?_some hfind
        exact Or.inr ⟨item, List.mem_of_find?_eq_some hfind, of_decide_eq_true haddr,
          congrArg _ hfind⟩
  · exact Or.inl rfl

/-- `add_to_readset` records the word, unless the array does not grow. -/
theorem addToReadset (h : t.Good) {lock : Word} (versionRead : Int) {reallocOk : Bool}
    (hok : (∀ item ∈ t.rs.items, item.versionedLock ≠ some lock) → t.rsSz ≤ t.rs.length →
      reallocOk = true) :
    ∃ t', t.addToReadset lock versionRead reallocOk = .next (true, t') ∧ t'.Good ∧ t'.ws = t.ws ∧
      (∀ item ∈ t.rs.items, item ∈ t'.rs.items) ∧
      ∃ item ∈ t'.rs.items, item.versionedLock = some lock := by
  obtain ⟨rs, hrs, hlength⟩ := h.rs
  have hresize := lt_resize h.rsSz
  unfold TxMemory.addToReadset
  rw [hrs] at hok ⊢
  cases hfind : rs.find? fun item => item.versionedLock = some lock with
  | some item =>
      have hlock := List.find?_some hfind
      refine ⟨t, by simp only [Vec.find, hfind], h, rfl, fun _ => by rw [hrs]; exact id, item, ?_,
        of_decide_eq_true hlock⟩
      rw [hrs]
      exact List.mem_of_find?_eq_some hfind
  | none =>
      have hnew : ∀ item ∈ rs, item.versionedLock ≠ some lock := fun item hmem hlock =>
        List.find?_eq_none.mp hfind item hmem (decide_eq_true hlock)
      have hok := hok hnew
      let sz := if t.rsSz ≤ rs.length then resize t.rsSz else t.rsSz
      have hroom : (rs.length : Int) < sz ∧ t.rsSz ≤ sz := by
        simp only [sz]
        split <;> omega
      refine ⟨{ t with rs := .array (rs ++ [⟨versionRead, some lock⟩]), rsSz := sz }, ?_,
        ⟨⟨_, rfl, ?_⟩, h.rsSz.trans hroom.2, h.ws, h.wsSz⟩, rfl, fun item hmem => ?_, _,
        List.mem_append_right _ List.mem_cons_self, rfl⟩
      · by_cases hfull : t.rsSz ≤ rs.length
        · have hlt : (rs.length : Int) < resize t.rsSz := by omega
          simp [Vec.find, hfind, Vec.length, Vec.store, hfull, hok hfull, hlt, sz]
        · have hlt : (rs.length : Int) < t.rsSz := by omega
          simp [Vec.find, hfind, Vec.length, Vec.store, hfull, hlt, sz]
      · rw [List.length_append]
        exact hroom.1
      · exact List.mem_append_left _ hmem

/-- **A turn of `tm_read`** has its word served, or ends the call. -/
theorem tmReadTurn (h : t.Good) {curr : Addr} {w copied : Word} {turn : ReadTurn}
    (hok : ¬ t.ReadResizeFails bit curr w turn) :
    t.tmReadTurn bit curr (some w) (some copied) turn = .next (false, t) ∨
      ∃ t', t.tmReadTurn bit curr (some w) (some copied) turn = .next (true, t') ∧ t'.Good ∧
        t'.ws = t.ws ∧ (∀ item ∈ t.rs.items, item ∈ t'.rs.items) ∧ t'.Served curr w := by
  unfold TxMemory.tmReadTurn
  rcases h.lookup_cases bit curr with hmiss | ⟨item, hmem, haddr, hhit⟩
  · rw [hmiss]
    by_cases hrefused : turn.before = -1 ∨ t.rv < turn.before
    · exact Or.inl (by simp only [if_pos hrefused])
    · obtain ⟨hfree, hold⟩ := not_or.mp hrefused
      by_cases hchanged : turn.after ≠ turn.before
      · exact Or.inl (by simp only [if_neg hrefused, reduceCtorEq, if_false, if_pos hchanged])
      · have hresize : (∀ item ∈ t.rs.items, item.versionedLock ≠ some w) →
            t.rsSz ≤ t.rs.length → turn.reallocOk = true := by
          intro hnew hfull
          by_contra hfail
          exact hok ⟨hmiss, hfree, not_lt.mp hold, not_not.mp hchanged, hnew, hfull,
            Bool.eq_false_iff.mpr hfail⟩
        obtain ⟨t', hadd, hgood, hws, hkeep, hnew⟩ := h.addToReadset turn.before hresize
        refine Or.inr ⟨t', ?_, hgood, hws, hkeep, Or.inr hnew⟩
        simp only [if_neg hrefused, reduceCtorEq, if_false, if_neg hchanged, hadd]
  · rw [hhit]
    exact Or.inr ⟨t, rfl, h, rfl, fun _ => id, Or.inl ⟨item, hmem, haddr⟩⟩

/-- **A turn of `tm_write`** has its word stored, or ends the call. -/
theorem tmWriteTurn (h : t.Good) {curr : Addr} {w : Word} {turn : WriteTurn}
    (hok : ¬ t.WriteResizeFails bit curr turn) :
    (∃ t', t.tmWriteTurn bit curr w turn = .next (false, t') ∧ t'.Good ∧ t'.buffers = t.buffers) ∨
      ∃ t', t.tmWriteTurn bit curr w turn = .next (true, t') ∧ t'.Good ∧
        (∀ item ∈ t.ws.items, item ∈ t'.ws.items) ∧ t'.Stored curr := by
  obtain ⟨rs, hrs, hrsLength⟩ := h.rs
  obtain ⟨ws, hws, hlength, hvalues⟩ := h.ws
  have hresize := lt_resize h.wsSz
  unfold TxMemory.tmWriteTurn
  by_cases hrefused : turn.version = -1 ∨ t.rv < turn.version
  · exact Or.inl ⟨t, by simp only [if_pos hrefused], h, rfl⟩
  rw [if_neg hrefused]
  obtain ⟨hfree, hold⟩ := not_or.mp hrefused
  rcases h.lookup_cases bit curr with hmiss | ⟨item, hmem, haddr, hhit⟩
  · let sz := if (ws.length : Int) = t.wsSz then resize t.wsSz else t.wsSz
    have hroom : (ws.length : Int) < sz ∧ t.wsSz ≤ sz := by
      simp only [sz]
      split <;> omega
    have hgrown : (decide ((ws.length : Int) = t.wsSz) && !turn.reallocOk) = false := by
      by_cases hfull : (ws.length : Int) = t.wsSz
      · have hgrows : turn.reallocOk = true := by
          by_contra hfail
          exact hok ⟨hfree, not_lt.mp hold, hmiss, by rw [hws]; exact hfull,
            Bool.eq_false_iff.mpr hfail⟩
        simp [hgrows]
      · simp [hfull]
    rw [hmiss]
    simp only [hws, Vec.length, hgrown, Bool.false_eq_true, if_false, decide_eq_true_eq, Vec.store]
    by_cases hmalloc : turn.mallocOk = true
    · right
      refine ⟨{ t with
        ws := .array (ws ++ [⟨curr, t.buffers, w, w⟩])
        wsSz := sz
        wsBloom := bfAdd bit t.wsBloom curr
        buffers := t.buffers + 1
        rs := .array (Tx.eraseLock rs w) }, ?_, ⟨⟨_, rfl, ?_⟩, h.rsSz, ⟨_, rfl, ?_, ?_⟩,
          h.wsSz.trans hroom.2⟩, fun item hmem => ?_, _,
          List.mem_append_right _ List.mem_cons_self, rfl⟩
      · simp only [hmalloc, Bool.not_true, Bool.false_eq_true, if_false, if_pos hroom.1,
          TxMemory.eraseLock, hrs, sz]
      · rw [Tx.Roomy.length_eraseLock]
        exact hrsLength
      · rw [List.length_append]
        exact hroom.1
      · rw [List.map_append, hvalues, List.range_succ]
        rfl
      · exact List.mem_append_left _ hmem
    · left
      refine ⟨{ t with wsSz := sz }, ?_, ⟨⟨rs, hrs, hrsLength⟩, h.rsSz, ⟨ws, hws, ?_, hvalues⟩,
        h.wsSz.trans hroom.2⟩, rfl⟩
      · simp only [Bool.not_eq_true] at hmalloc
        simp only [hmalloc, Bool.not_false, if_true, hws, sz]
      · exact hlength.trans hroom.2
  · right
    rw [hhit]
    exact ⟨t, rfl, h, fun _ => id, item, hmem, haddr⟩

end TxMemory.Good

/-! ### The words of a call -/

/-- Turn `i` of the loop of `tm_read` is at word `i` of its range. -/
structure ReadCall.Exact (tm : Tm V) (source : Addr) (size : Nat) (c : ReadCall) : Prop where
  length : c.numWords = (tm.named source size).length
  turn : ∀ (i : Nat) w, (tm.named source size)[i]? = some w →
    c.curr i = some (source + BitVec.ofNat 64 (i * tm.align)) ∧
      tm.wordAt c.seg (c.startWord + i) = some w ∧ c.wordAt tm i = some w

structure WriteCall.Exact (tm : Tm V) (target : Addr) (size : Nat) (c : WriteCall V) : Prop where
  length : c.numWords = (tm.named target size).length
  turn : ∀ (i : Nat) w, (tm.named target size)[i]? = some w →
    c.curr tm i = target + BitVec.ofNat 64 (i * tm.align) ∧
      tm.wordAt c.seg (c.idxStart + i) = some w

theorem tmReadCall_exact {g : SegId} {source : Addr} {size : Nat} {c : ReadCall}
    (halign : 8 ∣ tm.align) (hrange : tm.range source size = some g)
    (hfits : tm.ReadFits source size) (hlocked : tm.Locked source size)
    (hcall : tmReadCall tm g source size = some c) : c.Exact tm source size := by
  have hwords := tmReadCall_words halign hrange hfits hcall
  obtain ⟨-, hsource, hstep, hstart, hnum⟩ := tmReadCall_fields halign hrange hfits hcall
  obtain ⟨seg, -, -, -, -, ⟨n, hn⟩, ⟨first, hfirst⟩, -⟩ := Tm.range_eq_some hrange
  have hlength := hwords.length
  refine ⟨hlength, fun i w hw => ?_⟩
  have hword := hwords.wordAt_eq hw (hlocked w (List.mem_of_getElem? hw))
  have hi : i < (tm.named source size).length := (List.getElem?_eq_some_iff.mp hw).1
  have hpos : 0 < tm.align := Nat.pos_of_ne_zero fun hzero => by
    rw [hzero, Nat.div_zero] at hnum
    omega
  rw [hn, Nat.mul_div_cancel_left _ hpos] at hnum
  rw [hfirst, Nat.mul_div_cancel_left _ hpos] at hstart
  -- the last byte of the range is the widest product that `tm_read` forms
  have hbytes : (first + i) * tm.align < 2 ^ 31 := by
    have hend : (first + i + 1) * tm.align ≤ (first + n) * tm.align :=
      Nat.mul_le_mul_right _ (by omega)
    have hall : (first + n) * tm.align ≤ 2 ^ 31 := by
      rw [Nat.add_mul, Nat.mul_comm first, Nat.mul_comm n, ← hfirst, ← hn]
      exact hfits.2
    rw [Nat.add_mul _ 1, Nat.one_mul] at hend
    omega
  have hoffset : i * tm.align < 2 ^ 31 :=
    (Nat.mul_le_mul_right _ (Nat.le_add_left i first)).trans_lt hbytes
  have hdata : checkedInt ((c.startWord + i) * c.align) ≠ none := by
    rw [hstart, hstep, ← Nat.cast_add, ← Nat.cast_mul, checkedInt, if_pos ⟨by omega, by omega⟩]
    simp
  refine ⟨?_, hword, by rw [ReadCall.wordAt, if_neg hdata, hword]⟩
  rw [ReadCall.curr, hsource, hstep, ← Nat.cast_mul, checkedInt, if_pos ⟨by omega, by omega⟩,
    Option.map_some, BitVec.ofInt_natCast]

theorem tmWriteCall_exact {g : SegId} {source : List V} {target : Addr} {size : Nat}
    (hrange : tm.range target size = some g) (hfits : tm.WordsFit target size)
    (hlocked : tm.Locked target size) :
    (tmWriteCall tm g source size target).Exact tm target size := by
  have hwords : CallWords g (tmWriteCall tm g source size target).idxStart
      (tmWriteCall tm g source size target).numWords _ := tmWriteCall_words hrange hfits
  exact ⟨hwords.length, fun i w hw =>
    ⟨rfl, hwords.wordAt_eq hw (hlocked w (List.mem_of_getElem? hw))⟩⟩

theorem Tm.FirstWords.zero {addr : Addr} {size : Nat} {P : Addr → Word → Prop} :
    tm.FirstWords addr size 0 P :=
  fun i hi => absurd hi (Nat.not_lt_zero i)

/-- One more word, with a property that is not lost. -/
theorem Tm.FirstWords.succ {addr : Addr} {size i : Nat} {P Q : Addr → Word → Prop} {w : Word}
    (h : tm.FirstWords addr size i P) (hkeep : ∀ curr w, P curr w → Q curr w)
    (hw : (tm.named addr size)[i]? = some w) (hnew : Q (addr + BitVec.ofNat 64 (i * tm.align)) w) :
    tm.FirstWords addr size (i + 1) Q := by
  intro k hk w' hw'
  rcases Nat.lt_succ_iff_lt_or_eq.mp hk with hlt | rfl
  · exact hkeep _ _ (h k hlt w' hw')
  · rw [hw] at hw'
    cases hw'
    exact hnew

/-! ### Runs -/

def TxState.Kept (s : TxState V) : Prop :=
  match s.point with
  | .outside => s.memory.Good
  | .reading tm source size c i => s.memory.Good ∧ c.Exact tm source size ∧
      tm.FirstWords source size i s.memory.Served
  | .writing tm target size c i => s.memory.Good ∧ c.Exact tm target size ∧
      tm.FirstWords target size i fun addr _ => s.memory.Stored addr
  | .hasRead tm source size => s.memory.Good ∧ tm.EveryWord source size s.memory.Served
  | .hasWritten tm target size => s.memory.Good ∧
      tm.EveryWord target size fun addr _ => s.memory.Stored addr
  | .disposed freed => ∀ b, freed.count b = if b < s.memory.buffers then 1 else 0
  | .faulted => False

namespace TxState.Kept

theorem handled (h : s.Kept) : s.Handled := by
  obtain ⟨t, point⟩ := s
  cases point with
  | hasRead | hasWritten => exact ⟨h.2, h.1.room⟩
  | disposed freed => exact h
  | faulted => exact h
  | outside | reading | writing => trivial

theorem good_of_open (h : s.Kept) (hopen : s.point.isOpen = true) : s.memory.Good := by
  obtain ⟨t, point⟩ := s
  cases point with
  | outside => exact h
  | hasRead | hasWritten => exact h.1
  | reading | writing | disposed | faulted => cases hopen

theorem of_failed (h : t'.Good) (point : CallPoint V) (t : TxMemory) :
    (TxState.afterTurn point (.next (false, t')) t).Kept := by
  simp only [TxState.afterTurn, h.transactionCleanup]
  intro b
  simp only [List.nodup_range.count, List.mem_range]

theorem readTurn {source : Addr} {size i : Nat} {c : ReadCall} {turn : ReadTurn}
    (h : TxState.Kept ⟨t, .reading tm source size c i⟩)
    (hok : CallGranted bit ⟨t, .reading tm source size c i⟩ (.readTurn turn))
    (hi : (i : Int) < c.numWords) : (TxState.readStep bit t tm source size c i turn).Kept := by
  obtain ⟨hgood, hexact, hserved⟩ := h
  have hlength := hexact.length
  have hlt : i < (tm.named source size).length := by omega
  have hw := List.getElem?_eq_getElem hlt
  obtain ⟨hcurr, hlock, hcopied⟩ := hexact.turn i _ hw
  simp only [TxState.readStep, hcurr, hlock, hcopied]
  rcases hgood.tmReadTurn (hok _ _ hcurr hlock) with hfailed | ⟨t', hturn, hgood', hws, hkeep, hnew⟩
  · rw [hfailed]
    exact of_failed hgood _ _
  · rw [hturn]
    refine ⟨hgood', hexact, hserved.succ (fun curr w hold => ?_) hw hnew⟩
    rcases hold with hstored | ⟨item, hitem, hitemLock⟩
    · exact Or.inl (hws ▸ hstored)
    · exact Or.inr ⟨item, hkeep item hitem, hitemLock⟩

theorem writeTurn {target : Addr} {size i : Nat} {c : WriteCall V} {turn : WriteTurn}
    (h : TxState.Kept ⟨t, .writing tm target size c i⟩)
    (hok : CallGranted bit ⟨t, .writing tm target size c i⟩ (.writeTurn turn))
    (hi : (i : Int) < c.numWords) : (TxState.writeStep bit t tm target size c i turn).Kept := by
  obtain ⟨hgood, hexact, hstored⟩ := h
  have hlength := hexact.length
  have hlt : i < (tm.named target size).length := by omega
  have hw := List.getElem?_eq_getElem hlt
  obtain ⟨hcurr, hlock⟩ := hexact.turn i _ hw
  simp only [TxState.writeStep, hlock]
  rcases hgood.tmWriteTurn hok with ⟨t', hfailed, hgood', -⟩ | ⟨t', hturn, hgood', hkeep, hnew⟩
  · rw [hfailed]
    exact of_failed hgood' _ _
  · rw [hturn]
    rw [hcurr] at hnew
    refine ⟨hgood', hexact, hstored.succ (fun curr w hold => ?_) hw hnew⟩
    obtain ⟨item, hitem, haddr⟩ := hold
    exact ⟨item, hkeep item hitem, haddr⟩

/-- **One step** of a call that is granted what it needs. -/
theorem step {a : TxAction V} (h : s.Kept) (hok : CallGranted bit s a)
    (hstep : s.step bit a = some s') : s'.Kept := by
  cases a with
  | read tm source size =>
      simp only [TxState.step] at hstep
      split at hstep
      · rename_i hopen
        obtain ⟨g, hrange, rfl⟩ := Option.map_eq_some_iff.mp hstep
        have hgood := h.good_of_open hopen.1
        have halign : 0 < tm.align := by
          obtain ⟨seg, -, -, -, hpos, hsize, -, -⟩ := Tm.range_eq_some hrange
          exact Nat.pos_of_dvd_of_pos hsize hpos
        cases tmReadCall_eq g halign hok.1 with
        | intro c hcall =>
            simp only [hcall]
            exact ⟨hgood, tmReadCall_exact hopen.2 hrange hok.1 hok.2 hcall, Tm.FirstWords.zero⟩
      · cases hstep
  | write tm source size target =>
      simp only [TxState.step] at hstep
      split at hstep
      · rename_i hopen
        obtain ⟨g, hrange, rfl⟩ := Option.map_eq_some_iff.mp hstep
        exact ⟨h.good_of_open hopen.1, tmWriteCall_exact hrange hok.1 hok.2, Tm.FirstWords.zero⟩
      · cases hstep
  | readTurn turn =>
      obtain ⟨t, point⟩ := s
      cases point with
      | reading tm source size c i =>
          simp only [TxState.step] at hstep
          split at hstep
          · obtain rfl := Option.some.inj hstep
            exact h.readTurn hok ‹_›
          · cases hstep
      | _ => cases hstep
  | writeTurn turn =>
      obtain ⟨t, point⟩ := s
      cases point with
      | writing tm target size c i =>
          simp only [TxState.step] at hstep
          split at hstep
          · obtain rfl := Option.some.inj hstep
            exact h.writeTurn hok ‹_›
          · cases hstep
      | _ => cases hstep
  | ret =>
      obtain ⟨t, point⟩ := s
      cases point with
      | reading tm addr size c i | writing tm addr size c i =>
          simp only [TxState.step] at hstep
          split at hstep
          · cases hstep
          · rename_i hdone
            obtain rfl := Option.some.inj hstep
            obtain ⟨hgood, hexact, hfirst⟩ := h
            have hlength := hexact.length
            -- the loop has been through the whole range
            exact ⟨hgood, fun k hk => hfirst k (by omega)⟩
      | _ => cases hstep

end TxState.Kept

/-- **Allocation failures are dealt with, but for those of full arrays.** In every run of a
read-write transaction whose ranges fit and in which an array that is full grows, whatever other
allocations fail, every call that succeeds has every word of its range and both arrays, and every
call that fails has freed each buffer once. -/
theorem handled_of_granted
    (h : ((txMachine V bit).restrict (CallGranted bit)).Reachable s) : s.Handled := by
  have hkept : s.Kept := by
    refine h.invariant (P := TxState.Kept) (fun s hs => ?_) fun s a s' _ ih hs => ?_
    · obtain ⟨rv, bloom, rfl⟩ := hs
      exact TxMemory.Good.start
    · exact ih.step hs.1 hs.2
  exact hkept.handled

/-! ### Runs on fixed inputs -/

def freshRead (reallocOk : Bool) : TxAction Nat := .readTurn ⟨0, 0, reallocOk⟩

def freshWrite (reallocOk mallocOk : Bool) : TxAction Nat := .writeTurn ⟨0, reallocOk, mallocOk⟩

def callGranted (_ : TxState Nat) : TxAction Nat → Bool
  | .read tm source size => decide (tm.ReadFits source size) && (tm.named source size).all tm.valid
  | .write tm _ size target =>
      decide (tm.WordsFit target size) && (tm.named target size).all tm.valid
  | .readTurn turn => turn.reallocOk
  | .writeTurn turn => turn.reallocOk
  | .ret => true

theorem callGranted_sound (s : TxState Nat) (a : TxAction Nat) (h : callGranted s a = true) :
    CallGranted bit s a := by
  obtain ⟨t, point⟩ := s
  cases a with
  | read tm source size =>
      rw [callGranted, Bool.and_eq_true, decide_eq_true_eq, List.all_eq_true] at h
      exact h
  | write tm source size target =>
      rw [callGranted, Bool.and_eq_true, decide_eq_true_eq, List.all_eq_true] at h
      exact h
  | readTurn turn =>
      cases point with
      | reading tm source size c i =>
          rintro curr w - - ⟨-, -, -, -, -, -, hfail⟩
          exact absurd h (by simp [callGranted, hfail])
      | _ => trivial
  | writeTurn turn =>
      cases point with
      | writing tm target size c i =>
          rintro ⟨-, -, -, -, hfail⟩
          exact absurd h (by simp [callGranted, hfail])
      | _ => trivial
  | ret => trivial

def TxState.after (bit : Int → BitVec 64) (allowed : TxState Nat → TxAction Nat → Bool)
    (actions : List (TxAction Nat)) : Option (TxState Nat × Unit) :=
  Machine.drive (fun s a => (s.step bit a).map fun s' => (a, s')) allowed (fun _ _ => id)
    (⟨.start 0 ⟨0#64, 3⟩, .outside⟩, ()) actions

theorem TxState.reachable_of_after {ok : TxState Nat → TxAction Nat → Prop}
    {allowed : TxState Nat → TxAction Nat → Bool} (hallowed : ∀ s a, allowed s a = true → ok s a)
    {actions : List (TxAction Nat)} {p : TxState Nat × Unit}
    (h : TxState.after bit allowed actions = some p) :
    ((txMachine Nat bit).restrict ok).Reachable p.1 := by
  have hstart : (((txMachine Nat bit).restrict ok).observe () fun _ _ => id).Reachable
      (⟨.start 0 ⟨0#64, 3⟩, .outside⟩, ()) := .init ⟨⟨0, ⟨0#64, 3⟩, rfl⟩, rfl⟩
  refine (hstart.drive (fun s a a' s' hstep => ?_) hallowed h).of_observe
  obtain ⟨s'', hs'', heq⟩ := Option.map_eq_some_iff.mp hstep
  cases heq
  exact hs''

def CallPoint.freed : CallPoint V → Option (List BufferId)
  | .disposed freed => some freed
  | _ => none

def CallPoint.hasReturned : CallPoint V → Bool
  | .hasRead _ _ _ => true
  | _ => false

def Vec.isNull {α : Type} : Vec α → Bool
  | .array _ => false
  | .null _ => true

def nineWords : Tm Nat := Tm.created true 72 8

/-- The second buffer of a call of `tm_write` cannot be allocated: the first one is freed. -/
theorem handled_of_malloc_failure : ∃ s : TxState Nat, s.point.freed = some [0] ∧ s.Handled := by
  have hrun : (TxState.after (Platform.x86 Nat).bit callGranted
      [.read nineWords (vaFromIndex 0 56) 16, freshRead true, freshRead true, .ret,
        .write nineWords [1, 2] 16 (vaFromIndex 0 8), freshWrite true true,
        freshWrite true false]).any (fun p => decide (p.1.point.freed = some [0])) = true := by
    decide +kernel
  obtain ⟨p, hafter, htest⟩ := (Option.any_eq_true _ _).mp hrun
  exact ⟨p.1, of_decide_eq_true htest,
    handled_of_granted (TxState.reachable_of_after callGranted_sound hafter)⟩

/-- A transaction reads nine words, and the read set cannot grow for the last one: `tm_read` answers
`true` with a null read set. -/
theorem not_handled_of_realloc_failure :
    ¬ ∀ s, (txMachine Nat (Platform.x86 Nat).bit).Reachable s → s.Handled := by
  intro hall
  have hrun : (TxState.after (Platform.x86 Nat).bit (fun _ _ => true)
      (.read nineWords (vaFromIndex 0 0) 72 :: List.replicate 8 (freshRead true) ++
        [freshRead false, .ret])).any
        (fun p => p.1.point.hasReturned && p.1.memory.rs.isNull) = true := by
    decide +kernel
  obtain ⟨⟨⟨t, point⟩, record⟩, hafter, htest⟩ := (Option.any_eq_true _ _).mp hrun
  rw [Bool.and_eq_true] at htest
  have hreach : ((txMachine Nat (Platform.x86 Nat).bit).restrict fun _ _ => True).Reachable
      ⟨t, point⟩ := TxState.reachable_of_after (fun _ _ _ => trivial) hafter
  have hhandled := hall _ hreach.of_restrict
  cases point with
  | hasRead tm source size =>
      obtain ⟨items, hitems, -⟩ := hhandled.2.rs
      have hnull : t.rs.isNull = true := htest.2
      rw [hitems] at hnull
      cases hnull
  | _ => cases htest.1

/-! ### Arrays that do not grow -/

/-- **A read set that does not grow is lost**, and `tm_read` answers `true` all the same. -/
theorem lost_of_readResizeFails {curr : Addr} {w copied : Word} {turn : ReadTurn}
    (hfail : t.ReadResizeFails bit curr w turn) (h : t.Good) :
    ∃ t', t.tmReadTurn bit curr (some w) (some copied) turn = .next (true, t') ∧ ¬ t'.Room ∧
      ∀ (tm : Tm V) source size, ¬ TxState.Handled ⟨t', .hasRead tm source size⟩ := by
  obtain ⟨hmiss, hfree, hold, hsame, hnew, hfull, hrealloc⟩ := hfail
  obtain ⟨rs, hrs, hlength⟩ := h.rs
  rw [hrs] at hnew hfull
  have hfind : (rs.find? fun item => item.versionedLock = some w) = none :=
    List.find?_eq_none.mpr fun item hmem hlock => hnew item hmem (of_decide_eq_true hlock)
  let t' : TxMemory := { t with rs := .null rs.length, rsSz := resize t.rsSz }
  have hlost : ¬ t'.Room := by
    rintro ⟨⟨items, hitems, -⟩, -⟩
    cases hitems
  refine ⟨t', ?_, hlost, fun tm source size hhandled => hlost hhandled.2⟩
  have hrefused : ¬ (turn.before = -1 ∨ t.rv < turn.before) := not_or.mpr ⟨hfree, not_lt.mpr hold⟩
  have hfull : t.rsSz ≤ rs.length := hfull
  have hadd : t.addToReadset w turn.before turn.reallocOk = .next (false, t') := by
    unfold TxMemory.addToReadset
    simp [hrs, Vec.find, hfind, Vec.length, hfull, hrealloc, t']
  unfold TxMemory.tmReadTurn
  simp only [hmiss, if_neg hrefused, hsame, ne_eq, not_true_eq_false, reduceCtorEq, if_false]
  rw [hadd]

/-- **A write set that does not grow** is read through a null pointer while it is cleaned up. -/
theorem faulted_of_writeResizeFails {curr : Addr} {w : Word} {turn : WriteTurn}
    (hfail : t.WriteResizeFails bit curr turn) (h : t.Good) :
    ∃ t', t.tmWriteTurn bit curr w turn = .next (false, t') ∧ t'.transactionCleanup = .crash := by
  obtain ⟨hfree, hold, hmiss, hfull, hrealloc⟩ := hfail
  obtain ⟨ws, hws, -⟩ := h.ws
  have hrefused : ¬ (turn.version = -1 ∨ t.rv < turn.version) := not_or.mpr ⟨hfree, not_lt.mpr hold⟩
  refine ⟨{ t with ws := .null t.ws.length, wsSz := resize t.wsSz }, ?_, ?_⟩
  · unfold TxMemory.tmWriteTurn
    simp only [if_neg hrefused, hmiss, hfull, hrealloc]
    simp
  · -- a full write set has at least eight entries
    have hpos : 8 ≤ (t.ws.length : Int) := hfull ▸ h.wsSz
    obtain ⟨n, hn⟩ : ∃ n, t.ws.length = n + 1 := ⟨t.ws.length - 1, by omega⟩
    simp only [TxMemory.transactionCleanup, hn]

/-! ### The write set with its values -/

/-- The transaction of the interleaved model: the buffers are replaced by what they hold. -/
def TxMemory.forget (t : TxMemory) (heap : BufferId → V) : Tx V where
  rv := t.rv
  isRo := false
  ws := t.ws.items.map fun item => ⟨item.addr, heap item.value, item.rawAddr, item.versionedLock⟩
  wsSz := t.wsSz
  wsBloom := t.wsBloom
  rs := match t.rs with
    | .array items => some items
    | .null _ => none
  rsSz := t.rsSz
  toFree := []

section Forget

variable (heap : BufferId → V)

/-- `add_to_readset` is the one of the interleaved model. -/
theorem TxMemory.Good.forget_addToReadset (h : t.Good) {lock : Word} {versionRead : Int}
    {reallocOk ok : Bool} (hadd : t.addToReadset lock versionRead reallocOk = .next (ok, t')) :
    (t.forget heap).addToReadset lock versionRead reallocOk = .next (ok, t'.forget heap) := by
  obtain ⟨rs, hrs, hlength⟩ := h.rs
  have hforget : (t.forget heap).rs = some rs := by simp only [TxMemory.forget, hrs]
  unfold TxMemory.addToReadset at hadd
  unfold Tx.addToReadset
  rw [hrs] at hadd
  rw [hforget]
  cases hfind : rs.find? fun item => item.versionedLock = some lock with
  | some item =>
      simp only [Vec.find, hfind] at hadd
      cases hadd
      have hlock : decide (item.versionedLock = some lock) = true := by
        simpa using List.find?_some hfind
      have hany : (rs.any fun item => item.versionedLock = some lock) = true :=
        List.any_eq_true.mpr ⟨item, List.mem_of_find?_eq_some hfind, hlock⟩
      simp [TxMemory.forget, hany]
  | none =>
      simp only [Vec.find, hfind] at hadd
      have hany : (rs.any fun item => item.versionedLock = some lock) = false :=
        List.any_eq_false.mpr (List.find?_eq_none.mp hfind)
      by_cases hfull : t.rsSz ≤ rs.length
      · cases reallocOk with
        | false =>
            simp [Vec.length, hfull] at hadd
            obtain ⟨rfl, rfl⟩ := hadd
            simp [TxMemory.forget, hany, hfull]
        | true =>
            by_cases hroom : (rs.length : Int) < resize t.rsSz
            · simp [Vec.length, Vec.store, hfull, hroom] at hadd
              obtain ⟨rfl, rfl⟩ := hadd
              simp [TxMemory.forget, hany, hfull, hroom]
            · simp [Vec.length, Vec.store, hfull, hroom] at hadd
      · by_cases hroom : (rs.length : Int) < t.rsSz
        · simp [Vec.length, Vec.store, hfull, hroom] at hadd
          obtain ⟨rfl, rfl⟩ := hadd
          simp [TxMemory.forget, hany, hfull, hroom]
        · simp [Vec.length, Vec.store, hfull, hroom] at hadd

theorem TxMemory.Good.value_lt (h : t.Good) : ∀ item ∈ t.ws.items, item.value < t.buffers := by
  obtain ⟨ws, hws, -, hvalues⟩ := h.ws
  intro item hmem
  rw [hws] at hmem
  have hvalue : item.value ∈ ws.map WsItem.value := List.mem_map_of_mem hmem
  rwa [hvalues, List.mem_range] at hvalue

/-- A word that `tm_write` adds is one that the interleaved model appends, with the new buffer's
value. -/
theorem TxMemory.Good.forget_tmWriteTurn (h : t.Good) {curr : Addr} {w : Word} {turn : WriteTurn}
    (x : V) (hmiss : t.lookup bit curr = .next none)
    (hturn : t.tmWriteTurn bit curr w turn = .next (true, t')) :
    (t.forget heap).append bit curr x w turn.reallocOk turn.mallocOk =
      .next (some (t'.forget (Function.update heap t.buffers x))) := by
  obtain ⟨rs, hrs, -⟩ := h.rs
  obtain ⟨ws, hws, -⟩ := h.ws
  have hold : ∀ item ∈ ws, Function.update heap t.buffers x item.value = heap item.value := by
    intro item hmem
    have hlt := h.value_lt item (by rw [hws]; exact hmem)
    exact Function.update_of_ne (Nat.ne_of_lt hlt) _ _
  have hmap : (ws.map fun item =>
      (⟨item.addr, heap item.value, item.rawAddr, item.versionedLock⟩ : WsItem V)) =
      ws.map fun item => ⟨item.addr, Function.update heap t.buffers x item.value, item.rawAddr,
        item.versionedLock⟩ :=
    List.map_congr_left fun item hmem => by rw [hold item hmem]
  unfold TxMemory.tmWriteTurn at hturn
  by_cases hrefused : turn.version = -1 ∨ t.rv < turn.version
  · simp [if_pos hrefused] at hturn
  rw [if_neg hrefused, hmiss] at hturn
  simp only [hws, Vec.length, Vec.store] at hturn
  unfold Tx.append
  by_cases hfull : (ws.length : Int) = t.wsSz
  · cases hrealloc : turn.reallocOk <;> cases hmalloc : turn.mallocOk <;>
      simp [hfull, hrealloc, hmalloc] at hturn
    by_cases hroom : t.wsSz < resize t.wsSz
    · simp [hroom, TxMemory.eraseLock, hrs] at hturn
      obtain rfl := hturn
      simp [TxMemory.forget, Vec.items, hws, hrs, hfull, hroom, hmap]
    · simp [hroom] at hturn
  · cases hmalloc : turn.mallocOk <;> simp [hfull, hmalloc] at hturn
    by_cases hroom : (ws.length : Int) < t.wsSz
    · simp [hroom, TxMemory.eraseLock, hrs] at hturn
      obtain rfl := hturn
      simp [TxMemory.forget, Vec.items, hws, hrs, hfull, hroom, hmap]
    · simp [hroom] at hturn

/-- Where the interleaved model faults, the clean-up walks a null pointer. -/
theorem TxMemory.Good.forget_tmWriteTurn_of_fault (h : t.Good) {curr : Addr} (w : Word)
    {turn : WriteTurn} (x : V) (hfail : t.WriteResizeFails bit curr turn) :
    (t.forget heap).append bit curr x w turn.reallocOk turn.mallocOk = .crash := by
  obtain ⟨-, -, -, hfull, hrealloc⟩ := hfail
  obtain ⟨ws, hws, -⟩ := h.ws
  rw [hws] at hfull
  have hfull : (ws.length : Int) = t.wsSz := hfull
  unfold Tx.append
  simp [TxMemory.forget, Vec.items, hws, hfull, hrealloc]

end Forget

end TransactionalMemory
