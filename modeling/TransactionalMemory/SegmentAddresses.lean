import TransactionalMemory.Proof.Installed
import TransactionalMemory.Proof.Schedules

/-!
# Addresses of segments

A recorder keeps the addresses that `tm_start` and `tm_alloc` handed out, each with the segment it
was handed out for. As long as no `tm_alloc` draws index 65535 from `va_n`, such an address encodes
the segment's index and the offset of each of its bytes, so bytes of live segments never share one.
Index 65535 still fits `va_arr`, and its address is null.
-/

namespace TransactionalMemory

open Concurrency

variable {V Tid : Type}

structure AddressRecord (Tid : Type) where
  /-- The segment that the last `tm_alloc` of the thread finished. -/
  built : Tid → SegId
  /-- The addresses handed out, with their segments. -/
  handed : List (Addr × SegId)

def recordAddresses [DecidableEq Tid] (_ : State Tid V) (l : Label Tid V) (r : AddressRecord Tid) :
    AddressRecord Tid where
  built := Function.update r.built l.tid
    (match l.event with
      | .op (.readySegment g _) => g
      | _ => r.built l.tid)
  handed :=
    match l.event with
    | .ret (.alloc (.success target)) => r.handed ++ [(target, r.built l.tid)]
    | _ => r.handed

/-- An index drawn from the counter is below 65535, and failed calls push alone. -/
def IndexesFit (s : State Tid V) (l : Label Tid V) : Prop :=
  (l.event = .op .nextSpot → s.tm.vaN < 65535) ∧ PushesAlone s l

def addressMachine [Zero V] (Tid : Type) [DecidableEq Tid] (platform : Platform V)
    (ok : State Tid V → Label Tid V → Prop) :
    Machine (State Tid V × AddressRecord Tid) (Label Tid V) :=
  ((system Tid platform).restrict ok).observe ⟨fun _ => 0, [(vaFromIndex 0 0, 0)]⟩ recordAddresses

/-- The address names the segment: it is not null, and from it and an offset the index of the
segment and the offset can be read back. -/
def Tm.Names (tm : Tm V) (target : Addr) (g : SegId) (seg : Segment) : Prop :=
  target ≠ 0#64 ∧ ∃ spot < vaSize, tm.InstalledAt spot g seg ∧
    (seg.size ≤ 2 ^ 48 → ∀ off < seg.size,
      (indexFromVa (target + BitVec.ofNat 64 off)).toNat = spot ∧
        offsetFromVa (target + BitVec.ofNat 64 off) = off)

structure AddressInv (s : State Tid V) (r : AddressRecord Tid) : Prop where
  bound : s.tm.vaN ≤ 65535
  returning : ∀ tid target t, s.thread tid = .returning (.alloc (.success target)) t →
    ∃ spot seg, target = vaFromIndex spot 0 ∧ s.tm.InstalledAt spot (r.built tid) seg
  known : ∀ e ∈ r.handed, e.2 < s.tm.segmentCount
  handed : ∀ e ∈ r.handed, ∀ seg, s.tm.segment e.2 = some seg →
    ∃ spot, e.1 = vaFromIndex spot 0 ∧ s.tm.InstalledAt spot e.2 seg

theorem vaFromIndex_ne_zero {spot : Nat} (hspot : spot < 65535) : vaFromIndex spot 0 ≠ 0#64 := by
  intro hzero
  have := congrArg BitVec.toNat hzero
  rw [vaFromIndex_toNat hspot (by decide)] at this
  simp at this

theorem names_of_installed {tm : Tm V} {spot : Nat} {g : SegId} {seg : Segment}
    (hspot : spot < 65535) (hinst : tm.InstalledAt spot g seg) :
    tm.Names (vaFromIndex spot 0) g seg := by
  refine ⟨vaFromIndex_ne_zero hspot, spot, by rw [vaSize]; omega, hinst, fun hsize off hoff => ?_⟩
  rw [vaFromIndex_add]
  exact ⟨indexFromVa_vaFromIndex hspot (by omega), offsetFromVa_vaFromIndex hspot (by omega)⟩

section Invariant

variable [Zero V] [DecidableEq Tid] {platform : Platform V} {s s' : State Tid V} {l : Label Tid V}
  {r : AddressRecord Tid}

omit [Zero V] in
/-- A `tm_alloc` on its way out with an address has just finished its segment. -/
theorem ThreadMove.success {tm : Tm V} {choice : Choice V} {thread thread' : Thread V}
    {event : Event V} (hanswers : thread.Answers)
    (h : ThreadMove platform tm choice thread event thread') {target : Addr} {t : Option (Tx V)}
    (hafter : thread' = .returning (.alloc (.success target)) t) :
    ∃ t' size spot g, thread = .allocating t' size (.initLocks spot g) ∧
      event = .op (.readySegment g size) ∧ target = vaFromIndex spot 0 := by
  cases h with
  | @alloc t' size pc _ _ h =>
      cases h with
      | @initLocks spot g =>
          simp only [Thread.returning.injEq, Ret.alloc.injEq, AllocResult.success.injEq] at hafter
          exact ⟨t', size, spot, g, rfl, rfl, hafter.1.symm⟩
      | _ => simp at hafter
  | finish h => cases h <;> simp at hafter
  | call h | begin h | read h | roRead h | write h | free h => cases h <;> simp at hafter
  | start | retIdle | retLive => cases hafter
  | cleanup =>
      simp only [Thread.returning.injEq] at hafter
      obtain ⟨rfl, -⟩ := hafter
      cases hanswers.1

namespace AddressInv

theorem init (h : (system Tid platform).init s) :
    AddressInv s ⟨fun _ => 0, [(vaFromIndex 0 0, 0)]⟩ := by
  obtain ⟨hidle, choice, size, align, -, -, -, -, hcreate⟩ := h
  obtain ⟨-, -, htm⟩ := tmCreate_eq hcreate
  refine ⟨?_, fun tid target t hthread => ?_, fun e he => ?_, fun e he seg hseg => ?_⟩
  · simp [htm, Tm.created]
  · simp [hidle tid] at hthread
  · obtain rfl := List.mem_singleton.mp he
    simp [htm, Tm.created]
  · obtain rfl := List.mem_singleton.mp he
    obtain rfl : (⟨size, toInt (size / align : Nat), .ready⟩ : Segment) = seg := by
      simpa [htm, Tm.created] using hseg
    exact ⟨0, rfl, by simp [htm, Tm.created], hseg, rfl⟩

/-- The segments handed out so far, one step later. -/
theorem handed_step {cells : List (NodeId × EmptySpot)} (h : AddressInv s r)
    (hspots : SpotsInv s cells) (hsegments : SegmentsInv s)
    (hstep : (system Tid platform).step s l s')
    {e : Addr × SegId} (he : e ∈ r.handed) {seg : Segment} (hseg : s'.tm.segment e.2 = some seg) :
    ∃ spot, e.1 = vaFromIndex spot 0 ∧ s'.tm.InstalledAt spot e.2 seg := by
  cases hbefore : s.tm.segment e.2 with
  | none => simp [segment_gone hstep (h.known e he) hbefore] at hseg
  | some seg' =>
      obtain ⟨spot, hspot, hinst⟩ := h.handed e he seg' hbefore
      rcases hspots.installed_or_deleted hsegments hstep hinst with hinst' | ⟨-, hgone⟩
      · obtain rfl : seg' = seg := by simpa [hinst'.2.1] using hseg
        exact ⟨spot, hspot, hinst'⟩
      · simp [hgone] at hseg

theorem vaN_after (tm : Tm V) (event : Event V) : (tm.after event).vaN = tm.vaN ∨
    event = .op .nextSpot ∧ (tm.after event).vaN = tm.vaN + 1 := by
  cases event with
  | op o =>
      cases o with
      | nextSpot => exact Or.inr ⟨rfl, rfl⟩
      | casLock w expected success => cases success <;> exact Or.inl rfl
      | deleteSegment spot =>
          left
          simp only [Tm.after, Tm.apply, Tm.deleteSegment]
          split <;> rfl
      | _ => exact Or.inl rfl
  | _ => exact Or.inl rfl

omit [Zero V] in
/-- A thread that returned from `tm_alloc` with an address has its hold. -/
theorem holds_of_success {thread : Thread V} {target : Addr} {t : Option (Tx V)}
    (hanswers : thread.Answers) (hthread : thread = .returning (.alloc (.success target)) t) :
    thread.holds = true := by
  subst hthread
  exact hanswers

theorem step {cells : List (NodeId × EmptySpot)} {holders : Finset Tid} {lost : Nat}
    (h : AddressInv s r) (hspots : SpotsInv s cells) (htable : s.tm.TableInv)
    (hsegments : SegmentsInv s) (hholds : HoldsInv s holders lost)
    (hanswers : ∀ tid, (s.thread tid).Answers) (hok : IndexesFit s l)
    (hstep : (system Tid platform).step s l s') : AddressInv s' (recordAddresses s l r) := by
  obtain ⟨hmove, htm, hother⟩ := system_step_move hstep
  -- what the return of an address adds to the record
  have hhanded : ∀ e ∈ (recordAddresses s l r).handed, e ∈ r.handed ∨
      ∃ target t, l.event = .ret (.alloc (.success target)) ∧
        s.thread l.tid = .returning (.alloc (.success target)) t ∧ e = (target, r.built l.tid) := by
    intro e he
    simp only [recordAddresses] at he
    split at he
    · rename_i target hevent
      rcases List.mem_append.mp he with he | he
      · exact Or.inl he
      · obtain rfl := List.mem_singleton.mp he
        rcases hmove.of_ret hevent with ⟨t, hthread, -⟩ | ⟨hthread, -⟩
        · exact Or.inr ⟨target, some t, hevent, hthread, rfl⟩
        · exact Or.inr ⟨target, none, hevent, hthread, rfl⟩
    · exact Or.inl he
  refine ⟨?_, fun tid target t hthread => ?_, fun e he => ?_, fun e he seg hseg => ?_⟩
  · rw [htm]
    rcases vaN_after s.tm l.event with hsame | ⟨hevent, hnext⟩
    · rw [hsame]
      exact h.bound
    · rw [hnext]
      exact hok.1 hevent
  · by_cases heq : tid = l.tid
    · subst heq
      obtain ⟨t', size, spot, g, hbefore, hevent, htarget⟩ := hmove.success (hanswers l.tid) hthread
      obtain ⟨seg, hseg, -⟩ := hsegments.building l.tid g .filled (by rw [hbefore]; rfl)
      have hspot : s.tm.vaArr spot = .segment g := hspots.facts_eq hbefore
      rw [hevent] at htm
      refine ⟨spot, { seg with size := size, state := .ready }, htarget, ?_⟩
      have hbuilt : (recordAddresses s l r).built l.tid = g := by
        simp [recordAddresses, hevent]
      rw [hbuilt]
      exact ⟨by rw [htm]; exact hspot, by simp [htm, Tm.after, Tm.apply, Tm.setSegment, hseg], rfl⟩
    · rw [hother tid heq] at hthread
      obtain ⟨spot, seg, htarget, hinst⟩ := h.returning tid target t hthread
      have hbuilt : (recordAddresses s l r).built tid = r.built tid := Function.update_of_ne heq _ _
      have hheld := holds_of_success (hanswers tid) hthread
      rw [hbuilt]
      exact ⟨spot, seg, htarget,
        hspots.installed_step hsegments hholds hstep hheld hinst⟩
  · rcases hhanded e he with he | ⟨target, t, hevent, hthread, rfl⟩
    · exact (h.known e he).trans_le (segmentCount_le hstep)
    · obtain ⟨spot, seg, -, hinst⟩ := h.returning l.tid target t hthread
      exact (htable.segment_lt spot _ hinst.1).trans_le (segmentCount_le hstep)
  · rcases hhanded e he with he | ⟨target, t, hevent, hthread, rfl⟩
    · exact h.handed_step hspots hsegments hstep he hseg
    · obtain ⟨spot, seg', htarget, hinst⟩ := h.returning l.tid target t hthread
      have hsame : s'.tm = s.tm := by rw [htm, hevent]; rfl
      rw [hsame] at hseg ⊢
      obtain rfl : seg' = seg := by simpa [hinst.2.1] using hseg
      exact ⟨spot, htarget, hinst⟩

end AddressInv

theorem addressInv {p : State Tid V × AddressRecord Tid}
    (h : (addressMachine Tid platform IndexesFit).Reachable p) : AddressInv p.1 p.2 := by
  refine h.invariant (P := fun p => AddressInv p.1 p.2) (fun p hp => ?_)
    fun p l p' hreach ih hstep => ?_
  · obtain ⟨hinit, hrecord⟩ := hp
    have hinit : (system Tid platform).init p.1 := hinit
    rw [hrecord]
    exact AddressInv.init hinit
  · have hrestricted : ((system Tid platform).restrict IndexesFit).Reachable p.1 :=
      hreach.of_observe
    have hsystem := hrestricted.of_restrict
    obtain ⟨cells, hspots⟩ := spotsInv (fun _ _ _ hok => hok.2) hrestricted
    obtain ⟨holders, lost, hholds⟩ := holdsInv hsystem
    rw [hstep.2]
    exact ih.step hspots (tableInv hsystem) (segmentsInv hsystem) hholds (threadAnswers hsystem)
      hstep.1.1 hstep.1.2

/-- **Addresses.** In every run in which no `tm_alloc` draws index 65535 and failed ones push alone,
an address that was handed out for a segment that still exists names it; the bytes of two such
segments have different addresses; and each `tm_alloc` that succeeds returns an address that names
its segment. -/
theorem addresses_name_segments {p : State Tid V × AddressRecord Tid}
    (h : (addressMachine Tid platform IndexesFit).Reachable p) :
    (∀ target g seg, (target, g) ∈ p.2.handed → p.1.tm.segment g = some seg →
      p.1.tm.Names target g seg) ∧
    (∀ target g seg target' g' seg' off off', (target, g) ∈ p.2.handed →
      p.1.tm.segment g = some seg → (target', g') ∈ p.2.handed → p.1.tm.segment g' = some seg' →
      seg.size ≤ 2 ^ 48 → seg'.size ≤ 2 ^ 48 → off < seg.size → off' < seg'.size →
      target + BitVec.ofNat 64 off = target' + BitVec.ofNat 64 off' → g = g' ∧ off = off') ∧
    ∀ l p' target, (addressMachine Tid platform IndexesFit).step p l p' →
      l.event = .ret (.alloc (.success target)) →
      ∃ g seg, (target, g) ∈ p'.2.handed ∧ p'.1.tm.Names target g seg := by
  have hnames : ∀ {p : State Tid V × AddressRecord Tid},
      (addressMachine Tid platform IndexesFit).Reachable p → ∀ {target g seg},
        (target, g) ∈ p.2.handed → p.1.tm.segment g = some seg → p.1.tm.Names target g seg := by
    intro p h target g seg hmem hseg
    have hinv := addressInv h
    have hrestricted : ((system Tid platform).restrict IndexesFit).Reachable p.1 := h.of_observe
    obtain ⟨cells, hspots⟩ := spotsInv (fun _ _ _ hok => hok.2) hrestricted
    obtain ⟨spot, rfl, hinst⟩ := hinv.handed (target, g) hmem seg hseg
    have hlive : p.1.tm.Live spot := ⟨g, seg, hinst⟩
    exact names_of_installed ((hspots.circulation.used_lt spot hlive).trans_le hinv.bound) hinst
  refine ⟨fun target g seg hmem hseg => hnames h hmem hseg, ?_, fun l p' target hstep hevent => ?_⟩
  · intro target g seg target' g' seg' off off' hmem hseg hmem' hseg' hsize hsize' hoff hoff' heq
    obtain ⟨-, spot, -, hinst, hread⟩ := hnames h hmem hseg
    obtain ⟨-, spot', -, hinst', hread'⟩ := hnames h hmem' hseg'
    obtain ⟨hindex, hoffset⟩ := hread hsize off hoff
    obtain ⟨hindex', hoffset'⟩ := hread' hsize' off' hoff'
    rw [heq] at hindex hoffset
    obtain rfl : spot = spot' := hindex.symm.trans hindex'
    refine ⟨?_, hoffset.symm.trans hoffset'⟩
    simpa [hinst.1] using hinst'.1
  · have hmem : (target, p.2.built l.tid) ∈ p'.2.handed := by
      rw [hstep.2]
      simp [recordAddresses, hevent]
    obtain ⟨hmove, htm, -⟩ := system_step_move hstep.1.2
    have hthread : ∃ t, p.1.thread l.tid = .returning (.alloc (.success target)) t := by
      rcases hmove.of_ret hevent with ⟨t, hthread, -⟩ | ⟨hthread, -⟩
      · exact ⟨some t, hthread⟩
      · exact ⟨none, hthread⟩
    obtain ⟨t, hthread⟩ := hthread
    obtain ⟨spot, seg, -, hinst⟩ := (addressInv h).returning l.tid target t hthread
    have hseg : p'.1.tm.segment (p.2.built l.tid) = some seg := by
      rw [htm, hevent]
      exact hinst.2.1
    exact ⟨_, seg, hmem, hnames (h.step hstep) hmem hseg⟩

end Invariant

def indexesFit (s : State Tid V) (l : Label Tid V) : Bool :=
  (match l.event with
    | .op .nextSpot => decide (s.tm.vaN < 65535)
    | _ => true) &&
  match s.thread l.tid with
  | .allocating _ _ (.pushStore _ _) => false
  | _ => true

theorem indexesFit_sound (s : State Tid V) (l : Label Tid V) (h : indexesFit s l = true) :
    IndexesFit s l := by
  simp only [indexesFit, Bool.and_eq_true] at h
  refine ⟨fun hevent => by simpa [hevent] using h.1, fun t size spot n hthread => ?_⟩
  simp [hthread] at h

/-- Two calls of `tm_alloc`. The one that draws its index last is first to allocate its struct. -/
def crossedAllocs : Schedule Bool Nat :=
  calls true (.begin false) 3 ++ calls false (.begin false) 3 ++ calls true (.alloc 8) 4 ++
    calls false (.alloc 16) 5 ++ steps true 4 ++ steps false 3

theorem addresses_name_segments_of_alloc : ∃ p : State Bool Nat × AddressRecord Bool,
    p.1.tm.Names (vaFromIndex 1 0) 2 ⟨8, 1, .ready⟩ ∧
      p.1.tm.Names (vaFromIndex 2 0) 1 ⟨16, 2, .ready⟩ ∧ ∀ off < 8, ∀ off' < 16,
        vaFromIndex 1 0 + BitVec.ofNat 64 off ≠ vaFromIndex 2 0 + BitVec.ofNat 64 off' := by
  let test : State Bool Nat × AddressRecord Bool → Bool := fun p =>
    decide ((vaFromIndex 1 0, 2) ∈ p.2.handed) && decide (p.1.tm.segment 2 = some ⟨8, 1, .ready⟩) &&
      decide ((vaFromIndex 2 0, 1) ∈ p.2.handed) && decide (p.1.tm.segment 1 = some ⟨16, 2, .ready⟩)
  have hrun : ∃ p, (addressMachine Bool (Platform.x86 Nat) IndexesFit).Reachable p ∧
      test p = true :=
    exists_of_schedule indexesFit indexesFit_sound
      (State.fresh_init_words 1 (by decide) (by decide)) crossedAllocs test (by decide +kernel)
  obtain ⟨p, hreach, htest⟩ := hrun
  simp only [test, Bool.and_eq_true, decide_eq_true_eq] at htest
  obtain ⟨⟨⟨hhanded, hsegment⟩, hhanded'⟩, hsegment'⟩ := htest
  obtain ⟨hnames, hdistinct, -⟩ := addresses_name_segments hreach
  refine ⟨p, hnames _ 2 _ hhanded hsegment, hnames _ 1 _ hhanded' hsegment',
    fun off hoff off' hoff' heq => ?_⟩
  obtain ⟨hsame, -⟩ := hdistinct _ _ _ _ _ _ off off' hhanded hsegment hhanded' hsegment'
    (by decide) (by decide) hoff hoff' heq
  cases hsame

/-! ### The last index -/

section LastIndex

def Arrives (tm : Tm Nat) (thread : Thread Nat) : Prop :=
  ∃ p, (addressMachine Unit (Platform.x86 Nat) fun _ _ => True).Reachable p ∧ p.1.tm = tm ∧
    p.1.thread () = thread

variable {tm : Tm Nat} {thread : Thread Nat}

theorem Arrives.step (h : Arrives tm thread) (choice : Choice Nat) (event : Event Nat)
    (thread' : Thread Nat)
    (hstep : thread.step (Platform.x86 Nat) tm choice = .next (event, thread')) :
    Arrives (tm.after event) thread' := by
  obtain ⟨p, hreach, rfl, rfl⟩ := h
  have hsystem := State.step_of_thread () hstep
  have hnext : (addressMachine Unit (Platform.x86 Nat) fun _ _ => True).step p ⟨(), choice, event⟩
      (⟨p.1.tm.after event, Function.update p.1.thread () thread'⟩,
        recordAddresses p.1 ⟨(), choice, event⟩ p.2) := ⟨⟨trivial, hsystem⟩, rfl⟩
  exact ⟨_, hreach.step hnext, rfl, by simp⟩

structure Tm.Drawn (tm : Tm Nat) (n : Nat) : Prop where
  align : tm.align = 8
  mutex : tm.virtualMemoryLock = false
  empty : tm.emptySpots = none
  vaN : tm.vaN = n

theorem arrives_alloc {t : Tx Nat} {n : Nat} (h : Arrives tm (.live t)) (hdrawn : tm.Drawn n)
    (hn : n < vaSize) :
    ∃ tm', Arrives tm' (.returning (.alloc (.success (vaFromIndex n 0))) (some t)) ∧
      tm'.Drawn (n + 1) := by
  obtain ⟨halign, hmutex, hempty, rfl⟩ := hdrawn
  have hcall := h.step { call := some (.alloc 8) } (.call (.alloc 8))
    (.allocating t 8 .lock) (by simp [Thread.step, callStep, halign])
  have hlock := hcall.step {} (.op .lockVirtualMemory) (.allocating t 8 .check)
    (by simp [Thread.step, tmAllocStep, Tm.after, hmutex, Move.op])
  have hcheck := hlock.step {} (.op .loadEmptySpots) (.allocating t 8 .counter)
    (by simp [Thread.step, tmAllocStep, Tm.after, Tm.apply, hempty, Move.op])
  have hcounter := hcheck.step {} (.op .nextSpot)
    (.allocating t 8 (.unlock tm.vaN))
    (by simp [Thread.step, tmAllocStep, Tm.after, Tm.apply, Move.op])
  have hunlock := hcounter.step {} (.op .unlockVirtualMemory)
    (.allocating t 8 (.initStruct tm.vaN))
    (by simp [Thread.step, tmAllocStep, Move.op])
  have hstruct := hunlock.step {} (.op (.newSegment tm.vaN))
    (.allocating t 8 (.initData tm.vaN tm.segmentCount))
    (by simp [Thread.step, tmAllocStep, Tm.after, Tm.apply, Move.op, hn, Choice.mallocOk])
  have hdata := hstruct.step {} (.op (.fillSegment tm.segmentCount (toInt (8 / tm.align : Nat))))
    (.allocating t 8 (.initLocks tm.vaN tm.segmentCount))
    (by simp [Thread.step, tmAllocStep, Tm.after, Tm.apply, Move.op, halign, Choice.mallocOk,
      posixMemalign])
  have hlocks := hdata.step {} (.op (.readySegment tm.segmentCount 8))
    (.returning (.alloc (.success (vaFromIndex tm.vaN 0))) (some t))
    (by
      have hone : mallocLocks (toInt ((8 / 8 : Nat) : Int)) true = true := by decide
      simp only [Thread.step, tmAllocStep, Tm.after, Tm.apply, Tm.setSegment, Move.op, halign,
        Choice.mallocOk, List.getD_nil, hone, if_true])
  refine ⟨_, hlocks, ?_, ?_, ?_, ?_⟩ <;>
    simp only [Tm.after, Tm.apply, Tm.setSegment, halign, hempty]

theorem arrives_drawn (n : Nat) (hn : n < 65535) :
    ∃ tm t, Arrives tm (.live t) ∧ tm.Drawn (n + 1) := by
  induction n with
  | zero =>
      have hfresh : (system Unit (Platform.x86 Nat)).init (State.fresh Unit Nat (1 * 8) 8) :=
        State.fresh_init_words 1 (by decide) (by decide)
      have hinit : Arrives (Tm.created true (1 * 8) 8) .idle :=
        ⟨(State.fresh Unit Nat (1 * 8) 8, _), .init ⟨hfresh, rfl⟩, rfl, rfl⟩
      have hcall := hinit.step { call := some (.begin false) } (.call (.begin false))
        (.beginning false .rdlock) rfl
      have hrdlock := hcall.step {} (.op .rdlock) (.beginning false .body) rfl
      have hbody := hrdlock.step {} (.op (.loadClock 0)) _ rfl
      have hret := hbody.step {} _ _ rfl
      exact ⟨_, _, hret, rfl, rfl, rfl, rfl⟩
  | succ n ih =>
      obtain ⟨tm, t, harrives, hdrawn⟩ := ih (by omega)
      obtain ⟨tm', hsuccess, hdrawn'⟩ := arrives_alloc harrives hdrawn (by rw [vaSize]; omega)
      have hret := hsuccess.step {} (.ret (.alloc (.success (vaFromIndex (n + 1) 0))))
        (.live t) rfl
      exact ⟨tm', t, hret, hdrawn'⟩

/-- After 65534 calls of `tm_alloc` the next one succeeds with the null address. -/
theorem last_address_null :
    ¬ ∀ p, (addressMachine Unit (Platform.x86 Nat) fun _ _ => True).Reachable p →
    ∀ l p' target, (addressMachine Unit (Platform.x86 Nat) fun _ _ => True).step p l p' →
      l.event = .ret (.alloc (.success target)) →
      ∃ g seg, (target, g) ∈ p'.2.handed ∧ p'.1.tm.Names target g seg := by
  intro hclaim
  obtain ⟨tm, t, harrives, hdrawn⟩ := arrives_drawn 65534 (by decide)
  obtain ⟨tm', ⟨p, hreach, -, hthread⟩, -⟩ := arrives_alloc harrives hdrawn (by decide)
  have hstep : (p.1.thread ()).step (Platform.x86 Nat) p.1.tm {} =
      .next (.ret (.alloc (.success (vaFromIndex 65535 0))), .live t) := by
    rw [hthread]
    rfl
  obtain ⟨g, seg, -, hnonnull, -⟩ := hclaim p hreach _ (_, _)
    _ ⟨⟨trivial, State.step_of_thread () hstep⟩, rfl⟩ rfl
  exact hnonnull vaFromIndex_wraps

end LastIndex

end TransactionalMemory
