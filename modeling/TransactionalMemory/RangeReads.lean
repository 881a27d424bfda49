import TransactionalMemory.Proof.RangeRead
import TransactionalMemory.Proof.Schedules

/-!
# Range reads

A recorder keeps, for the call of `tm_read` that a thread made last, the words of its range and what
memory held at each instant since. What a read-only transaction is given for a range was in memory
at one of these instants, all of it, whatever its neighbours locked, rolled back or committed
meanwhile. The one exception is a range so long that its length wraps in `int`: most of it is then
never looked at.
-/

namespace TransactionalMemory

open Concurrency

variable {V Tid : Type} [DecidableEq Tid]

def recordReads [Zero V] (s : State Tid V) (l : Label Tid V) (r : Tid → ReadRecord V) :
    Tid → ReadRecord V := fun tid =>
  let begun : ReadRecord V :=
    match l.event with
    | .call (.read source size) => if tid = l.tid then ⟨s.tm.named source size, []⟩ else r tid
    | _ => r tid
  { begun with instants := begun.instants ++ [(s.tm.after l.event).data] }

def rangeMachine [Zero V] (Tid : Type) [DecidableEq Tid] (platform : Platform V)
    (ok : State Tid V → Label Tid V → Prop) :
    Machine (State Tid V × (Tid → ReadRecord V)) (Label Tid V) :=
  ((system Tid platform).restrict ok).observe (fun _ => ⟨[], []⟩) recordReads

section Invariant

variable [Zero V] {platform : Platform V} {s s' : State Tid V} {l : Label Tid V}
  {store : Store Tid Word V} {r : Tid → ReadRecord V} {tid : Tid}

theorem recordReads_of_not_read
    (h : ∀ source size, l.event = .call (.read source size) → tid ≠ l.tid) :
    recordReads s l r tid =
      { r tid with instants := (r tid).instants ++ [(s.tm.after l.event).data] } := by
  unfold recordReads
  split
  · rename_i source size hevent
    simp [h source size hevent]
  · rfl

omit [Zero V] [DecidableEq Tid] in
/-- A batch deletion ends without a hold. -/
theorem ThreadMove.not_holds_of_drains {tm : Tm V} {choice : Choice V} {thread thread' : Thread V}
    {event : Event V} (h : ThreadMove platform tm choice thread event thread')
    (hdrains : thread.drains = true) : thread'.holds = false := by
  cases h with
  | finish h => cases h <;> first | rfl | cases hdrains
  | _ => cases hdrains

omit [Zero V] [DecidableEq Tid] in
/-- The loops of `ro_transaction_read` against the range, while its length does not wrap. -/
theorem roTransactionReadCall_visits {tm : Tm V} {g : SegId} {source : Addr} {size : Nat}
    {c : RoCall} (hcounts : ∀ g seg, tm.segment g = some seg → seg.numWords < 2 ^ 31)
    (hrange : tm.range source size = some g) (hfits : size / tm.align < 2 ^ 32)
    (hcall : roTransactionReadCall tm g source size = some c) :
    c.Visits tm (tm.named source size) := by
  obtain ⟨hpos, rfl⟩ := roTransactionReadCall_eq_some hcall
  obtain ⟨seg, -, hseg, hready, -⟩ := Tm.range_eq_some hrange
  have hnum : toInt (size / tm.align : Nat) = (size / tm.align : Nat) := by
    generalize size / tm.align = n at hpos hfits ⊢
    refine toInt_natCast ?_
    by_contra hlarge
    have hwrapped : toInt n = n - 2 ^ 32 := by
      unfold toInt
      rw [Int.bmod_def]
      omega
    simp only at hpos
    omega
  rw [Tm.named_eq hrange]
  refine ⟨callWords_wordsOf rfl rfl, ?_, seg, hseg, hready⟩
  dsimp only
  by_cases hstart : offsetFromVa source / tm.align < 2 ^ 31
  · exact Or.inl (callWords_wordsOf (toInt_natCast hstart) hnum)
  · -- no segment has that many locks
    refine Or.inr fun w hw => ?_
    obtain ⟨i, -, rfl⟩ := List.mem_map.mp hw
    have hcount := hcounts g seg hseg
    simp only [Tm.valid, hseg, hready, true_and, decide_eq_false_iff_not, not_lt]
    push_cast
    omega

def RangeInv (s : State Tid V) (store : Store Tid Word V) (r : Tid → ReadRecord V) : Prop :=
  ∀ tid, (r tid).words.length < 2 ^ 32 → (s.thread tid).Ranged s.tm store (r tid)

/-- **One step of a thread** keeps its own read on its way. -/
theorem Thread.Ranged.mover (hw : WordsInv s store) (hmode : (s.thread l.tid).Mode)
    (hcounts : ∀ g seg, s.tm.segment g = some seg → seg.numWords < 2 ^ 31)
    (hmove : ThreadMove platform s.tm l.choice (s.thread l.tid) l.event (s'.thread l.tid))
    (hfits : (recordReads s l r l.tid).words.length < 2 ^ 32)
    (h : (r l.tid).words.length < 2 ^ 32 → (s.thread l.tid).Ranged s.tm store (r l.tid)) :
    (s'.thread l.tid).Ranged s.tm store (recordReads s l r l.tid) := by
  generalize hrecord : recordReads s l r l.tid = r' at hfits ⊢
  generalize hthread : s.thread l.tid = thread, hevent : l.event = event,
    s'.thread l.tid = thread' at *
  cases hmove with
  | @call t event thread' hcall =>
      cases hcall with
      | roRead hrange hro hread =>
          simp only [recordReads, hevent, if_true] at hrecord
          subst hrecord
          refine ⟨roTransactionReadCall_visits hcounts hrange ?_ hread, rfl, fun j w _ _ hj => ?_⟩
          · rw [Tm.named_eq hrange] at hfits
            simpa [Tm.wordsOf] using hfits
          · exact absurd hj (Nat.not_lt_zero j)
      | _ => trivial
  | @roRead t c pc event thread' hread =>
      have hother : ∀ source size, l.event = .call (.read source size) → l.tid ≠ l.tid := by
        intro source size heq
        rw [hevent] at heq
        subst heq
        cases hread
      rw [recordReads_of_not_read hother] at hrecord
      have hload : s.tm.after l.event = s.tm := by
        rw [hevent]
        cases hread <;> rfl
      rw [hload] at hrecord
      subst hrecord
      obtain ⟨hvisits, hpc⟩ := h hfits
      exact hpc.step hw hvisits hread rfl (fun m hm => List.mem_append_left _ hm) (by simp)
  | read hread =>
      cases hread with
      | done => exact fun hro => absurd (hmode.symm.trans hro) (by decide)
      | _ => trivial
  | begin hmove | write hmove | alloc hmove | free hmove | finish hmove =>
      cases hmove <;> trivial
  | @cleanup t ret =>
      cases ret with
      | read target => cases target <;> trivial
      | _ => trivial
  | start | retIdle | retLive => trivial

theorem RangeInv.step (hreach : (system Tid platform).Reachable s) (hw : WordsInv s store)
    (hstep : (system Tid platform).step s l s') (h : RangeInv s store r) :
    RangeInv s' (recordStore s l store) (recordReads s l r) := by
  have hlater := hw.later (threadWf hreach l.tid) hstep
  obtain ⟨hmove, htm, hother⟩ := system_step_move hstep
  have hdata : ∀ w seg, s.tm.segment w.seg = some seg → seg.state = .ready → s.tm.valid w = false →
      s'.tm.data w = s.tm.data w := fun w seg hseg hready hinvalid =>
    data_kept (segmentsInv hreach) (threadWf hreach l.tid) hstep hseg hready hinvalid
  intro tid hfits
  by_cases heq : tid = l.tid
  · subst heq
    have hmover := Thread.Ranged.mover hw (threadMode hreach l.tid) (numWords_lt hreach) hmove hfits
      (h l.tid)
    refine hmover.later hlater rfl (fun _ => id) (fun hholds g seg hseg hready => ?_) hdata
    rcases segment_or_deleted (segmentsInv hreach) hstep hseg hready with hkept | ⟨hdrains, -⟩
    · exact hkept
    · exact absurd hholds (by simp [hmove.not_holds_of_drains hdrains])
  · have hrecord : recordReads s l r tid =
        { r tid with instants := (r tid).instants ++ [(s.tm.after l.event).data] } :=
      recordReads_of_not_read fun _ _ _ => heq
    rw [hrecord] at hfits ⊢
    rw [hother tid heq]
    exact (h tid hfits).later hlater rfl (fun m hm => List.mem_append_left _ hm)
      (fun hholds g seg => segment_kept hreach hstep hholds) hdata

theorem rangeInv {p : State Tid V × (Tid → ReadRecord V)}
    (h : (rangeMachine Tid platform VersionsBounded).Reachable p) :
    ∃ store, WordsInv p.1 store ∧ RangeInv p.1 store p.2 := by
  refine h.invariant (P := fun p => ∃ store, WordsInv p.1 store ∧ RangeInv p.1 store p.2)
    (fun p hp => ?_) fun p l p' hreach ih hstep => ?_
  · refine ⟨_, WordsInv.init (show (system Tid platform).init p.1 from hp.1), fun tid _ => ?_⟩
    rw [show p.1.thread tid = .idle from hp.1.1 tid]
    trivial
  · obtain ⟨store, hwords, hrange⟩ := ih
    have hsys := hreach.of_observe.of_restrict
    rw [hstep.2]
    exact ⟨_, hwords.step (segmentsInv hsys) (threadWf hsys l.tid) hstep.1.1 hstep.1.2,
      hrange.step hsys hwords hstep.1.2⟩

/-- **A range read is atomic.** Where a read-only `tm_read` returns true, the values it delivers
were in memory together at one instant of the call, if the length of the range does not wrap. -/
theorem range_read_atomic {p : State Tid V × (Tid → ReadRecord V)} {target : List V} {t : Tx V}
    (h : (rangeMachine Tid platform VersionsBounded).Reachable p)
    (hthread : p.1.thread tid = .returning (.read (some target)) (some t)) (hro : t.isRo = true)
    (hfits : (p.2 tid).words.length < 2 ^ 32) : (p.2 tid).Atomic target := by
  obtain ⟨store, -, hrange⟩ := rangeInv h
  have hranged := hrange tid hfits
  rw [hthread] at hranged
  exact hranged hro

end Invariant

/-- A read-only transaction reads both words of the region, while another one commits new values of
both. -/
def rangeReader : Schedule Bool Nat :=
  calls false (.begin false) 3 ++ calls false (.write [7, 8] 16 (vaFromIndex 0 0)) 4 ++
    calls true (.begin true) 3 ++ calls true (.read (vaFromIndex 0 0) 16) 0 ++
    calls false .finish 16 ++ steps true 4 ++ [(true, { word := 1 })] ++ steps true 6

/-- Half of the commit was in memory during the read. -/
theorem range_read_atomic_of_commit : ∃ p : State Bool Nat × (Bool → ReadRecord Nat),
    (p.2 true).words = [⟨0, 0⟩, ⟨0, 1⟩] ∧
      (∃ m ∈ (p.2 true).instants, m ⟨0, 0⟩ = 7 ∧ m ⟨0, 1⟩ = 0) ∧ (p.2 true).Atomic [7, 8] := by
  let test : State Bool Nat × (Bool → ReadRecord Nat) → Bool := fun p =>
    ((p.1.thread true).answered.any fun e =>
      e.2.isRo && decide (e.1 = [7, 8]) && decide ((p.2 true).words = [⟨0, 0⟩, ⟨0, 1⟩])) &&
      (p.2 true).instants.any fun m => decide (m ⟨0, 0⟩ = 7 ∧ m ⟨0, 1⟩ = 0)
  have hrun : ∃ p, (rangeMachine Bool (Platform.x86 Nat) VersionsBounded).Reachable p ∧
      test p = true :=
    exists_of_schedule versionsBounded versionsBounded_sound
      (State.fresh_init_words 2 (by decide) (by decide)) rangeReader test (by decide +kernel)
  obtain ⟨p, hreach, htest⟩ := hrun
  obtain ⟨hreturned, hhalf⟩ := Bool.and_eq_true_iff.mp htest
  obtain ⟨⟨target, t⟩, hanswered, hread⟩ := (Option.any_eq_true _ _).mp hreturned
  obtain ⟨m, hmem, hm⟩ := List.any_eq_true.mp hhalf
  simp only [Bool.and_eq_true, decide_eq_true_eq] at hread
  obtain ⟨⟨hro, rfl⟩, hwords⟩ := hread
  have hthread := Thread.eq_of_answered hanswered
  exact ⟨p, hwords, ⟨m, hmem, of_decide_eq_true hm⟩,
    range_read_atomic hreach hthread hro (by simp [hwords])⟩

/-! ### A length that wraps -/

section Wrapped

/-- The machine gets to this region with these two threads, in a read of `words` during which the
second word has never been older than the third. -/
def TornRead (words : List Word) (tm : Tm Nat) (reader writer : Thread Nat) : Prop :=
  ∃ r, (rangeMachine Bool (Platform.x86 Nat) VersionsBounded).Reachable
      (⟨tm, fun tid => cond tid reader writer⟩, r) ∧ (r true).words = words ∧
    ∀ m ∈ (r true).instants, ¬ (m ⟨0, 1⟩ = 0 ∧ m ⟨0, 2⟩ = 1)

variable {words : List Word} {tm : Tm Nat} {reader writer : Thread Nat} {size : Nat}

theorem TornRead.next (h : TornRead words tm reader writer) (tid : Bool) (choice : Choice Nat)
    (event : Event Nat) (thread' : Thread Nat)
    (hstep : (cond tid reader writer).step (Platform.x86 Nat) tm choice = .next (event, thread'))
    (hbounded : ∀ g, event ≠ .op (.fetchAddClock g))
    (hcall : ∀ source size, event ≠ .call (.read source size))
    (hdata : ¬ ((tm.after event).data ⟨0, 1⟩ = 0 ∧ (tm.after event).data ⟨0, 2⟩ = 1)) :
    TornRead words (tm.after event) (cond tid thread' reader) (cond tid writer thread') := by
  obtain ⟨r, hreach, hwords, hinstants⟩ := h
  have hsystem : (system Bool (Platform.x86 Nat)).step ⟨tm, fun tid => cond tid reader writer⟩
      ⟨tid, choice, event⟩ ⟨tm.after event, _⟩ := State.step_of_thread tid hstep
  have hnext := hreach.step_observe (fun g hg => absurd hg (hbounded g)) hsystem
  have hthreads : Function.update (fun tid => cond tid reader writer) tid thread' =
      fun tid' => cond tid' (cond tid thread' reader) (cond tid writer thread') := by
    funext tid'
    cases tid <;> cases tid' <;> rfl
  rw [hthreads] at hnext
  refine ⟨_, hnext, ?_⟩
  rw [recordReads_of_not_read fun source size hevent => absurd hevent (hcall source size)]
  refine ⟨hwords, fun m hm => ?_⟩
  rcases List.mem_append.mp hm with hm | hm
  · exact hinstants m hm
  · rw [List.mem_singleton.mp hm]
    exact hdata

/-- A step of the reader, which only loads. -/
theorem TornRead.read (h : TornRead words tm reader writer)
    (hdata : ¬ (tm.data ⟨0, 1⟩ = 0 ∧ tm.data ⟨0, 2⟩ = 1)) (choice : Choice Nat) (o : Op Nat)
    (reader' : Thread Nat)
    (hstep : reader.step (Platform.x86 Nat) tm choice = .next (.op o, reader')) (hload : o.IsLoad) :
    TornRead words tm reader' writer := by
  have htm : tm.after (.op o) = tm := Tm.apply_of_isLoad hload
  have hnext := h.next true choice (.op o) reader' hstep
    (by rintro g ⟨⟩; cases hload) (by simp) (by rwa [htm])
  rwa [htm] at hnext

section Copies

variable {t : Tx Nat} {c : RoCall} {prev : List Int} {target : List (Option Nat)}

theorem TornRead.copy (h : TornRead words tm (.roReading t c (.copy prev target)) writer)
    (hdata : ¬ (tm.data ⟨0, 1⟩ = 0 ∧ tm.data ⟨0, 2⟩ = 1)) {k : Nat} (hk : target[k]? = some none) :
    TornRead words tm (.roReading t c (.copy prev
      (target.set k (some (tm.data ⟨c.seg, c.firstWord + k⟩))))) writer := by
  have hall : target.all Option.isSome = false := by
    rw [Bool.eq_false_iff, Ne, List.all_eq_true]
    exact fun hall => absurd (hall none (List.mem_of_getElem? hk)) (by decide)
  exact h.read hdata { word := k }
    (.copyOut ⟨c.seg, c.firstWord + k⟩ (tm.data ⟨c.seg, c.firstWord + k⟩)) _
    (by simp [Thread.step, roTransactionReadStep, hall, hk, Move.op]) trivial

theorem TornRead.copied
    (hdata : ¬ (tm.data ⟨0, 1⟩ = 0 ∧ tm.data ⟨0, 2⟩ = 1))
    (h : TornRead words tm (.roReading t c (.copy prev target)) writer)
    {x y : Nat} (hx : target[1]? = some (some x)) (hy : target[2]? = some (some y)) :
    ∃ values : List Nat, values[1]? = some x ∧ values[2]? = some y ∧
      TornRead words tm (.roReading t c (.post 0 prev (values.map some))) writer := by
  induction hn : target.count none generalizing target with
  | zero =>
      have hall : target.all Option.isSome = true := by
        rw [List.all_eq_true]
        intro o ho
        cases o with
        | none => exact absurd ho (List.count_eq_zero.mp hn)
        | some x => rfl
      have hdone := h.read hdata {} .tau (.roReading t c (.post 0 prev target))
        (by simp [Thread.step, roTransactionReadStep, hall, Move.op]) trivial
      obtain ⟨values, rfl⟩ := exists_values hall
      exact ⟨values, by simpa using hx, by simpa using hy, hdone⟩
  | succ n ih =>
      have hmem : none ∈ target := List.count_pos_iff.mp (by omega)
      obtain ⟨k, hk⟩ := List.mem_iff_getElem?.mp hmem
      have hcopied := h.copy hdata hk
      have hk1 : k ≠ 1 := by
        rintro rfl
        simp [hx] at hk
      have hk2 : k ≠ 2 := by
        rintro rfl
        simp [hy] at hk
      have hlt := (List.getElem?_eq_some_iff.mp hk).1
      have hget := (List.getElem?_eq_some_iff.mp hk).2
      refine ih hcopied (by rwa [List.getElem?_set_ne hk1]) (by rwa [List.getElem?_set_ne hk2]) ?_
      rw [List.count_set hlt, hn, hget]
      simp

end Copies

/-- The writer of the second and the third word is past the point of no return. -/
def writerAhead : Schedule Bool Nat :=
  calls true (.begin true) 3 ++ calls false (.begin false) 3 ++
    calls false (.write [1, 1] 16 (vaFromIndex 0 8)) 4 ++ calls false .finish 8

structure Tm.Wrapped (tm : Tm Nat) (size : Nat) : Prop where
  align : tm.align = 8
  entry : tm.vaArr 0 = .segment 0
  segment : tm.segment 0 = some ⟨size, 3, .ready⟩
  lock : tm.lock ⟨0, 0⟩ = 0
  data : tm.data ⟨0, 1⟩ = 0 ∧ tm.data ⟨0, 2⟩ = 0

def Thread.writesBack : Thread Nat → Bool
  | .ending t (.copy _ 0) =>
      decide (t.ws.map (fun item => (item.rawAddr, item.versionedLock, item.value)) =
        [(⟨0, 1⟩, ⟨0, 1⟩, 1), (⟨0, 2⟩, ⟨0, 2⟩, 1)])
  | _ => false

theorem exists_writerAhead :
    ∃ (tm : Tm Nat) (t : Tx Nat) (writer : Thread Nat) (r : Bool → ReadRecord Nat),
    tm.Wrapped ((2 ^ 32 + 3) * 8) ∧ t.isRo = true ∧ t.rv = 0 ∧ t.rs = some [] ∧ t.rsSz = 8 ∧
      writer.writesBack = true ∧ (rangeMachine Bool (Platform.x86 Nat) VersionsBounded).Reachable
        (⟨tm, fun tid => cond tid (.live t) writer⟩, r) := by
  let test : State Bool Nat × (Bool → ReadRecord Nat) → Bool := fun p =>
    (p.1.thread true).resting.any fun t =>
      t.isRo && decide (t.rv = 0 ∧ t.rs = some [] ∧ t.rsSz = 8) && (p.1.thread false).writesBack &&
        decide (p.1.tm.align = 8 ∧ p.1.tm.vaArr 0 = .segment 0 ∧
          p.1.tm.segment 0 = some ⟨(2 ^ 32 + 3) * 8, 3, .ready⟩ ∧ p.1.tm.lock ⟨0, 0⟩ = 0 ∧
          p.1.tm.data ⟨0, 1⟩ = 0 ∧ p.1.tm.data ⟨0, 2⟩ = 0)
  have hinit : (system Bool (Platform.x86 Nat)).init (State.fresh Bool Nat ((2 ^ 32 + 3) * 8) 8) :=
    State.fresh_init (by decide) (by decide) (by decide) ⟨3, rfl⟩ (by decide) (by decide)
  have hrun : ∃ p, (rangeMachine Bool (Platform.x86 Nat) VersionsBounded).Reachable p ∧
      test p = true :=
    exists_of_schedule versionsBounded versionsBounded_sound hinit writerAhead test
      (by decide +kernel)
  obtain ⟨⟨⟨tm, thread⟩, r⟩, hreach, htest⟩ := hrun
  obtain ⟨t, hresting, hfacts⟩ := (Option.any_eq_true _ _).mp htest
  simp only [Bool.and_eq_true, decide_eq_true_eq] at hfacts
  obtain ⟨⟨⟨hro, hrv, hrs, hsz⟩, hwrites⟩, halign, hentry, hsegment, hlock, hdata⟩ := hfacts
  have hthreads : thread = fun tid => cond tid (.live t) (thread false) := by
    funext tid
    cases tid
    · rfl
    · exact Thread.eq_of_resting hresting
  rw [hthreads] at hreach
  exact ⟨tm, t, thread false, r, ⟨halign, hentry, hsegment, hlock, hdata⟩, hro, hrv, hrs, hsz,
    hwrites, hreach⟩

/-- The three writes of the writer that a reader can slip between. -/
theorem TornRead.written (hsegment : tm.segment 0 = some ⟨size, 3, .ready⟩)
    (hwrites : writer.writesBack = true) (h : TornRead words tm reader writer) :
    ∃ (tm' : Tm Nat) (writer' : Thread Nat), TornRead words tm' reader writer' ∧
      tm'.segment = tm.segment ∧ tm'.lock ⟨0, 0⟩ = tm.lock ⟨0, 0⟩ ∧ tm'.data ⟨0, 1⟩ = 1 ∧
      tm'.data ⟨0, 2⟩ = 1 := by
  unfold Thread.writesBack at hwrites
  split at hwrites
  · rename_i t wv
    rw [decide_eq_true_eq] at hwrites
    match hws : t.ws, hwrites with
    | [first, second], hwrites =>
        simp only [List.map_cons, List.map_nil, List.cons.injEq, Prod.mk.injEq, and_true] at hwrites
        obtain ⟨⟨hfirst, hfirstLock, hone⟩, hsecond, hsecondLock, htwo⟩ := hwrites
        have hput := h.next false {} (.op (.copyIn ⟨0, 1⟩ 1)) (.ending t (.release wv 0))
          (by simp [Thread.step, tmEndStep, hws, hfirst, hone, Tm.valid, hsegment, Move.op])
          (by simp) (by simp) (by simp [Tm.after, Tm.apply])
        have hreleased := hput.next false {} (.op (.storeLock ⟨0, 1⟩ (vlUnlockUpdate wv)))
          (.ending t (.copy wv 1))
          (by simp [Thread.step, tmEndStep, hws, hfirstLock, Tm.valid, hsegment, Move.op, Tm.after,
            Tm.apply])
          (by simp) (by simp) (by simp [Tm.after, Tm.apply])
        have hlast := hreleased.next false {} (.op (.copyIn ⟨0, 2⟩ 1)) (.ending t (.release wv 1))
          (by simp [Thread.step, tmEndStep, hws, hsecond, htwo, Tm.valid, hsegment, Move.op,
            Tm.after, Tm.apply])
          (by simp) (by simp) (by simp [Tm.after, Tm.apply])
        exact ⟨_, _, hlast, rfl, by simp [Tm.after, Tm.apply], by simp [Tm.after, Tm.apply],
          by simp [Tm.after, Tm.apply]⟩
    | [], hwrites | [_], hwrites | _ :: _ :: _ :: _, hwrites => simp at hwrites
  · cases hwrites

/-- The call of a range whose length is one in `int`. -/
theorem exists_tornRead {n : Nat} {t : Tx Nat} {r : Bool → ReadRecord Nat} (hpos : 0 < n)
    (hnum : toInt (n : Int) = 1) (hsize : n * 8 ≤ size) (hwrapped : tm.Wrapped size)
    (hro : t.isRo = true) (hreach : (rangeMachine Bool (Platform.x86 Nat) VersionsBounded).Reachable
      (⟨tm, fun tid => cond tid (.live t) writer⟩, r)) :
    TornRead ((List.range n).map fun i => ⟨0, i⟩) tm (.roReading t ⟨0, 0, 1, 0, n⟩ (.pre 0 []))
      writer := by
  have hoffset : offsetFromVa (vaFromIndex 0 0) = 0 :=
    offsetFromVa_vaFromIndex (by decide) (by decide)
  have hrange : tm.range (vaFromIndex 0 0) (n * 8) = some 0 := by
    simp [Tm.range, hwrapped.entry, hwrapped.segment, hwrapped.align, hoffset, hsize, hpos,
      indexFromVa_vaFromIndex (show 0 < 65535 by decide) (show 0 < 2 ^ 48 by decide)]
  have hlocals : roTransactionReadCall tm 0 (vaFromIndex 0 0) (n * 8) = some ⟨0, 0, 1, 0, n⟩ := by
    unfold roTransactionReadCall
    rw [hwrapped.align, hoffset, Nat.mul_div_cancel n (by decide), hnum]
    rfl
  let thread : Bool → Thread Nat := fun tid => cond tid (.live t) writer
  have hcall : Thread.step (Platform.x86 Nat) tm { call := some (.read (vaFromIndex 0 0) (n * 8)) }
      (thread true) = .next (.call (.read (vaFromIndex 0 0) (n * 8)),
        .roReading t ⟨0, 0, 1, 0, n⟩ (.pre 0 [])) := by
    simp [thread, Thread.step, callStep, hrange, hro, hlocals]
  have hnext := hreach.step_observe (fun g hg => by cases hg)
    (State.step_of_thread (s := ⟨tm, thread⟩) true hcall)
  have hthreads : Function.update thread true (.roReading t ⟨0, 0, 1, 0, n⟩ (.pre 0 [])) =
      fun tid => cond tid (.roReading t ⟨0, 0, 1, 0, n⟩ (.pre 0 [])) writer := by
    funext tid
    cases tid <;> rfl
  rw [hthreads] at hnext
  refine ⟨_, hnext, ?_, ?_⟩
  · simp [recordReads, Tm.named_eq hrange, Tm.wordsOf, hwrapped.align, hoffset]
  · simp [recordReads, Tm.after, hwrapped.data]

/-- **A range of `2 ^ 32 + 1` words** has length one in `int`. The loops look at the version of its
first word only, and a commit between the copies of the second and the third goes unnoticed. -/
theorem range_read_torn : ¬ ∀ (p : State Bool Nat × (Bool → ReadRecord Nat)) (tid : Bool)
    (target : List Nat) (t : Tx Nat),
    (rangeMachine Bool (Platform.x86 Nat) VersionsBounded).Reachable p →
    p.1.thread tid = .returning (.read (some target)) (some t) → t.isRo = true →
    (p.2 tid).Atomic target := by
  intro hall
  obtain ⟨tm, t, writer, r, hwrapped, hro, hrv, hrs, hsz, hwrites, hreach⟩ := exists_writerAhead
  have hnum : toInt ((2 ^ 32 + 1 : Nat) : Int) = 1 := by decide
  have hn : 2 < 2 ^ 32 + 1 ∧ (2 ^ 32 + 1) * 8 ≤ (2 ^ 32 + 3) * 8 := by omega
  generalize (2 ^ 32 + 1 : Nat) = n at hnum hn
  generalize ((2 ^ 32 + 3) * 8 : Nat) = size at hwrapped hn
  have hword : tm.wordAt 0 0 = some ⟨0, 0⟩ := by simp [Tm.wordAt, Tm.valid, hwrapped.segment]
  have hread : vlReadVersion 0 = 0 := by decide
  have hold : ¬ (tm.data ⟨0, 1⟩ = 0 ∧ tm.data ⟨0, 2⟩ = 1) := by simp [hwrapped.data]
  let words : List Word := (List.range n).map fun i => ⟨0, i⟩
  let c : RoCall := ⟨0, 0, 1, 0, n⟩
  have hcalled : TornRead words tm (.roReading t c (.pre 0 [])) writer :=
    exists_tornRead (by omega) hnum hn.2 hwrapped hro hreach
  have hpre := hcalled.read hold {} (.loadLock ⟨0, 0⟩ 0) (.roReading t c (.pre 1 [0]))
    (by simp [Thread.step, roTransactionReadStep, hword, hwrapped.lock, hread, Move.op, c]) trivial
  have hlooked := hpre.read hold {} .tau (.roReading t c (.copy [0] (List.replicate n none)))
    (by simp [Thread.step, roTransactionReadStep, Move.op, c]) trivial
  have hcopies : ∀ k < n, (List.replicate n (none : Option Nat))[k]? = some none := fun k hk => by
    rw [List.getElem?_replicate, if_pos hk]
  have hsecond := hlooked.copy hold (hcopies 1 (by omega))
  obtain ⟨tm', writer', hwritten, hsegment, hlock, hone, htwo⟩ :=
    hsecond.written hwrapped.segment hwrites
  have hnew : ¬ (tm'.data ⟨0, 1⟩ = 0 ∧ tm'.data ⟨0, 2⟩ = 1) := by simp [hone]
  have hthird := hwritten.copy hnew (k := 2)
    (by rw [List.getElem?_set_ne (by decide)]; exact hcopies 2 hn.1)
  have hlength : (List.replicate n (none : Option Nat)).length = n := List.length_replicate
  obtain ⟨values, hx, hy, hcopied⟩ := hthird.copied (x := 0) (y := 1) hnew
    (by
      rw [List.getElem?_set_ne (by decide), List.getElem?_set_self (by omega)]
      simp [c, hwrapped.data])
    (by rw [List.getElem?_set_self (by rw [List.length_set]; omega)]; simp [c, htwo])
  -- the second loop looks at the first word only
  have hword' : tm'.wordAt 0 0 = some ⟨0, 0⟩ := by
    simp [Tm.wordAt, Tm.valid, hsegment, hwrapped.segment]
  obtain ⟨t', hadd⟩ : ∃ t', t.addToReadset ⟨0, 0⟩ 0 true = .next (true, t') := by
    simp [Tx.addToReadset, hrs, hro, hsz]
  have hchecked := hcopied.read hnew {} (.loadLock ⟨0, 0⟩ 0)
    (.roReading t' c (.post 1 [0] (values.map some)))
    (by simp [Thread.step, roTransactionReadStep, hword', hlock, hwrapped.lock, hread, hrv,
      roRecord, Choice.mallocOk, hadd, Move.op, c]) trivial
  have hdelivered := hchecked.read hnew {} .tau (.returning (.read (some values)) (some t'))
    (by simp [Thread.step, roTransactionReadStep, Move.op, c, reduceOption_map_some]) trivial
  obtain ⟨r', hreach', hwords, hinstants⟩ := hdelivered
  have hro' : t'.isRo = true := (Tx.addToReadset_eq hadd).2.2.1.trans hro
  obtain ⟨m, hm, htarget⟩ := hall _ true values t' hreach' rfl hro'
  have hvalue : ∀ k < n, values[k]? = some (m ⟨0, k⟩) := fun k hk => by
    rw [htarget, hwords]
    simp [words, hk]
  have hzero : m ⟨0, 1⟩ = 0 := Option.some.inj ((hvalue 1 (by omega)).symm.trans hx)
  have hone' : m ⟨0, 2⟩ = 1 := Option.some.inj ((hvalue 2 hn.1).symm.trans hy)
  exact hinstants m hm ⟨hzero, hone'⟩

end Wrapped

end TransactionalMemory
