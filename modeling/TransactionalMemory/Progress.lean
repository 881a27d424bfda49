import TransactionalMemory.MemorySafety
import TransactionalMemory.Proof.Simulation
import Mathlib.Algebra.Order.BigOperators.Group.Finset
import Mathlib.Data.Fintype.Basic

/-!
# Progress

A thread waits only for one of three locks, each lock that is taken has an owner who can move, and
no call has a loop without an end. So while the clients start no new calls, every call in progress
comes to its return, except that a batch deletion waits for the transactions that are still open.
-/

namespace TransactionalMemory

open Concurrency

variable {V Tid : Type}

/-! ### Owners -/

section Owners

variable [Zero V] [DecidableEq Tid] {platform : Platform V} {s : State Tid V}

/-- A lock that only its taker gives back has an owner. -/
theorem exists_owner (taken : Tm V → Bool) (owns : Thread V → Bool)
    (hinit : ∀ s : State Tid V, (system Tid platform).init s → taken s.tm = false)
    (hmove : ∀ tm choice thread event thread',
      ThreadMove platform tm choice thread event thread' → taken (tm.after event) = true →
        owns thread' = true ∨ taken tm = true ∧ owns thread = false)
    (h : (system Tid platform).Reachable s) :
    taken s.tm = true → ∃ tid, owns (s.thread tid) = true := by
  refine h.invariant (P := fun s => taken s.tm = true → ∃ tid, owns (s.thread tid) = true)
    (fun s hs htaken => ?_) fun s l s' _ ih hstep htaken => ?_
  · rw [hinit s hs] at htaken
    cases htaken
  · obtain ⟨hthread, htm, hother⟩ := system_step_move hstep
    rw [htm] at htaken
    rcases hmove _ _ _ _ _ hthread htaken with howns | ⟨hbefore, hnot⟩
    · exact ⟨l.tid, howns⟩
    · obtain ⟨tid, htid⟩ := ih hbefore
      have hne : tid ≠ l.tid := by
        rintro rfl
        rw [hnot] at htid
        cases htid
      exact ⟨tid, by rw [hother tid hne]; exact htid⟩

theorem exists_drains (h : (system Tid platform).Reachable s) (hwriter : s.tm.writer = true) :
    ∃ tid, (s.thread tid).drains = true := by
  refine exists_owner Tm.writer Thread.drains (fun s hs => ?_)
    (fun tm choice thread event thread' hmove htaken => ?_) h hwriter
  · obtain ⟨-, choice, size, align, -, -, -, -, hcreate⟩ := hs
    obtain ⟨-, -, htm⟩ := tmCreate_eq hcreate
    rw [htm]
    rfl
  · cases hmove with
    | finish hmove =>
        cases hmove with
        | wrunlock => cases htaken
        | copied => exact Or.inr ⟨htaken, rfl⟩
        | _ => first | exact Or.inl rfl | exact Or.inr ⟨htaken, rfl⟩
    | call hmove | begin hmove | read hmove | roRead hmove | write hmove | alloc hmove
    | free hmove =>
        cases hmove <;> exact Or.inr ⟨htaken, rfl⟩
    | start | cleanup | retIdle | retLive => exact Or.inr ⟨htaken, rfl⟩

omit [Zero V] in
theorem Tm.deleteSegment_mutex (tm : Tm V) (spot : Int) :
    (tm.deleteSegment spot).virtualMemoryLock = tm.virtualMemoryLock := by
  unfold Tm.deleteSegment
  split <;> rfl

theorem exists_inMutex (h : (system Tid platform).Reachable s)
    (htaken : s.tm.virtualMemoryLock = true) : ∃ tid, (s.thread tid).inMutex = true := by
  refine exists_owner Tm.virtualMemoryLock Thread.inMutex (fun s hs => ?_)
    (fun tm choice thread event thread' hmove htaken => ?_) h htaken
  · obtain ⟨-, choice, size, align, -, -, -, -, hcreate⟩ := hs
    obtain ⟨-, -, htm⟩ := tmCreate_eq hcreate
    rw [htm]
    rfl
  · cases hmove with
    | alloc hmove =>
        cases hmove with
        | unlock => cases htaken
        | _ => first | exact Or.inl rfl | exact Or.inr ⟨htaken, rfl⟩
    | finish hmove =>
        cases hmove with
        | drainNull | drain => exact Or.inr ⟨by rwa [← Tm.deleteSegment_mutex], rfl⟩
        | _ => exact Or.inr ⟨htaken, rfl⟩
    | call hmove | begin hmove | read hmove | roRead hmove | write hmove | free hmove =>
        cases hmove <;> exact Or.inr ⟨htaken, rfl⟩
    | start | cleanup | retIdle | retLive => exact Or.inr ⟨htaken, rfl⟩

theorem exists_pushing (h : (system Tid platform).Reachable s) (htaken : s.tm.toFreeLock = true) :
    ∃ tid, (s.thread tid).pushing = true := by
  refine exists_owner Tm.toFreeLock Thread.pushing (fun s hs => ?_)
    (fun tm choice thread event thread' hmove htaken => ?_) h htaken
  · obtain ⟨-, choice, size, align, -, -, -, -, hcreate⟩ := hs
    obtain ⟨-, -, htm⟩ := tmCreate_eq hcreate
    rw [htm]
    rfl
  · cases hmove with
    | finish hmove =>
        cases hmove with
        | pushed => cases htaken
        | drainNull | drain => exact Or.inr ⟨by rwa [← (Tm.deleteSegment_queue _ _).1], rfl⟩
        | copied => exact Or.inr ⟨htaken, rfl⟩
        | _ => first | exact Or.inl rfl | exact Or.inr ⟨htaken, rfl⟩
    | call hmove | begin hmove | read hmove | roRead hmove | write hmove | alloc hmove
    | free hmove =>
        cases hmove <;> exact Or.inr ⟨htaken, rfl⟩
    | start | cleanup | retIdle | retLive => exact Or.inr ⟨htaken, rfl⟩

end Owners

/-! ### Waiting -/

def Thread.outside : Thread V → Bool
  | .idle | .live _ => true
  | _ => false

def Thread.Waits (tm : Tm V) : Thread V → Prop
  | .beginning _ .rdlock => tm.writer = true
  | .allocating _ _ .lock => tm.virtualMemoryLock = true
  | .ending _ .lockToFree => tm.toFreeLock = true
  | .ending _ .wrlock => tm.writer = true ∨ tm.readers ≠ 0
  | _ => False

section Blocked

variable {platform : Platform V} {tm : Tm V} {choice : Choice V}

@[simp]
theorem Move.op_ne_blocked {o : Op V} {thread : Thread V} : Move.op o thread ≠ .blocked := nofun

theorem tmReadStep_ne_blocked {t : Tx V} {c : ReadCall} {pc : ReadPc V} :
    tmReadStep platform tm choice t c pc ≠ .blocked := by
  cases pc <;> simp only [tmReadStep] <;> repeat' split
  all_goals simp

theorem roRecord_ne_blocked {t : Tx V} {c : RoCall} {w : Word} {i : Nat} {versionRead : Int}
    {prev : List Int} {target : List (Option V)} {o : Op V} :
    roRecord choice t c w i versionRead prev target o ≠ .blocked := by
  unfold roRecord
  split <;> simp

theorem tmWriteStep_ne_blocked {t : Tx V} {c : WriteCall V} {i : Nat} :
    tmWriteStep platform tm choice t c i ≠ .blocked := by
  simp only [tmWriteStep]
  repeat' split
  all_goals simp

/-- `memcpy` has a word left to copy. -/
theorem exists_word {target : List (Option V)} (h : ¬ target.all Option.isSome = true) :
    ∃ k : Nat, target[k]? = some none := by
  simp only [List.all_eq_true, not_forall] at h
  obtain ⟨x, hmem, hx⟩ := h
  obtain ⟨k, hk⟩ := List.mem_iff_getElem?.mp hmem
  rw [Option.not_isSome_iff_eq_none] at hx
  exact ⟨k, by rw [hk, hx]⟩

theorem roTransactionReadStep_ne_blocked (tm : Tm V) (t : Tx V) (c : RoCall) (pc : RoPc V) :
    ∃ k : Nat, roTransactionReadStep tm { word := k } t c pc ≠ .blocked := by
  cases pc with
  | copy prev target =>
      by_cases hall : target.all Option.isSome = true
      · exact ⟨0, by simp [roTransactionReadStep, hall]⟩
      · obtain ⟨k, hk⟩ := exists_word hall
        refine ⟨k, ?_⟩
        simp only [roTransactionReadStep, if_neg hall, hk]
        simp
  | pre i prev =>
      refine ⟨0, ?_⟩
      simp only [roTransactionReadStep]
      repeat' split
      all_goals simp
  | post i prev target =>
      refine ⟨0, ?_⟩
      simp only [roTransactionReadStep]
      repeat' split
      all_goals first | exact roRecord_ne_blocked | simp
  | loadClock i versionRead prev target => exact ⟨0, by simp [roTransactionReadStep]⟩
  | revalidate i k versionRead nextRv prev target =>
      refine ⟨0, ?_⟩
      simp only [roTransactionReadStep]
      repeat' split
      all_goals first | exact roRecord_ne_blocked | simp

theorem tmAllocStep_ne_blocked {t : Tx V} {size : Nat} {pc : AllocPc}
    (h : ¬ (Thread.allocating t size pc : Thread V).Waits tm) :
    tmAllocStep tm choice t size pc ≠ .blocked := by
  cases pc with
  | lock => simp [tmAllocStep, show tm.virtualMemoryLock = false by simpa [Thread.Waits] using h]
  | _ =>
      simp only [tmAllocStep]
      repeat' split
      all_goals simp

theorem tmEndStep_ne_blocked {t : Tx V} {pc : EndPc}
    (h : ¬ (Thread.ending t pc : Thread V).Waits tm) :
    tmEndStep platform tm choice t pc ≠ .blocked := by
  cases pc with
  | lockToFree => simp [tmEndStep, show tm.toFreeLock = false by simpa [Thread.Waits] using h]
  | wrlock =>
      simp only [Thread.Waits, not_or, not_not] at h
      simp [tmEndStep, h]
  | _ =>
      simp only [tmEndStep]
      repeat' split
      all_goals simp

/-- A thread in a call that waits for no lock is blocked by nothing. -/
theorem exists_choice [Zero V] (platform : Platform V) {thread : Thread V}
    (hin : thread.outside = false) (hwaits : ¬ thread.Waits tm) :
    ∃ k : Nat, thread.step platform tm { word := k } ≠ .blocked := by
  cases thread with
  | idle => cases hin
  | live t => cases hin
  | beginning isRo pc =>
      refine ⟨0, ?_⟩
      cases pc with
      | rdlock =>
          simp [Thread.step, tmBeginStep,
            show tm.writer = false by simpa [Thread.Waits] using hwaits]
      | body =>
          simp only [Thread.step, tmBeginStep]
          repeat' split
          all_goals simp
  | reading t c pc => exact ⟨0, tmReadStep_ne_blocked⟩
  | roReading t c pc => exact roTransactionReadStep_ne_blocked tm t c pc
  | writing t c i => exact ⟨0, tmWriteStep_ne_blocked⟩
  | allocating t size pc => exact ⟨0, tmAllocStep_ne_blocked hwaits⟩
  | freeing t target =>
      refine ⟨0, ?_⟩
      simp only [Thread.step, tmFreeStep]
      repeat' split
      all_goals simp
  | ending t pc => exact ⟨0, tmEndStep_ne_blocked hwaits⟩
  | aborting t r => exact ⟨0, by simp [Thread.step, transactionCleanupStep]⟩
  | returning r t => exact ⟨0, by cases t <;> simp [Thread.step]⟩

end Blocked

/-! ### No deadlock -/

section Deadlock

variable [Zero V] [DecidableEq Tid] {platform : Platform V} {s s' : State Tid V} {l : Label Tid V}

omit [Zero V] in
/-- A `tm_begin` that fails has run out of memory. -/
theorem ThreadMove.begin_ne_false {tm : Tm V} {choice : Choice V} {thread thread' : Thread V}
    {event : Event V} (hmove : ThreadMove platform tm choice thread event thread')
    (hmallocs : ∀ i, choice.mallocOk i = true) (hanswers : thread.Answers) (t : Option (Tx V)) :
    thread' ≠ .returning (.begin false) t := by
  intro hafter
  cases hmove with
  | begin hbegin =>
      cases hbegin with
      | noStruct hmalloc =>
          rw [hmallocs 0] at hmalloc
          cases hmalloc
      | noSets hmalloc =>
          rcases hmalloc with hmalloc | ⟨-, hmalloc⟩ <;> rw [hmallocs] at hmalloc <;> cases hmalloc
      | rdlock | started => cases hafter
  | cleanup =>
      cases hafter
      exact hanswers.2.2 false rfl
  | finish hend =>
      cases hend with
      | _ => cases hafter
  | call hmove | read hmove | roRead hmove | write hmove | alloc hmove | free hmove =>
      cases hmove <;> cases hafter
  | start | retIdle | retLive => cases hafter

/-- Where no allocation fails, all read holds are those of open transactions. -/
theorem holds_of_noFailure (h : ((system Tid platform).restrict NoFailure).Reachable s) :
    ∃ holders, HoldsInv s holders 0 := by
  have hkept : (∃ holders, HoldsInv s holders 0) ∧
      ∀ tid t, s.thread tid ≠ .returning (.begin false) t := by
    refine Machine.Reachable.invariant (M := (system Tid platform).restrict NoFailure)
      (P := fun s => (∃ holders, HoldsInv s holders 0) ∧
        ∀ tid t, s.thread tid ≠ .returning (.begin false) t) (fun s hs => ?_)
      (fun s l s' hreach ih hs => ?_) h
    · refine ⟨⟨∅, HoldsInv.init (show (system Tid platform).init s from hs)⟩,
        fun tid t hthread => ?_⟩
      rw [hs.1 tid] at hthread
      cases hthread
    · obtain ⟨hok, hstep⟩ := hs
      obtain ⟨⟨holders, hholds⟩, hnot⟩ := ih
      have hanswers := threadAnswers hreach.of_restrict l.tid
      obtain ⟨hmove, -, hother⟩ := system_step_move hstep
      have hevent : l.event ≠ .ret (.begin false) := by
        intro hevent
        have hbefore := hnot l.tid
        generalize l.event = event, s.thread l.tid = thread,
          s'.thread l.tid = thread' at hmove hevent hbefore
        cases hmove with
        | retIdle => cases hevent; exact hbefore _ rfl
        | retLive => cases hevent; exact hbefore _ rfl
        | call hmove | begin hmove | read hmove | roRead hmove | write hmove | alloc hmove
          | free hmove | finish hmove => cases hmove <;> cases hevent
        | start | cleanup => cases hevent
      refine ⟨?_, fun tid t => ?_⟩
      · obtain ⟨holders', hholds'⟩ := hholds.step hanswers hstep
        have hlost : lostNext l.event 0 = 0 := by
          unfold lostNext
          split
          · contradiction
          · rfl
        exact ⟨holders', hlost ▸ hholds'⟩
      · by_cases heq : tid = l.tid
        · rw [heq]
          exact hmove.begin_ne_false hok.1 hanswers t
        · rw [hother tid heq]
          exact hnot tid t
  exact hkept.1

/-- A batch deletion waits for an open transaction that is between two calls. -/
def State.WaitsForClient (s : State Tid V) (tid : Tid) : Prop :=
  (∃ t, s.thread tid = .ending t .wrlock) ∧ ∃ u t, s.thread u = .live t

/-- **No deadlock.** Some thread can move whenever a call is in progress that waits for no client.
-/
theorem exists_mover (h : ((system Tid platform).restrict NoFailure).Reachable s) {tid : Tid}
    (hin : (s.thread tid).outside = false) (hclient : ¬ s.WaitsForClient tid) :
    ∃ u, (s.thread u).outside = false ∧ ¬ (s.thread u).Waits s.tm := by
  have hsystem := h.of_restrict
  have hdrains : s.tm.writer = true → ∃ u, (s.thread u).outside = false ∧
      ¬ (s.thread u).Waits s.tm := by
    intro hwriter
    obtain ⟨u, hu⟩ := exists_drains hsystem hwriter
    refine ⟨u, ?_⟩
    generalize s.thread u = thread at hu
    unfold Thread.drains at hu
    split at hu <;> first | exact ⟨rfl, id⟩ | cases hu
  have hmutex : s.tm.virtualMemoryLock = true →
      ∃ u, (s.thread u).outside = false ∧ ¬ (s.thread u).Waits s.tm := by
    intro htaken
    obtain ⟨u, hu⟩ := exists_inMutex hsystem htaken
    refine ⟨u, ?_⟩
    cases hthread : s.thread u with
    | allocating t size pc =>
        rw [hthread] at hu
        cases pc <;> first | exact ⟨rfl, id⟩ | cases hu
    | _ =>
        rw [hthread] at hu
        cases hu
  have hqueue : s.tm.toFreeLock = true →
      ∃ u, (s.thread u).outside = false ∧ ¬ (s.thread u).Waits s.tm := by
    intro htaken
    obtain ⟨u, hu⟩ := exists_pushing hsystem htaken
    refine ⟨u, ?_⟩
    generalize s.thread u = thread at hu
    unfold Thread.pushing at hu
    split at hu <;> first | exact ⟨rfl, id⟩ | cases hu
  -- a thread with a read hold waits for one of the two mutexes at most
  have hholder : ∀ u, (s.thread u).outside = false → (s.thread u).holds = true →
      ∃ u, (s.thread u).outside = false ∧ ¬ (s.thread u).Waits s.tm := by
    intro u hu hheld
    by_cases hwaits : (s.thread u).Waits s.tm
    · generalize s.thread u = thread at hwaits hheld
      unfold Thread.Waits at hwaits
      split at hwaits
      · cases hheld
      · exact hmutex hwaits
      · exact hqueue hwaits
      · cases hheld
      · exact hwaits.elim
    · exact ⟨u, hu, hwaits⟩
  by_cases hwaits : (s.thread tid).Waits s.tm
  · cases hthread : s.thread tid with
    | ending t pc =>
        rw [hthread] at hwaits
        cases pc with
        | wrlock =>
            rcases hwaits with hwriter | hreaders
            · exact hdrains hwriter
            · obtain ⟨holders, hholds⟩ := holds_of_noFailure h
              have hcard : holders.card ≠ 0 := by
                rw [hholds.readers] at hreaders
                exact hreaders
              obtain ⟨u, hu⟩ := Finset.card_pos.mp (Nat.pos_of_ne_zero hcard)
              have hheld := (hholds.mem u).mp hu
              refine hholder u ?_ hheld
              cases hthread' : s.thread u with
              | live t' => exact absurd ⟨⟨t, hthread⟩, u, t', hthread'⟩ hclient
              | idle =>
                  rw [hthread'] at hheld
                  cases hheld
              | _ => rfl
        | lockToFree => exact hqueue hwaits
        | _ => exact hwaits.elim
    | beginning isRo pc =>
        rw [hthread] at hwaits
        cases pc with
        | rdlock => exact hdrains hwaits
        | body => exact hwaits.elim
    | allocating t size pc =>
        rw [hthread] at hwaits
        cases pc with
        | lock => exact hmutex hwaits
        | _ => exact hwaits.elim
    | _ =>
        rw [hthread] at hwaits
        exact hwaits.elim
  · exact ⟨tid, hin, hwaits⟩

end Deadlock

/-! ### What is left of a call -/

def Tx.reads (t : Tx V) : Nat := (t.rs.getD []).length

/-- A bound on the steps left of `ro_transaction_read`, in a range of `n` words with `len` entries
in the read set: each word may have them all revalidated, and adds one. -/
def RoPc.cost (n words len : Nat) : RoPc V → Nat
  | .pre i _ => (n - i) + words + n * (len + n + 4) + 5
  | .copy _ target => target.countP Option.isNone + n * (len + n + 4) + 4
  | .post i _ _ => (n - i) * (len + (n - i) + 4) + 3
  | .loadClock i _ _ _ => (n - i) * (len + (n - i) + 4) + 2
  | .revalidate i k _ _ _ _ => (n - (i + 1)) * (len + (n - i) + 4) + (len - k) + 4

/-- The same for a `tm_end` with `w` words, `r` reads and `f` frees, where `queue` frees are queued
and at most `bound` will be. -/
def EndPc.cost (w r f queue bound : Nat) : EndPc → Nat
  | .start => 4 * w + r + f + bound + 14
  | .tryLoad i => 2 * (w - i) + 2 * w + r + f + bound + 13
  | .tryCas i _ => 2 * (w - i) + 2 * w + r + f + bound + 12
  | .rollback i j => (i - j) + 3
  | .fetchAdd => 2 * w + r + f + bound + 12
  | .validate _ i => (r - i) + 2 * w + f + bound + 11
  | .undo _ j => (w - j) + 3
  | .validated _ => 2 * w + f + bound + 10
  | .copy _ i => 2 * (w - i) + f + bound + 9
  | .release _ i => 2 * (w - i) + f + bound + 8
  | .lockToFree => f + bound + 8
  | .push i => (f - i) + bound + 7
  | .unlockCleanup => bound + 6
  | .checkBatch => bound + 5
  | .wrlock => bound + 4
  | .drain i => (queue - i) + 3
  | .wrunlock => 2

def Thread.cost (queue bound : Nat) : Thread V → Nat
  | .idle | .live _ => 0
  | .returning _ _ => 1
  | .aborting _ _ => 2
  | .beginning _ .rdlock => 3
  | .beginning _ .body => 2
  | .reading _ c pc => pc.remaining c.numWords.toNat + 2
  | .roReading t c pc => pc.cost c.numWords.toNat c.words t.reads
  | .writing _ c i => (c.numWords.toNat - i) + 3
  | .allocating _ _ pc => pc.remaining + 2
  | .freeing _ _ => 3
  | .ending t pc => pc.cost t.ws.length t.reads t.toFree.length queue bound

def EndPc.pushes (f : Nat) : EndPc → Nat
  | .rollback _ _ | .undo _ _ | .unlockCleanup | .checkBatch | .wrlock | .drain _ | .wrunlock => 0
  | .push i => f - i
  | _ => f

def Thread.pushes : Thread V → Nat
  | .ending t pc => pc.pushes t.toFree.length
  | _ => 0

section Cost

variable [Zero V] {platform : Platform V} {tm : Tm V} {choice : Choice V}
  {thread thread' : Thread V} {event : Event V}

omit [Zero V] in
/-- In a read-only transaction every read is one entry. -/
theorem Tx.reads_addToReadset {t t' : Tx V} {w : Word} {versionRead : Int} {reallocOk : Bool}
    (hro : t.isRo = true) (hadd : t.addToReadset w versionRead reallocOk = .next (true, t')) :
    t'.reads = t.reads + 1 := by
  obtain ⟨rs, hrs, ⟨-, -, hrw, -⟩ | ⟨hfalse, -⟩ | ⟨-, -, sz, rfl⟩⟩ := Tx.addToReadset_cases hadd
  · rw [hro] at hrw
    cases hrw
  · cases hfalse
  · simp [Tx.reads, hrs]

/-- The turns left at turn `i`, and at the next. -/
theorem turns_left {n : Int} {i : Nat} (h : (i : Int) < n) :
    ∃ k, n.toNat - i = k + 1 ∧ n.toNat - (i + 1) = k := ⟨n.toNat - (i + 1), by omega, rfl⟩

omit [Zero V] in
theorem RoReadMove.cost_lt {t : Tx V} {c : RoCall} {pc : RoPc V} {queue bound : Nat}
    (hmove : RoReadMove tm choice t c pc event thread') (hro : t.isRo = true)
    (hturn : ∀ i, pc.turn = some i → (i : Int) < c.numWords) :
    thread'.cost queue bound < (Thread.roReading t c pc).cost queue bound := by
  cases hmove with
  | preDone =>
      simp only [Thread.cost, RoPc.cost, List.countP_replicate, Option.isNone_none, if_true]
      omega
  | @copied k prev target hk =>
      obtain ⟨hlt, hget⟩ := List.getElem?_eq_some_iff.mp hk
      have hpos : 0 < target.countP Option.isNone :=
        List.countP_pos_iff.mpr ⟨none, List.mem_of_getElem? hk, rfl⟩
      simp only [Thread.cost, RoPc.cost, List.countP_set hlt, hget, Option.isNone_none,
        Option.isNone_some, if_true, Bool.false_eq_true, if_false]
      omega
  | recorded hi hw hread hold hadd =>
      obtain ⟨k, hleft, hnext⟩ := turns_left hi
      have hsame : t.reads + 1 + k + 4 = t.reads + (k + 1) + 4 := by omega
      simp only [Thread.cost, RoPc.cost, Tx.reads_addToReadset hro hadd, hleft, hnext, hsame,
        Nat.add_mul k 1]
      omega
  | clock =>
      obtain ⟨k, hleft, hnext⟩ := turns_left (hturn _ rfl)
      simp only [Thread.cost, RoPc.cost, hleft, hnext, Nat.add_mul k 1]
      omega
  | @revalidated _ k _ _ _ _ rs _ _ hrs hk =>
      have hlt : k < t.reads := by
        rw [Tx.reads, hrs]
        exact (List.getElem?_eq_some_iff.mp hk).1
      simp only [Thread.cost, RoPc.cost]
      omega
  | @extended _ _ _ nextRv _ _ _ _ t' hrs hk hw hadd =>
      obtain ⟨k, hleft, hnext⟩ := turns_left (hturn _ rfl)
      have hreads : t'.reads = t.reads + 1 :=
        @Tx.reads_addToReadset V { t with rv := nextRv } t' _ _ _ hro hadd
      have hsame : t.reads + 1 + k + 4 = t.reads + (k + 1) + 4 := by omega
      simp only [Thread.cost, RoPc.cost, hreads, hleft, hnext, hsame]
      omega
  | _ =>
      simp only [Thread.cost, RoPc.cost, Nat.sub_zero]
      omega

omit [Zero V] in
theorem Tm.toFree_deleteSegment (tm : Tm V) (spot : Int) :
    (tm.deleteSegment spot).toFree = tm.toFree := (Tm.deleteSegment_queue tm spot).2.1

/-- A step of `tm_end` brings the return closer. -/
theorem TmEndMove.cost_lt {t : Tx V} {pc : EndPc} {bound : Nat}
    (hmove : TmEndMove platform tm t pc event thread') (hin : pc.InBounds t)
    (hqueue : tm.toFree.length ≤ bound) :
    thread'.cost (tm.after event).toFree.length bound <
      (Thread.ending t pc).cost tm.toFree.length bound := by
  cases hmove with
  | sort =>
      have hlength := (platform.qsort_perm wsItemCmp t.ws).length_eq
      have hreads : Tx.reads { t with ws := platform.qsort wsItemCmp t.ws } = t.reads := rfl
      simp only [Thread.cost, EndPc.cost, hlength, hreads]
      omega
  | refused hi | tryLoad hi | cas hi | casLost hi | undo hi | copy hi | release hi =>
      have hlt := (List.getElem?_eq_some_iff.mp hi).1
      simp only [Thread.cost, EndPc.cost]
      omega
  | validateErased hrs hi | validate hrs hi | validateFailed hrs hi =>
      have hlt := (List.getElem?_eq_some_iff.mp hi).1
      simp only [Thread.cost, EndPc.cost, Tx.reads, hrs, Option.getD_some]
      omega
  | push hi =>
      have hlt := (List.getElem?_eq_some_iff.mp hi).1
      simp only [Thread.cost, EndPc.cost]
      omega
  | drainNull hi | drain hi =>
      have hlt := (List.getElem?_eq_some_iff.mp hi).1
      simp only [Thread.cost, EndPc.cost, Tm.after, Tm.apply, Tm.toFree_deleteSegment]
      omega
  | wrlock =>
      simp only [Thread.cost, EndPc.cost, Tm.after, Tm.apply]
      omega
  | copied =>
      split <;> simp only [Thread.cost, EndPc.cost] <;> omega
  | _ =>
      simp only [Thread.cost, EndPc.cost]
      omega

/-- The queue never gets longer than its entries and those that are on their way. -/
theorem TmEndMove.pushes_le {t : Tx V} {pc : EndPc}
    (hmove : TmEndMove platform tm t pc event thread') :
    (tm.after event).toFree.length + thread'.pushes ≤
      tm.toFree.length + (Thread.ending t pc).pushes := by
  cases hmove with
  | push hi =>
      have hlt := (List.getElem?_eq_some_iff.mp hi).1
      simp only [Thread.pushes, EndPc.pushes, Tm.after, Tm.apply, List.length_append,
        List.length_singleton]
      omega
  | drainNull | drain =>
      simp only [Thread.pushes, EndPc.pushes, Tm.after, Tm.apply, Tm.toFree_deleteSegment]
      omega
  | copied => split <;> simp [Thread.pushes, EndPc.pushes, Tm.after, Tm.apply]
  | _ => simp [Thread.pushes, EndPc.pushes, Tm.after, Tm.apply]

omit [Zero V] in
theorem TmReadMove.cost_lt {t : Tx V} {c : ReadCall} {pc : ReadPc V} {queue bound : Nat}
    (hmove : TmReadMove platform tm choice t c pc event thread')
    (hturn : ∀ i, pc.turn = some i → (i : Int) < c.numWords) :
    thread'.cost queue bound < (Thread.reading t c pc).cost queue bound := by
  cases hmove with
  | refused | loaded | copied | changed | confirmed =>
      have hlt := hturn _ rfl
      simp only [Thread.cost, ReadPc.remaining]
      omega
  | _ =>
      simp only [Thread.cost, ReadPc.remaining]
      omega

/-- Every step inside a call brings its return closer. -/
theorem ThreadMove.cost_lt (hmove : ThreadMove platform tm choice thread event thread')
    (hcall : ∀ call, event ≠ .call call) (hin : thread.InBounds tm) (hmode : thread.Mode)
    (hfailing : ∀ pc, thread.allocPc = some pc → pc.failing = false) {bound : Nat}
    (hqueue : tm.toFree.length ≤ bound) :
    thread'.cost (tm.after event).toFree.length bound < thread.cost tm.toFree.length bound := by
  cases hmove with
  | start => exact absurd rfl (hcall _)
  | call hmove => cases hmove <;> exact absurd rfl (hcall _)
  | begin hmove => cases hmove <;> simp [Thread.cost]
  | read hmove => exact hmove.cost_lt hin.2.2.2
  | roRead hmove => exact hmove.cost_lt hmode hin.2
  | write hmove =>
      cases hmove <;> simp only [Thread.cost] <;> omega
  | alloc hmove =>
      have hpc := hfailing _ rfl
      cases hmove with
      | pushNode | pushStore => cases hpc
      | _ => simp [Thread.cost, AllocPc.remaining]
  | free hmove => cases hmove <;> simp [Thread.cost]
  | finish hmove => exact hmove.cost_lt hin hqueue
  | cleanup | retIdle | retLive => simp [Thread.cost]

theorem ThreadMove.pushes_le (hmove : ThreadMove platform tm choice thread event thread')
    (hcall : ∀ call, event ≠ .call call) :
    (tm.after event).toFree.length + thread'.pushes ≤ tm.toFree.length + thread.pushes := by
  cases hmove with
  | finish hmove => exact hmove.pushes_le
  | start => exact absurd rfl (hcall _)
  | call hmove => cases hmove <;> exact absurd rfl (hcall _)
  | begin hmove | read hmove | roRead hmove | write hmove | alloc hmove | free hmove =>
      cases hmove <;> exact le_rfl
  | cleanup | retIdle | retLive => exact le_rfl

omit [Zero V] in
theorem Thread.cost_mono {queue queue' bound bound' : Nat} (hbound : bound' ≤ bound)
    (hqueue : thread.drains = true → queue' = queue) :
    thread.cost queue' bound' ≤ thread.cost queue bound := by
  cases thread with
  | ending t pc =>
      cases pc with
      | drain i =>
          rw [hqueue rfl]
          exact Nat.le_refl _
      | _ =>
          simp only [Thread.cost, EndPc.cost]
          omega
  | beginning isRo pc => cases pc <;> exact Nat.le_refl _
  | _ => exact Nat.le_refl _

/-- Only a step under `to_free_lock` or in a batch deletion changes the length of the queue. -/
theorem ThreadMove.toFree_eq (hmove : ThreadMove platform tm choice thread event thread')
    (hpushing : thread.pushing = false) (hdrains : thread.drains = false) :
    (tm.after event).toFree = tm.toFree := by
  cases hmove with
  | finish hmove =>
      cases hmove with
      | push => cases hpushing
      | drainNull | drain | drained => cases hdrains
      | _ => rfl
  | call hmove | begin hmove | read hmove | roRead hmove | write hmove | alloc hmove | free hmove =>
      cases hmove <;> rfl
  | start | cleanup | retIdle | retLive => rfl

end Cost

/-! ### Calls return -/

section Return

variable [Zero V] [DecidableEq Tid] {platform : Platform V} {s s' : State Tid V} {l : Label Tid V}

/-- From any state that such a run reaches, the clients start no new calls. -/
def servingMachine (Tid : Type) [DecidableEq Tid] (platform : Platform V) :
    Machine (State Tid V) (Label Tid V) where
  init := (safeMachine Tid platform).Reachable
  step s l s' := (∀ call, l.event ≠ .call call) ∧ (safeMachine Tid platform).step s l s'

/-- Every call has returned, but for batch deletions that wait for a client. -/
def State.Settled (s : State Tid V) : Prop :=
  ∀ tid, (s.thread tid).outside = true ∨ s.WaitsForClient tid

theorem safe_of_serving (h : (servingMachine Tid platform).Reachable s) :
    (safeMachine Tid platform).Reachable s := by
  refine h.invariant (P := fun s => (safeMachine Tid platform).Reachable s) (fun s hs => hs)
    fun s l s' _ ih hstep => ?_
  exact ih.step hstep.2

omit [Zero V] [DecidableEq Tid] in
/-- Inside a call the client has nothing to say. -/
theorem ThreadMove.ne_call {tm : Tm V} {choice : Choice V} {thread thread' : Thread V}
    {event : Event V} (hmove : ThreadMove platform tm choice thread event thread')
    (hin : thread.outside = false) (call : Call V) : event ≠ .call call := by
  intro hevent
  cases hmove with
  | start | call => cases hin
  | begin hmove | read hmove | roRead hmove | write hmove | alloc hmove | free hmove
    | finish hmove => cases hmove <;> cases hevent
  | cleanup | retIdle | retLive => cases hevent

omit [Zero V] [DecidableEq Tid] in
/-- With memory for all, a segment gets its data and its locks. -/
theorem ThreadMove.ne_fail {tm : Tm V} {choice : Choice V} {thread thread' : Thread V}
    {event : Event V} (hmove : ThreadMove platform tm choice thread event thread')
    (hmallocs : ∀ i, choice.mallocOk i = true) (halign : 8 ∣ tm.align) (hin : thread.InBounds tm)
    (g : SegId) : event ≠ .op (.failData g) ∧ event ≠ .op (.failLocks g) := by
  cases hmove with
  | @alloc t size pc _ _ hmove =>
      obtain ⟨-, hlt, -⟩ := hin
      cases hmove with
      | noData hmalloc =>
          rw [posixMemalign, hmallocs, decide_eq_true halign] at hmalloc
          cases hmalloc
      | noLocks hmalloc =>
          have hcount : toInt (size / tm.align : Nat) = (size / tm.align : Nat) := toInt_natCast hlt
          have hpos : (0 : Int) ≤ (size / tm.align : Nat) := Int.natCast_nonneg _
          rw [mallocLocks, hmallocs, hcount, decide_eq_true hpos] at hmalloc
          cases hmalloc
      | _ => simp
  | call hmove | begin hmove | read hmove | roRead hmove | write hmove | free hmove
  | finish hmove =>
      cases hmove <;> simp
  | start | cleanup | retIdle | retLive => simp

/-- **Progress.** Unless every call has returned, some thread makes a step inside its call. -/
theorem exists_step (h : (safeMachine Tid platform).Reachable s) (hwithin : s.Within)
    (hsettled : ¬ s.Settled) : ∃ l s', (servingMachine Tid platform).step s l s' := by
  have hrestricted := noFailure_of_safe h
  obtain ⟨tid, htid⟩ := not_forall.mp hsettled
  rw [not_or, Bool.not_eq_true] at htid
  obtain ⟨u, hin, hwaits⟩ := exists_mover hrestricted htid.1 htid.2
  obtain ⟨k, hblocked⟩ := exists_choice platform hin hwaits
  have hmallocs : ∀ i, ({ word := k } : Choice V).mallocOk i = true := fun _ => rfl
  have hlive : ∀ t, s.thread u ≠ .live t := by
    intro t hlive
    rw [hlive] at hin
    cases hin
  have hcrash := thread_safe h hwithin u { word := k } hmallocs fun t _ hthread =>
    absurd hthread (hlive t)
  have hnext : ∃ event thread',
      (s.thread u).step platform s.tm { word := k } = .next (event, thread') := by
    generalize (s.thread u).step platform s.tm { word := k } = move at hblocked hcrash
    cases move with
    | next move => exact ⟨move.1, move.2, rfl⟩
    | blocked => exact absurd rfl hblocked
    | crash => exact absurd rfl hcrash
  obtain ⟨event, thread', hthread⟩ := hnext
  have hstep := State.step_of_thread u hthread
  obtain ⟨hmove, -, -⟩ := system_step_move hstep
  refine ⟨_, _, hmove.ne_call hin, ⟨⟨hmallocs, ?_⟩, fun t _ hthread => absurd hthread (hlive t)⟩,
    hstep⟩
  exact hmove.ne_fail hmallocs (align_pos_dvd hrestricted.of_restrict).2 ((safeInv h).bounds u)

variable [Fintype Tid]

def State.queueBound (s : State Tid V) : Nat := s.tm.toFree.length + ∑ tid, (s.thread tid).pushes

def State.cost (s : State Tid V) : Nat :=
  ∑ tid, (s.thread tid).cost s.tm.toFree.length s.queueBound

omit [Zero V] in
theorem sum_split (f : Tid → Nat) (tid : Tid) :
    ∑ u, f u = f tid + ∑ u ∈ Finset.univ.erase tid, f u :=
  (Finset.add_sum_erase _ _ (Finset.mem_univ tid)).symm

theorem queueBound_le (hstep : (system Tid platform).step s l s')
    (hcall : ∀ call, l.event ≠ .call call) : s'.queueBound ≤ s.queueBound := by
  obtain ⟨hmove, htm, hother⟩ := system_step_move hstep
  have hmover := hmove.pushes_le hcall
  have hrest : ∑ u ∈ Finset.univ.erase l.tid, (s'.thread u).pushes =
      ∑ u ∈ Finset.univ.erase l.tid, (s.thread u).pushes :=
    Finset.sum_congr rfl fun u hu => by rw [hother u (Finset.ne_of_mem_erase hu)]
  unfold State.queueBound
  rw [sum_split _ l.tid, sum_split (fun u => (s.thread u).pushes) l.tid, hrest, htm]
  omega

/-- Every step of a run without new calls brings its end closer. -/
theorem cost_lt (h : (safeMachine Tid platform).Reachable s)
    (hs : (servingMachine Tid platform).step s l s') : s'.cost < s.cost := by
  obtain ⟨hcall, hok, hstep⟩ := hs
  have hrestricted := noFailure_of_safe h
  have hsystem := hrestricted.of_restrict
  obtain ⟨hmove, htm, hother⟩ := system_step_move hstep
  obtain ⟨holders, lost, hholds⟩ := holdsInv hsystem
  have hbound := queueBound_le hstep hcall
  have hqueue : s.tm.toFree.length ≤ s.queueBound := Nat.le_add_right _ _
  have hmover : (s'.thread l.tid).cost s'.tm.toFree.length s'.queueBound <
      (s.thread l.tid).cost s.tm.toFree.length s.queueBound := by
    rw [htm]
    have hlt := hmove.cost_lt hcall ((safeInv h).bounds l.tid) (threadMode hsystem l.tid)
      (not_failing hrestricted l.tid) hqueue
    exact (Thread.cost_mono hbound fun _ => rfl).trans_lt hlt
  refine Finset.sum_lt_sum (fun u _ => ?_) ⟨l.tid, Finset.mem_univ _, hmover⟩
  by_cases heq : u = l.tid
  · rw [heq]
    exact hmover.le
  · rw [hother u heq]
    refine Thread.cost_mono hbound fun hdrains => ?_
    -- the batch deletion keeps everybody else from the queue
    have hheld := hholds.not_holds_of_drains hdrains l.tid
    have hnot : (s.thread l.tid).drains = false := by
      by_contra hboth
      exact heq (hholds.unique u l.tid hdrains (by simpa using hboth))
    have hpushing : (s.thread l.tid).pushing = false := by
      by_contra hpushing
      generalize s.thread l.tid = thread at hheld hpushing
      unfold Thread.pushing at hpushing
      split at hpushing
      · cases hheld
      · exact hpushing rfl
    rw [htm, hmove.toFree_eq hpushing hnot]

/-- **Calls return.** From every state that clients who keep to the interface reach, once they start
no new calls, every interleaving ends after finitely many steps, and it ends only where every call
has returned, except batch deletions that wait for a transaction which its client has open; or where
the clock or the table of segments has run out. -/
theorem calls_return (h : (safeMachine Tid platform).Reachable s) :
    (servingMachine Tid platform).Inevitable (fun s => s.Settled ∨ ¬ s.Within) s := by
  refine Machine.Reachable.inevitable (M := servingMachine Tid platform) (fun _ => True) State.cost
    (fun s hreach _ hgoal => ?_) (fun s l s' hreach _ _ hstep => ⟨trivial, ?_⟩)
    (.init h) trivial
  · rw [not_or, not_not] at hgoal
    exact exists_step (safe_of_serving hreach) hgoal.2 hgoal.1
  · exact cost_lt (safe_of_serving hreach) hstep

end Return

def Thread.asksMutex : Thread V → Bool
  | .allocating _ _ .lock => true
  | _ => false

/-- Two allocations, one of which waits for the other. -/
theorem calls_return_of_allocs : ∃ s : State Bool Nat, (s.thread true).inMutex = true ∧
    (s.thread false).Waits s.tm ∧ (servingMachine Bool (Platform.x86 Nat)).Inevitable
      (fun s => s.Settled ∨ ¬ s.Within) s := by
  obtain ⟨s, hreach, htest⟩ := safe_of_schedule
    (calls true (.begin false) 3 ++ calls false (.begin false) 3 ++ calls true (.alloc 8) 1 ++
      calls false (.alloc 8) 0)
    (fun s => (s.thread true).inMutex && (s.thread false).asksMutex) (by decide +kernel)
  rw [Bool.and_eq_true] at htest
  refine ⟨s, htest.1, ?_, calls_return hreach⟩
  have hlocked := (mutexInv (noFailure_of_safe hreach).of_restrict).locked true htest.1
  have hasks := htest.2
  generalize s.thread false = thread at hasks
  unfold Thread.asksMutex at hasks
  split at hasks
  · exact hlocked
  · cases hasks

end TransactionalMemory
