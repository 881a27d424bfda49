import TransactionalMemory.Proof.Extension
import TransactionalMemory.Proof.ReadSet

/-!
# Schedules

A schedule names the thread that moves next and what its client and the allocator do. Following one
from a fresh region leads to a reachable state of the system, with whatever recorder beside it.
-/

namespace TransactionalMemory

open Concurrency

variable {V : Type} [Zero V] {Tid : Type} [DecidableEq Tid] {platform : Platform V}

abbrev Schedule (Tid V : Type) := List (Tid × Choice V)

def steps (tid : Tid) (n : Nat) : Schedule Tid V := List.replicate n (tid, {})

/-- A call of a thread's client, and the `n` steps that follow it. -/
def calls (tid : Tid) (call : Call V) (n : Nat) : Schedule Tid V :=
  (tid, { call := some call }) :: steps tid n

def Thread.isIdle : Thread V → Bool
  | .idle => true
  | _ => false

omit [Zero V] in
theorem Thread.eq_of_isIdle {thread : Thread V} (h : thread.isIdle = true) : thread = .idle := by
  cases thread <;> first | rfl | cases h

def Thread.resting : Thread V → Option (Tx V)
  | .live t => some t
  | _ => none

omit [Zero V] in
theorem Thread.eq_of_resting {thread : Thread V} {t : Tx V} (h : thread.resting = some t) :
    thread = .live t := by
  cases thread <;> simp_all [resting]

def Thread.answered : Thread V → Option (List V × Tx V)
  | .returning (.read (some target)) (some t) => some (target, t)
  | _ => none

omit [Zero V] in
theorem Thread.eq_of_answered {thread : Thread V} {target : List V} {t : Tx V}
    (h : thread.answered = some (target, t)) :
    thread = .returning (.read (some target)) (some t) := by
  unfold answered at h
  split at h
  · cases h
    rfl
  · cases h

/-- A region that `tm_create` returned, before any thread moved. -/
def State.fresh (Tid V : Type) [Zero V] (size align : Nat) : State Tid V :=
  ⟨Tm.created true size align, fun _ => .idle⟩

theorem tmCreate_default {size align : Nat} (halign : 8 ∣ align)
    (hsize : 0 ≤ toInt (size / align : Nat)) :
    tmCreate ({} : Choice V) size align = .next (some (Tm.created true size align)) := by
  have hdata : posixMemalign align (({} : Choice V).mallocOk 4) = true := by
    simp [posixMemalign, Choice.mallocOk, halign]
  have hlocks : mallocLocks (toInt (size / align : Nat)) (({} : Choice V).mallocOk 5) = true := by
    simpa only [mallocLocks, Choice.mallocOk, List.getD_nil, Bool.true_and, decide_eq_true_eq]
  unfold tmCreate
  simp only [hdata, hlocks]
  simp [Choice.mallocOk, Tm.apply, Tm.setSegment, Tm.bare, Tm.created, vlInit]

theorem State.fresh_init {size align : Nat} (hpos : 0 < size) (hsize : size < 2 ^ 64)
    (halign : align ∣ size) (hpow : ∃ k, align = 2 ^ k) (height : 8 ∣ align)
    (hwords : 0 ≤ toInt (size / align : Nat)) :
    (system Tid platform).init (State.fresh Tid V size align) :=
  ⟨fun _ => rfl, {}, size, align, hpos, hsize, halign, hpow, tmCreate_default height hwords⟩

theorem State.fresh_init_words (n : Nat) (hpos : 0 < n) (hn : n < 2 ^ 31) :
    (system Tid platform).init (State.fresh Tid V (n * 8) 8) := by
  refine State.fresh_init (by omega) (by omega) ⟨n, by omega⟩ ⟨3, rfl⟩ ⟨1, rfl⟩ ?_
  rw [Nat.mul_div_cancel _ (by decide), toInt_eq_self (by omega) (by omega)]
  omega

def versionsBounded (_ : State Tid V) (l : Label Tid V) : Bool :=
  match l.event with
  | .op (.fetchAddClock g) => decide (g + 1 < 2 ^ 30)
  | _ => true

omit [Zero V] [DecidableEq Tid] in
theorem versionsBounded_sound (s : State Tid V) (l : Label Tid V)
    (h : versionsBounded s l = true) : VersionsBounded s l := by
  intro g hevent
  simpa [versionsBounded, hevent] using h

def noFailure (_ : State Tid V) (l : Label Tid V) : Bool :=
  l.choice.mallocs.all id &&
    match l.event with
    | .op (.failData _) | .op (.failLocks _) => false
    | _ => true

omit [Zero V] [DecidableEq Tid] in
theorem noFailure_sound (s : State Tid V) (l : Label Tid V) (h : noFailure s l = true) :
    NoFailure s l := by
  simp only [noFailure, Bool.and_eq_true, List.all_eq_true, id_eq] at h
  obtain ⟨hmallocs, hevent⟩ := h
  refine ⟨fun i => ?_, fun g => ⟨fun heq => ?_, fun heq => ?_⟩⟩
  · rw [Choice.mallocOk, List.getD_eq_getElem?_getD]
    cases hget : l.choice.mallocs[i]? with
    | none => rfl
    | some ok => exact hmallocs ok (List.mem_of_getElem? hget)
  · simp [heq] at hevent
  · simp [heq] at hevent

def readsFit (s : State Tid V) (l : Label Tid V) : Bool :=
  match s.thread l.tid, l.event with
  | .live t, .call (.read source size) => t.isRo || decide (s.tm.ReadFits source size)
  | _, _ => true

omit [Zero V] [DecidableEq Tid] in
theorem readsFit_sound (s : State Tid V) (l : Label Tid V) (h : readsFit s l = true) :
    ReadsFit s l := by
  intro t source size hthread hrw hevent
  simpa [readsFit, hthread, hevent, hrw] using h

def roReadsFit (s : State Tid V) (l : Label Tid V) : Bool :=
  match s.thread l.tid, l.event with
  | .live t, .call (.read source size) => !t.isRo || decide (s.tm.WordsFit source size)
  | _, _ => true

omit [Zero V] [DecidableEq Tid] in
theorem roReadsFit_sound (s : State Tid V) (l : Label Tid V) (h : roReadsFit s l = true) :
    RoReadsFit s l := by
  intro t source size hthread hro hevent
  simpa [roReadsFit, hthread, hevent, hro] using h

def writesFit (s : State Tid V) (l : Label Tid V) : Bool :=
  match s.thread l.tid, l.event with
  | .live _, .call (.write _ size target) =>
      decide (s.tm.WordsFit target size) && decide (offsetFromVa target + size ≤ 2 ^ 48)
  | _, _ => true

omit [Zero V] [DecidableEq Tid] in
theorem writesFit_sound (s : State Tid V) (l : Label Tid V) (h : writesFit s l = true) :
    WritesFit s l := by
  intro t source size target hthread hevent
  simpa [writesFit, hthread, hevent] using h

def accessOk (s : State Tid V) (l : Label Tid V) : Bool :=
  noFailure s l && readsFit s l && writesFit s l

omit [Zero V] [DecidableEq Tid] in
theorem accessOk_sound (s : State Tid V) (l : Label Tid V) (h : accessOk s l = true) :
    AccessOk s l := by
  simp only [accessOk, Bool.and_eq_true] at h
  obtain ⟨⟨hfailure, hreads⟩, hwrites⟩ := h
  exact ⟨noFailure_sound s l hfailure, readsFit_sound s l hreads, writesFit_sound s l hwrites⟩

theorem State.step_of_thread {s : State Tid V} (tid : Tid) {choice : Choice V} {event : Event V}
    {thread : Thread V} (h : (s.thread tid).step platform s.tm choice = .next (event, thread)) :
    (system Tid platform).step s ⟨tid, choice, event⟩
      ⟨s.tm.after event, Function.update s.thread tid thread⟩ := by
  simp only [system, State.step, h]

/-- Where a schedule leads is reachable. -/
theorem exists_of_schedule {ω : Type} {ok : State Tid V → Label Tid V → Prop}
    (allowed : State Tid V → Label Tid V → Bool) {start : ω}
    {next : State Tid V → Label Tid V → ω → ω} {s : State Tid V}
    (hallowed : ∀ s l, allowed s l = true → ok s l) (hinit : (system Tid platform).init s)
    (turns : Schedule Tid V) (test : State Tid V × ω → Bool)
    (h : (Machine.drive (State.move platform) allowed next (s, start) turns).any test = true) :
    ∃ p, (((system Tid platform).restrict ok).observe start next).Reachable p ∧ test p = true := by
  obtain ⟨p, hdrive, htest⟩ := (Option.any_eq_true _ _).mp h
  have hstart : (((system Tid platform).restrict ok).observe start next).Reachable (s, start) :=
    .init ⟨hinit, rfl⟩
  refine ⟨p, hstart.drive (fun _ _ _ _ => State.step_of_move platform) hallowed hdrive, htest⟩

theorem Platform.x86_bit (V : Type) (pos : Int) : (Platform.x86 V).bit pos ≠ 0#64 := by
  have hbits : ∀ n < 32, ((1#32) <<< n).signExtend 64 ≠ 0#64 := by decide
  exact hbits _ (by omega)

/-! ### Symbolic runs -/

/-- Some run leads to this region and these threads, with some record beside them. -/
def Leads {ω : Type} (M : Machine (State Tid V × ω) (Label Tid V)) (tm : Tm V)
    (thread : Tid → Thread V) : Prop :=
  ∃ r, M.Reachable (⟨tm, thread⟩, r)

/-- One step of one thread, whatever its region holds otherwise. -/
theorem Leads.step {ω : Type} {ok : State Tid V → Label Tid V → Prop} {start : ω}
    {next : State Tid V → Label Tid V → ω → ω} {tm : Tm V} {thread : Tid → Thread V}
    (h : Leads (((system Tid platform).restrict ok).observe start next) tm thread) (tid : Tid)
    (choice : Choice V) (event : Event V) (thread' : Thread V)
    (hstep : (thread tid).step platform tm choice = .next (event, thread'))
    (hok : ok ⟨tm, thread⟩ ⟨tid, choice, event⟩) :
    Leads (((system Tid platform).restrict ok).observe start next) (tm.after event)
      (Function.update thread tid thread') := by
  obtain ⟨r, hreach⟩ := h
  have hsystem : (system Tid platform).step ⟨tm, thread⟩ ⟨tid, choice, event⟩
      ⟨tm.after event, Function.update thread tid thread'⟩ := State.step_of_thread tid hstep
  exact ⟨_, hreach.step_observe hok hsystem⟩

end TransactionalMemory
