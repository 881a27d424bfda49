import TransactionalMemory.Proof.SimulatedCalls
import TransactionalMemory.Proof.Schedules

/-!
# Sequential histories refine the reference

When transactions run one after another, the region answers every call as the implementation with
one lock and plain memory does. Nothing aborts: the thread in its call meets free locks and versions
no newer than its snapshot, so each step brings the answer closer, and the reference then makes its
own step to the same answer.
-/

namespace TransactionalMemory

open Concurrency

variable {V Tid : Type}

def Thread.inside : Thread V → Bool
  | .idle | .live _ | .returning _ _ => false
  | _ => true

/-- `memcpy` is done, or the word it is to copy next is one that it has not copied. -/
def Thread.Ready (word : Nat) : Thread V → Prop
  | .roReading _ _ pc => pc.Ready word
  | _ => True

def Thread.Accepts : Thread V → Call V → Prop
  | .idle, .begin _ => True
  | .live _, .begin _ => False
  | .live _, _ => True
  | _, _ => False

def Thread.AtReturn (thread : Thread V) : Prop := ∃ ret t, thread = .returning ret t

/-! ### One step -/

section Steps

variable [Zero V] {platform : Platform V} {tm : Tm V} {choice : Choice V}
  {thread thread' : Thread V} {r : Mirror V} {event : Event V}

omit [Zero V] in
theorem Thread.exists_ready (thread : Thread V) : ∃ word, thread.Ready word := by
  cases thread with
  | roReading t c pc => exact pc.exists_ready
  | _ => exact ⟨0, trivial⟩

omit [Zero V] in
theorem Thread.step_blocked (h : ¬ thread.Ready choice.word) :
    thread.step platform tm choice = .blocked := by
  cases thread with
  | roReading t c pc => exact roTransactionReadStep_blocked h
  | _ => exact absurd trivial h

/-- **Every step inside a call** does what the reference will want. -/
theorem Simulates.advances (h : Simulates platform tm r thread)
    (hfacts : SoloFacts platform tm thread) (hmalloc : ∀ i, choice.mallocOk i = true)
    (hinside : thread.inside = true) (hready : thread.Ready choice.word) :
    thread.Advances platform tm r (thread.step platform tm choice) := by
  cases thread with
  | beginning => exact h.beginning hmalloc
  | reading => exact h.reading hfacts hmalloc
  | roReading => exact h.roReading hfacts hmalloc hready
  | writing t c i =>
      rw [Thread.step]
      exact h.writing hfacts hmalloc
  | allocating t size pc =>
      rw [Thread.step]
      exact h.allocating hfacts hmalloc
  | freeing t target =>
      rw [Thread.step]
      exact h.freeing hmalloc
  | ending => exact h.ending hfacts hmalloc
  | aborting => exact h.serves.elim
  | idle | live | returning => cases hinside

omit [Zero V] in
theorem Thread.inside_of_op {o : Op V}
    (h : ThreadMove platform tm choice thread (.op o) thread') : thread.inside = true := by
  cases h with
  | call h => cases h
  | _ => rfl

omit [Zero V] in
/-- A call goes on or comes to its answer. -/
theorem Thread.inside_or_atReturn_of_op {o : Op V}
    (h : ThreadMove platform tm choice thread (.op o) thread') :
    thread'.inside = true ∨ thread'.AtReturn := by
  generalize hevent : Event.op o = event at h
  cases h with
  | begin h | read h | roRead h | write h | alloc h | free h | finish h =>
      cases h <;> first | exact Or.inl rfl | exact Or.inr ⟨_, _, rfl⟩
  | cleanup => exact Or.inr ⟨_, _, rfl⟩
  | start | retIdle | retLive => cases hevent
  | call h => cases h <;> cases hevent

/-- No version leaves its type, and no segment stays unfinished. -/
theorem Simulates.boundedOp {o : Op V} (h : Simulates platform tm r thread)
    (hserves : thread'.Serves platform (tm.apply o) r)
    (hmove : ThreadMove platform tm choice thread (.op o) thread') :
    (∀ g, o = .fetchAddClock g → g + 1 < 2 ^ 30) ∧ ∀ g, o ≠ .failData g ∧ o ≠ .failLocks g := by
  generalize hevent : Event.op o = event at hmove
  have hother : (∀ g, o ≠ .fetchAddClock g) ∧ (∀ g, o ≠ .failData g ∧ o ≠ .failLocks g) →
      (∀ g, o = .fetchAddClock g → g + 1 < 2 ^ 30) ∧ ∀ g, o ≠ .failData g ∧ o ≠ .failLocks g :=
    fun hne => ⟨fun g heq => absurd heq (hne.1 g), hne.2⟩
  cases hmove with
  | begin hmove | read hmove | roRead hmove | write hmove | free hmove =>
      cases hmove <;> cases hevent <;> exact hother (by simp)
  | alloc hmove =>
      cases hmove with
      | noData | noLocks =>
          cases hevent
          exact hserves.2.2.2.2.elim
      | _ =>
          cases hevent
          exact hother (by simp)
  | finish hmove =>
      cases hmove with
      | fetchAddSkip | fetchAdd =>
          cases hevent
          have hclock : tm.globalVersion + 1 < 2 ^ 30 := h.serves.2
          refine ⟨?_, by simp⟩
          rintro g ⟨⟩
          exact hclock
      | _ =>
          cases hevent
          exact hother (by simp)
  | cleanup =>
      cases hevent
      exact hother (by simp)
  | start | retIdle | retLive => cases hevent
  | call hmove => cases hmove <;> cases hevent

end Steps

/-! ### Runs -/

section Runs

variable [Zero V] {platform : Platform V} {s : State Tid V} {r : Mirror V} {l : Label Tid V}

/-- The calls of a sequential history are allowed ones of any history. -/
theorem Simulates.sequentialOk (h : Simulates platform s.tm r (s.thread l.tid))
    (hfacts : SoloFacts platform s.tm (s.thread l.tid)) (hmalloc : ∀ i, l.choice.mallocOk i = true)
    (hop : ∀ o, l.event = .op o →
      (∀ g, o = .fetchAddClock g → g + 1 < 2 ^ 30) ∧ ∀ g, o ≠ .failData g ∧ o ≠ .failLocks g)
    (hlegal : ∀ call, l.event = .call call → r.Legal s l.tid call) : SequentialOk s l := by
  have height : 8 ≤ s.tm.align := Nat.le_of_dvd hfacts.align_pos hfacts.align_dvd
  refine ⟨fun g hevent => (hop _ hevent).1 g rfl, ⟨⟨hmalloc, fun g => ⟨fun hevent => ?_,
    fun hevent => ?_⟩⟩, fun t source size hthread _ hevent => ?_,
    fun t source size target hthread hevent => ?_⟩, fun target hevent => ?_⟩
  · exact ((hop _ hevent).2 g).1 rfl
  · exact ((hop _ hevent).2 g).2 rfl
  · have hmemory := h.shown.memory
    rw [hthread] at hmemory
    obtain ⟨p, g, hranged⟩ :=
      Mirror.InRange.ranged (hlegal _ hevent) h.shown.align hmemory
    exact hranged.fits
  · have hmemory := h.shown.memory
    rw [hthread] at hmemory
    obtain ⟨-, hin, -⟩ := hlegal _ hevent
    obtain ⟨p, g, hranged⟩ := hin.ranged h.shown.align hmemory
    obtain ⟨-, hfits⟩ := hranged.fits
    have hoffset : offsetFromVa target / s.tm.align ≤ offsetFromVa target / 8 :=
      Nat.div_le_div_left height (by omega)
    have hsize : size / s.tm.align ≤ size / 8 := Nat.div_le_div_left height (by omega)
    refine ⟨?_, by omega⟩
    unfold Tm.WordsFit
    omega
  · obtain ⟨-, b, hb, hp⟩ := hlegal _ hevent
    obtain ⟨b', hblock, hptr⟩ := Option.map_eq_some_iff.mp hp
    obtain rfl : b' = b := congrArg Reference.Ptr.block hptr
    obtain ⟨n, hn⟩ := Option.ne_none_iff_exists'.mp (h.wf.listed b' hb)
    obtain ⟨-, -, -, g, hinst, -⟩ := h.shown.memory _ b' n hblock hn
    exact ⟨g, _, hinst⟩

end Runs

variable [Zero V] [DecidableEq Tid] {platform : Platform V} {s : State Tid V} {r : Mirror V}
  {p p' : State Tid V × Mirror V} {l : Label Tid V} {tid : Tid}

theorem system_step_thread {s' : State Tid V} (h : (system Tid platform).step s l s') :
    (s.thread l.tid).step platform s.tm l.choice = .next (l.event, s'.thread l.tid) := by
  simp only [system, State.step] at h
  split at h
  · rename_i event thread' hstep
    simp only [Outcome.next.injEq, Prod.mk.injEq] at h
    obtain ⟨rfl, rfl⟩ := h
    simp only [Function.update_self]
    exact hstep
  · cases h
  · cases h

structure SequentialInv (platform : Platform V) (s : State Tid V) (r : Mirror V) : Prop where
  reachable : ((system Tid platform).restrict SequentialOk).Reachable s
  single : ∀ tid, s.thread tid ≠ .idle → Solo s tid
  related : ∃ thread, Simulates platform s.tm r thread
  simulates : ∀ tid, Solo s tid → Simulates platform s.tm r (s.thread tid)

/-- `tm_create` on both sides: one segment of zeros, in the first spot and in the first block. -/
theorem SequentialInv.init (h : (sequentialMachine Tid platform).init p) :
    SequentialInv platform p.1 p.2 := by
  obtain ⟨hidle, choice, size, align, region, hpos, hsize, hdvd, hpow, hmalloc, hcreate, hregion,
    hr⟩ := h
  obtain ⟨-, -, htm⟩ := tmCreate_eq hcreate
  rw [hmalloc 2] at htm
  have hinit : ((system Tid platform).restrict SequentialOk).init p.1 :=
    ⟨hidle, choice, size, align, hpos, by omega, hdvd, hpow, hcreate⟩
  simp only [Reference.tmCreate, Bool.not_true, Bool.false_or, Bool.or_false] at hregion
  split at hregion
  · cases hregion
  obtain rfl := Option.some.inj hregion
  suffices hsim : Simulates platform p.1.tm p.2 .idle from
    ⟨.init hinit, fun tid hne => absurd (hidle tid) hne, ⟨_, hsim⟩, fun tid _ => hidle tid ▸ hsim⟩
  rw [hr, htm]
  have hfirst : ∀ {spot b}, Function.update (fun _ => none) 0 (some 0) spot = some b →
      spot = 0 ∧ b = (0 : Reference.BlockId) := by
    intro spot b hspot
    by_cases hzero : spot = 0
    · subst hzero
      exact ⟨rfl, (Option.some.inj hspot).symm⟩
    · rw [Function.update_of_ne hzero] at hspot
      cases hspot
  have hlive : ∀ {b}, Function.update (fun _ => none) 0 (some size) b ≠ none →
      b = (0 : Reference.BlockId) := by
    intro b hn
    by_contra hzero
    exact hn (Function.update_of_ne hzero _ _)
  have hroom : (0 : Int) < 64 := by decide
  have hsz : (8 : Int) ≤ 64 := by decide
  have hspots : 1 ≤ 65535 := by decide
  refine ⟨⟨rfl, rfl, rfl, rfl, hspots, ⟨hroom, hsz, rfl⟩, ?_, ?_, ?_⟩, ⟨rfl, ?_, ?_⟩, rfl,
    ⟨rfl, rfl⟩, ?_⟩
  · rintro t ⟨⟩
  · rintro t ⟨⟩
  · rintro t ⟨⟩
  · rintro spot b n hspot hn
    obtain ⟨rfl, rfl⟩ := hfirst hspot
    obtain rfl := Option.some.inj hn
    exact ⟨by decide, hsize, hdvd, 0, ⟨rfl, rfl, rfl⟩, fun _ _ => rfl⟩
  · intro spot b _ _
    refine ⟨List.not_mem_nil, ?_⟩
    rintro t ⟨⟩
  · refine ⟨rfl, ⟨Option.some_ne_none _, List.not_mem_nil⟩, fun spot spot' b h h' _ => ?_,
      fun b hb => ⟨0, ?_⟩, fun b hb => absurd hb List.not_mem_nil, List.nodup_nil, fun b hb => ?_,
      fun spot b h => ?_⟩
    · rw [(hfirst h).1, (hfirst h').1]
    · rw [hlive hb]
      rfl
    · rw [hlive hb]
      exact Nat.one_pos
    · rw [(hfirst h).2]
      exact Nat.one_pos

/-- The thread that makes a step has been the only one outside its idle state. -/
theorem SequentialInv.solo (h : SequentialInv platform p.1 p.2)
    (hstep : (sequentialMachine Tid platform).step p l p') : Solo p.1 l.tid := by
  obtain ⟨⟨-, hlegal⟩, hs, -⟩ := hstep
  by_cases hidle : p.1.thread l.tid = .idle
  · obtain ⟨hmove, -, -⟩ := system_step_move hs
    rw [hidle] at hmove
    generalize hevent : l.event = event, p'.1.thread l.tid = thread' at hmove
    cases hmove with
    | start => exact fun u _ => hlegal _ hevent u
  · exact h.single l.tid hidle

/-- **Every step of a sequential history** keeps the relation, and is one that the invariants of all
interleavings allow. -/
theorem SequentialInv.step (hbit : ∀ pos, platform.bit pos ≠ 0#64)
    (h : SequentialInv platform p.1 p.2) (hstep : (sequentialMachine Tid platform).step p l p') :
    SequentialInv platform p'.1 p'.2 := by
  have hsolo := h.solo hstep
  have hsim := h.simulates l.tid hsolo
  have hfacts := soloFacts hbit h.reachable hsolo
  have hanswers := threadAnswers h.reachable.of_restrict l.tid
  obtain ⟨⟨hmalloc, hlegal⟩, hs, hr⟩ := hstep
  obtain ⟨hmove, htm, hothers⟩ := system_step_move hs
  have hthread := system_step_thread hs
  -- what the mover leaves, and whether its step was an allowed one
  have hnext : Simulates platform p'.1.tm p'.2 (p'.1.thread l.tid) ∧ SequentialOk p.1 l := by
    rw [htm, hr, Mirror.next]
    have hok := hsim.sequentialOk hfacts hmalloc
    cases hevent : l.event with
    | op o =>
        rw [hevent] at hmove hthread hok
        have hready : (p.1.thread l.tid).Ready l.choice.word := by
          by_contra hready
          rw [Thread.step_blocked hready] at hthread
          cases hthread
        have hadvances := hsim.advances hfacts hmalloc (Thread.inside_of_op hmove) hready
        obtain ⟨-, hsim', -⟩ := hsim.step hfacts hanswers hmalloc hadvances hthread
        refine ⟨hsim', hok ?_ (by rintro call ⟨⟩)⟩
        rintro o' ⟨⟩
        exact hsim.boundedOp hsim'.serves hmove
    | call call =>
        rw [hevent] at hmove
        exact ⟨hsim.called hanswers hfacts.mode hmalloc (hlegal _ hevent) hmove,
          hok (by simp [hevent]) hlegal⟩
    | ret ret =>
        rw [hevent] at hmove
        obtain ⟨call, answer, region, hcall, hrun, -, hsim'⟩ :=
          hsim.returned hfacts hanswers hmalloc hmove
        have hanswer : p.2.answer = some (answer, region) := by
          simp only [Mirror.answer, hcall, Option.bind_some, hrun]
        simp only [hanswer]
        exact ⟨hsim', hok (by simp [hevent]) (by simp [hevent])⟩
  obtain ⟨hsim', hok⟩ := hnext
  have hothers' : ∀ u, u ≠ l.tid → p'.1.thread u = .idle := fun u hu =>
    (hothers u hu).trans (hsolo u hu)
  refine ⟨h.reachable.step ⟨hok, hs⟩, fun tid hne => ?_, ⟨_, hsim'⟩, fun tid hsolo' => ?_⟩
  · obtain rfl : tid = l.tid := by
      by_contra hother
      exact hne (hothers' tid hother)
    exact hothers'
  · by_cases htid : tid = l.tid
    · rw [htid]
      exact hsim'
    · rw [hothers' tid htid, ← hsolo' l.tid (Ne.symm htid)]
      exact hsim'

theorem sequentialInv (hbit : ∀ pos, platform.bit pos ≠ 0#64)
    (h : (sequentialMachine Tid platform).Reachable p) : SequentialInv platform p.1 p.2 :=
  h.invariant (P := fun p => SequentialInv platform p.1 p.2) (fun _ hp => .init hp)
    fun _ _ _ _ ih hs => ih.step hbit hs

/-! ### What the clients see -/

/-- The step that a thread inside its call makes next, and that there is one. -/
theorem SequentialInv.advances (hbit : ∀ pos, platform.bit pos ≠ 0#64)
    (h : SequentialInv platform p.1 p.2) (hinside : (p.1.thread tid).inside = true)
    (choice : Choice V) (hmalloc : ∀ i, choice.mallocOk i = true)
    (hready : (p.1.thread tid).Ready choice.word) :
    (p.1.thread tid).Advances platform p.1.tm p.2
      ((p.1.thread tid).step platform p.1.tm choice) := by
  have hsolo : Solo p.1 tid := h.single tid fun hidle => by simp [hidle, Thread.inside] at hinside
  exact (h.simulates tid hsolo).advances (soloFacts hbit h.reachable hsolo) hmalloc hinside hready

/-- A call is never refused or cut short: nothing stops it before its answer. -/
theorem SequentialInv.returns (hbit : ∀ pos, platform.bit pos ≠ 0#64)
    (h : (sequentialMachine Tid platform).Reachable p) (hinside : (p.1.thread tid).inside = true) :
    (sequentialMachine Tid platform).Inevitable (fun q => (q.1.thread tid).AtReturn) p := by
  refine h.inevitable (fun q => (q.1.thread tid).inside = true ∨ (q.1.thread tid).AtReturn)
    (fun q => (q.1.thread tid).remaining q.1.tm) (fun q hreach hphase hgoal => ?_)
    (fun q l q' hreach hphase hgoal hstep => ?_) (Or.inl hinside)
  · have hinside := hphase.resolve_right hgoal
    obtain ⟨word, hword⟩ := (q.1.thread tid).exists_ready
    let choice : Choice V := { word := word }
    obtain ⟨o, thread', hop, -⟩ :=
      (sequentialInv hbit hreach).advances hbit hinside choice (fun _ => rfl) hword
    refine ⟨⟨tid, choice, .op o⟩,
      (⟨q.1.tm.after (.op o), Function.update q.1.thread tid thread'⟩, q.2), ⟨fun _ => rfl, ?_⟩,
      ?_, rfl⟩
    · rintro call ⟨⟩
    · simp only [system, State.step, hop, Move.op]
  · have hinside := hphase.resolve_right hgoal
    have hinv := sequentialInv hbit hreach
    have hsolo := hinv.solo hstep
    obtain ⟨⟨hmalloc, -⟩, hs, -⟩ := hstep
    obtain rfl : tid = l.tid := by
      by_contra hother
      rw [hsolo tid hother] at hinside
      cases hinside
    obtain ⟨hmove, htm, -⟩ := system_step_move hs
    have hthread := system_step_thread hs
    have hready : (q.1.thread l.tid).Ready l.choice.word := by
      by_contra hready
      rw [Thread.step_blocked hready] at hthread
      cases hthread
    obtain ⟨⟨o, hevent⟩, -, hlt⟩ := (hinv.simulates l.tid hsolo).step
      (soloFacts hbit hinv.reachable hsolo) (threadAnswers hinv.reachable.of_restrict l.tid) hmalloc
      (hinv.advances hbit hinside _ hmalloc hready) hthread
    rw [hevent] at hmove
    exact ⟨Thread.inside_or_atReturn_of_op hmove, htm ▸ hlt⟩

omit [DecidableEq Tid] in
/-- A legal call is one that the region can serve. -/
theorem Simulates.accepts {choice : Choice V} {call : Call V}
    (h : Simulates platform s.tm r (s.thread tid)) (hcall : choice.call = some call)
    (haccepts : (s.thread tid).Accepts call) (hlegal : r.Legal s tid call) :
    ∃ thread', (s.thread tid).step platform s.tm choice = .next (.call call, thread') := by
  have hmemory := h.shown.memory
  have halign := h.shown.align
  cases hthread : s.thread tid with
  | idle =>
      rw [hthread] at haccepts
      cases call with
      | begin isRo => exact ⟨.beginning isRo .rdlock, by simp only [Thread.step, hcall]⟩
      | read | write | alloc | free | finish => exact haccepts.elim
  | live t =>
      rw [hthread] at hmemory
      have hstep : (Thread.live t).step platform s.tm choice = callStep s.tm t call := by
        simp only [Thread.step, hcall]
      have hwrites : (∀ t, (s.thread tid).tx = some t → t.isRo = false) → t.isRo = false :=
        fun hrw => hrw t (by rw [hthread]; rfl)
      rw [hstep]
      cases call with
      | begin isRo =>
          rw [hthread] at haccepts
          exact haccepts.elim
      | read source size =>
          obtain ⟨p, g, hranged⟩ := Mirror.InRange.ranged hlegal halign hmemory
          cases hro : t.isRo with
          | true =>
              obtain ⟨c, hc, -⟩ := hranged.exact.roRead
              exact ⟨.roReading t c (.pre 0 []), by
                simp only [callStep, hranged.range, hro, if_true, hc]⟩
          | false =>
              obtain ⟨c, hc, -⟩ := hranged.exact.read
              exact ⟨.reading t c (.word 0 []), by
                simp only [callStep, hranged.range, hro, Bool.false_eq_true, if_false, hc]⟩
      | write source size target =>
          obtain ⟨hrw, hin, hlength⟩ := hlegal
          obtain ⟨p, g, hranged⟩ := hin.ranged halign hmemory
          rw [halign] at hlength
          refine ⟨.writing t (tmWriteCall s.tm g source size target) 0, ?_⟩
          simp only [callStep, hranged.range, hwrites hrw, hlength, ne_eq, not_true_eq_false,
            Bool.false_eq_true, or_self, if_false]
      | alloc size =>
          obtain ⟨-, hpos, hsize, hdvd, -⟩ := hlegal
          have hfits : 0 < size ∧ size < 2 ^ 64 ∧ s.tm.align ∣ size :=
            ⟨hpos, lt_trans hsize (by decide), halign ▸ hdvd⟩
          exact ⟨.allocating t size .lock, by simp only [callStep, if_pos hfits]⟩
      | free target =>
          exact ⟨.freeing t target, by
            simp only [callStep, hwrites hlegal.1, Bool.false_eq_true, if_false]⟩
      | finish => exact ⟨_, rfl⟩
  | _ =>
      rw [hthread] at haccepts
      cases call <;> exact haccepts.elim

/-- What the reference and the region have to do with each other at every moment of a sequential
history. -/
structure RefinesReference (platform : Platform V) (p : State Tid V × Mirror V) : Prop where
  /-- A call that the history allows is accepted. -/
  accepts : ∀ tid choice call, choice.call = some call → (p.1.thread tid).Accepts call →
    p.2.Legal p.1 tid call →
    ∃ thread', (p.1.thread tid).step platform p.1.tm choice = .next (.call call, thread')
  /-- No step of a call goes wrong. -/
  safe : ∀ tid choice, (∀ i, choice.mallocOk i = true) → (p.1.thread tid).inside = true →
    (p.1.thread tid).step platform p.1.tm choice ≠ .crash
  /-- Every call comes to its answer. -/
  returns : ∀ tid, (p.1.thread tid).inside = true →
    (sequentialMachine Tid platform).Inevitable (fun q => (q.1.thread tid).AtReturn) p
  /-- The answer is success, with what the reference answers to the same call. -/
  answers : ∀ tid ret t, p.1.thread tid = .returning ret t → ∃ call answer region,
    p.2.call = some call ∧ p.2.region.run call = .next (answer, region) ∧ p.2.Agree ret answer
  /-- Each segment of the reference is at one address of the region. -/
  oneToOne : ∀ b, p.2.region.segment b ≠ none → ∃! spot, p.2.block spot = some b
  /-- The region has a segment of the same size at that address. -/
  installed : ∀ spot b n, p.2.block spot = some b → p.2.region.segment b = some n →
    ∃ g numWords, p.1.tm.InstalledAt spot g ⟨n, numWords, .ready⟩

/-- **The transactional memory refines the lock-based one** on every sequential history: no call is
aborted or fails, every read delivers the words that plain memory has, and the addresses of the two
correspond one to one. -/
theorem refines_reference (hbit : ∀ pos, platform.bit pos ≠ 0#64)
    (h : (sequentialMachine Tid platform).Reachable p) : RefinesReference platform p := by
  have hinv := sequentialInv hbit h
  obtain ⟨thread, hthread⟩ := hinv.related
  refine ⟨fun tid choice call hcall haccepts hlegal => ?_, fun tid choice hmalloc hinside => ?_,
    fun tid hinside => SequentialInv.returns hbit h hinside, fun tid ret t hret => ?_,
    fun b hlive => ?_, fun spot b n hspot hn => ?_⟩
  · have hsolo : Solo p.1 tid := by
      by_cases hidle : p.1.thread tid = .idle
      · rw [hidle] at haccepts
        cases call with
        | begin isRo => exact fun u _ => hlegal u
        | _ => exact haccepts.elim
      · exact hinv.single tid hidle
    exact (hinv.simulates tid hsolo).accepts hcall haccepts hlegal
  · by_cases hready : (p.1.thread tid).Ready choice.word
    · obtain ⟨o, thread', hop, -⟩ := hinv.advances hbit hinside _ hmalloc hready
      rw [hop, Move.op]
      rintro ⟨⟩
    · rw [Thread.step_blocked hready]
      rintro ⟨⟩
  · have hsolo : Solo p.1 tid := hinv.single tid (by simp [hret])
    have hsim := hinv.simulates tid hsolo
    have hfacts := soloFacts hbit hinv.reachable hsolo
    have hanswers := threadAnswers hinv.reachable.of_restrict tid
    rw [hret] at hsim hfacts hanswers
    have hmalloc : ∀ i, ({} : Choice V).mallocOk i = true := fun _ => rfl
    obtain ⟨thread', hmove⟩ : ∃ thread',
        ThreadMove platform p.1.tm {} (.returning ret t) (.ret ret) thread' := by
      cases t with
      | none => exact ⟨_, .retIdle⟩
      | some t => exact ⟨_, .retLive⟩
    obtain ⟨call, answer, region, hcall, hrun, hagree, -⟩ :=
      hsim.returned hfacts hanswers hmalloc hmove
    exact ⟨call, answer, region, hcall, hrun, hagree⟩
  · obtain ⟨spot, hspot⟩ := hthread.wf.placed b hlive
    exact ⟨spot, hspot, fun spot' hspot' => hthread.wf.injective spot' spot b hspot' hspot hlive⟩
  · obtain ⟨-, -, -, g, hinst, -⟩ := hthread.shown.memory spot b n hspot hn
    exact ⟨g, _, hinst⟩

/-! ### One history -/

def Mirror.inRange (r : Mirror V) (addr : Addr) (size : Nat) : Bool :=
  decide (0 < size ∧ r.region.align ∣ size) &&
    (r.pointer addr).any fun p => decide (r.region.align ∣ p.offset) && r.region.inBounds p size

omit [Zero V] in
theorem Mirror.inRange_sound {addr : Addr} {size : Nat} (h : r.inRange addr size = true) :
    r.InRange addr size := by
  simp only [inRange, Bool.and_eq_true, decide_eq_true_eq, Option.any_eq_true] at h
  obtain ⟨⟨hpos, hdvd⟩, p, hp, hoffset, hbounds⟩ := h
  exact ⟨hpos, hdvd, p, hp, hoffset, hbounds⟩

def Thread.readWrite (thread : Thread V) : Bool := thread.tx.all fun t => !t.isRo

def Mirror.legal (r : Mirror V) (s : State Unit V) : Call V → Bool
  | .begin _ => (s.thread ()).isIdle
  | .read source size => r.inRange source size
  | .write source size target => (s.thread ()).readWrite && r.inRange target size &&
      decide (source.length = size / r.region.align)
  | .alloc size => (s.thread ()).readWrite &&
      decide (0 < size ∧ size < 2 ^ 31 ∧ r.region.align ∣ size ∧ s.tm.vaN < 65535)
  | .free target => (s.thread ()).readWrite &&
      (r.pointer target).any fun p => decide (p.offset = 0 ∧ p.block ∈ r.region.allocs)
  | .finish => decide (s.tm.globalVersion + 1 < 2 ^ 30)

omit [Zero V] in
theorem Thread.readWrite_sound {thread : Thread V} (h : thread.readWrite = true) :
    ∀ t, thread.tx = some t → t.isRo = false := by
  intro t ht
  simpa [readWrite, ht] using h

omit [Zero V] in
theorem Mirror.legal_sound {s : State Unit V} {call : Call V} (h : r.legal s call = true) :
    r.Legal s () call := by
  cases call with
  | begin isRo => exact fun _ => Thread.eq_of_isIdle h
  | read source size => exact Mirror.inRange_sound h
  | write source size target =>
      simp only [legal, Bool.and_eq_true, decide_eq_true_eq] at h
      exact ⟨Thread.readWrite_sound h.1.1, Mirror.inRange_sound h.1.2, h.2⟩
  | alloc size =>
      simp only [legal, Bool.and_eq_true, decide_eq_true_eq] at h
      obtain ⟨hrw, hpos, hsize, hdvd, hspots⟩ := h
      exact ⟨Thread.readWrite_sound hrw, hpos, hsize, hdvd, fun _ => hspots⟩
  | free target =>
      simp only [legal, Bool.and_eq_true, decide_eq_true_eq, Option.any_eq_true] at h
      obtain ⟨hrw, p, hp, hoffset, hmem⟩ := h
      have hzero : p = ⟨p.block, 0⟩ := by
        rw [← hoffset]
      exact ⟨Thread.readWrite_sound hrw, p.block, hmem, hzero ▸ hp⟩
  | finish =>
      have hclock : s.tm.globalVersion + 1 < 2 ^ 30 := of_decide_eq_true h
      exact hclock

def sequential (p : State Unit V × Mirror V) (l : Label Unit V) : Bool :=
  l.choice.mallocs.isEmpty &&
    match l.event with
    | .call call => p.2.legal p.1 call
    | _ => true

def sequentialMove (platform : Platform V) (p : State Unit V × Mirror V) (turn : Unit × Choice V) :
    Option (Label Unit V × State Unit V × Mirror V) :=
  (p.1.move platform turn).bind fun result =>
    if sequential p result.1 then some (result.1, result.2, p.2.next p.1 result.1) else none

theorem sequentialMove_step {p p' : State Unit V × Mirror V} {turn : Unit × Choice V}
    {l : Label Unit V} (h : sequentialMove platform p turn = some (l, p')) :
    (sequentialMachine Unit platform).step p l p' := by
  simp only [sequentialMove, Option.bind_eq_some_iff, Option.ite_none_right_eq_some,
    Option.some.injEq, Prod.mk.injEq] at h
  obtain ⟨⟨l', s'⟩, hmove, hok, rfl, rfl⟩ := h
  simp only [sequential, Bool.and_eq_true, List.isEmpty_iff] at hok
  obtain ⟨hmallocs, hlegal⟩ := hok
  refine ⟨⟨fun i => by simp [Choice.mallocOk, hmallocs], fun call hevent => ?_⟩,
    State.step_of_move platform hmove, rfl⟩
  rw [hevent] at hlegal
  exact Mirror.legal_sound hlegal

def Mirror.fresh (V : Type) [Zero V] (size align : Nat) : Mirror V where
  region :=
    { readers := 0
      writer := false
      start := 0
      allocs := []
      size := size
      align := align
      segment := Function.update (fun _ => none) 0 (some size)
      blockCount := 1
      word := fun _ _ => 0 }
  block := Function.update (fun _ => none) 0 (some 0)
  call := none

theorem Mirror.fresh_init (platform : Platform V) : (sequentialMachine Unit platform).init
    (State.fresh Unit V 16 8, Mirror.fresh V 16 8) :=
  ⟨fun _ => rfl, {}, 16, 8, _, by decide, by decide, by decide, ⟨3, rfl⟩, fun _ => rfl,
    tmCreate_default ⟨1, rfl⟩ (by decide), rfl, rfl⟩

/-- A transaction writes two words, reads one of them back and writes to a new segment. The next one
is about to return the two words. -/
def twoTransactions : Schedule Unit Nat :=
  calls () (.begin false) 3 ++ calls () (.write [7, 9] 16 (vaFromIndex 0 0)) 4 ++
    calls () (.read (vaFromIndex 0 8) 8) 3 ++ calls () (.alloc 8) 8 ++
    calls () (.write [5] 8 (vaFromIndex 1 0)) 3 ++ calls () .finish 20 ++
    calls () (.begin true) 3 ++ calls () (.read (vaFromIndex 0 0) 16) 3 ++
    [((), { word := 0 }), ((), { word := 1 })] ++ steps () 4

theorem refines_reference_of_history : ∃ p : State Unit Nat × Mirror Nat,
    (p.1.thread ()).answered.map Prod.fst = some [7, 9] ∧
      RefinesReference (Platform.x86 Nat) p := by
  let test : (State Unit Nat × Mirror Nat) × Unit → Bool := fun q =>
    decide ((q.1.1.thread ()).answered.map Prod.fst = some [7, 9])
  have hrun : (Machine.drive (sequentialMove (Platform.x86 Nat)) (fun _ _ => true) (fun _ _ => id)
      ((State.fresh Unit Nat 16 8, Mirror.fresh Nat 16 8), ()) twoTransactions).any test
        = true := by
    decide +kernel
  obtain ⟨q, hdrive, htest⟩ := (Option.any_eq_true _ _).mp hrun
  have hstart : (((sequentialMachine Unit (Platform.x86 Nat)).restrict fun _ _ => True).observe ()
      fun _ _ => id).Reachable ((State.fresh Unit Nat 16 8, Mirror.fresh Nat 16 8), ()) :=
    .init ⟨Mirror.fresh_init (Platform.x86 Nat), rfl⟩
  have hreach := hstart.drive (fun _ _ _ _ => sequentialMove_step) (fun _ _ _ => trivial) hdrive
  exact ⟨q.1, of_decide_eq_true htest,
    refines_reference (Platform.x86_bit Nat) hreach.of_observe.of_restrict⟩

end TransactionalMemory
