import TransactionalMemory.Proof.Simulation

/-!
# Accesses beside the reference

Every turn of the loops of `tm_read`, `ro_transaction_read` and `tm_write` goes through. A word of
the range is in the write set or in memory at a version that the snapshot covers, since nobody else
commits, and so the buffer fills with what the reference copies.
-/

namespace TransactionalMemory

open Concurrency

variable {V : Type} [Zero V] {platform : Platform V} {tm : Tm V} {choice : Choice V}
  {thread thread' : Thread V} {r : Mirror V}

theorem Thread.Advances.load {move : Move V} {o : Op V} (hmove : move = .op o thread')
    (ho : o.IsLoad) (hserves : thread'.Serves platform tm r) (hshown : r.Shown tm thread')
    (hlt : thread'.remaining tm < thread.remaining tm) :
    thread.Advances platform tm r move := by
  refine ⟨o, thread', hmove, ?_⟩
  rw [Tm.apply_of_isLoad ho]
  exact ⟨hserves, hshown, hlt⟩

omit [Zero V] in
/-- A transaction that goes on with what it has written and freed. -/
theorem Mirror.Shown.goOn (h : r.Shown tm thread) (hpending : thread'.pending = thread.pending)
    (hreached : thread'.reached r = thread.reached r)
    (hfrees : ∀ t', thread'.tx = some t' → ∃ t, thread.tx = some t ∧ t'.toFree = t.toFree) :
    r.Shown tm thread' := by
  have hvalue : tm.value thread' = tm.value thread := by
    unfold Tm.value
    rw [hpending]
  refine h.keep rfl (fun _ => id) hreached
    (fun spot g seg _ hinst => ⟨hinst, fun k => by rw [hvalue]⟩) fun t' htx' spot hmem => ?_
  obtain ⟨t, htx, htoFree⟩ := hfrees t' htx'
  exact ⟨t, htx, htoFree ▸ hmem⟩

/-- The range of an access in progress, which has written nothing of it yet. -/
theorem Simulates.ranged (h : Simulates platform tm r thread)
    (hreached : thread.reached r = r.region)
    {addr : Addr} {size : Nat} {p : Reference.Ptr} {g : SegId} (hin : r.InRange addr size)
    (hp : r.pointer addr = some p) (hg : tm.range addr size = some g) :
    r.Ranged tm (tm.value thread) r.region.word addr size p g := by
  have hmemory := h.shown.memory
  rw [hreached] at hmemory
  obtain ⟨p', g', hranged⟩ := hin.ranged h.shown.align hmemory
  obtain rfl : p' = p := Option.some.inj (hranged.pointer.symm.trans hp)
  obtain rfl : g' = g := Option.some.inj (hranged.range.symm.trans hg)
  exact hranged

omit [Zero V] in
theorem Tm.getElem?_wordsOf {g : SegId} {addr : Addr} {size i : Nat} (hi : i < size / tm.align) :
    (tm.wordsOf g addr size)[i]? = some ⟨g, offsetFromVa addr / tm.align + i⟩ := by
  simp [Tm.wordsOf, hi]

omit [Zero V] in
theorem Tm.length_wordsOf {g : SegId} {addr : Addr} {size : Nat} :
    (tm.wordsOf g addr size).length = size / tm.align := by
  simp [Tm.wordsOf]

omit [Zero V] in
theorem take_concat {values : List V} {i : Nat} {x : V} (hx : values[i]? = some x) :
    values.take i ++ [x] = values.take (i + 1) := by
  rw [List.take_add_one, hx]
  rfl

/-- Nobody else has a lock, and no word is newer than the snapshot. -/
theorem SoloFacts.free (hfacts : SoloFacts platform tm thread) {w : Word} (hw : w ∉ thread.held) :
    vlReadVersion (tm.lock w) ≠ -1 ∧ vlReadVersion (tm.lock w) ≤ tm.globalVersion := by
  obtain ⟨v, hlock, hle⟩ := hfacts.lock w hw
  rw [hlock, vlReadVersion_lockWord]
  exact ⟨by simp, hle⟩

/-! ### A read in progress -/

/-- A read of a range that the reference copies to `values`. -/
structure ReadBeside (platform : Platform V) (tm : Tm V) (r : Mirror V) (thread : Thread V)
    (t : Tx V) (g : SegId) (source : Addr) (size : Nat) (values : List V) : Prop where
  simulates : Simulates platform tm r thread
  facts : SoloFacts platform tm thread
  exact : PathsExact tm g source size
  length : values.length = size / tm.align
  value : ∀ i < size / tm.align,
    values[i]? = some (tm.value thread ⟨g, offsetFromVa source / tm.align + i⟩)
  names : ∀ i < size / tm.align, tm.NamesWord (source + BitVec.ofNat 64 (i * tm.align))
    ⟨g, offsetFromVa source / tm.align + i⟩
  answers : (Thread.returning (.read (some values)) (some t)).Serves platform tm r

theorem Simulates.reads {t : Tx V} {source : Addr} {size : Nat} {p : Reference.Ptr} {g : SegId}
    (h : Simulates platform tm r thread) (hfacts : SoloFacts platform tm thread)
    (hreached : thread.reached r = r.region) (hcall : r.call = some (.read p size))
    (hin : r.InRange source size) (hp : r.pointer source = some p)
    (hg : tm.range source size = some g) :
    ReadBeside platform tm r thread t g source size
      (r.region.load p (size / r.region.align)) := by
  have hranged := h.ranged hreached hin hp hg
  have hload := hranged.load_eq h.shown.align
  refine ⟨h, hfacts, hranged.exact, ?_, fun i hi => ?_, fun i hi => ?_,
    ⟨p, size, hcall, hranged.inBounds, rfl⟩⟩
  · rw [hload, List.length_map, Tm.length_wordsOf]
  · rw [hload, List.getElem?_map, Tm.getElem?_wordsOf hi]
    rfl
  · have hend : offsetFromVa source + size ≤ 2 ^ 48 := hranged.fits.2.trans (by decide)
    refine namesRange_named hfacts.align_pos hg hend i _ ?_
    rw [Tm.named_eq hg]
    exact Tm.getElem?_wordsOf hi

/-! ### `tm_read` -/

structure TmReadBeside (platform : Platform V) (tm : Tm V) (r : Mirror V) (t : Tx V)
    (c : ReadCall) (pc : ReadPc V) (g : SegId) (source : Addr) (size : Nat)
    (values : List V) : Prop
    extends ReadBeside platform tm r (.reading t c pc) t g source size values where
  call : tmReadCall tm g source size = some c
  here : pc.Serves platform.bit tm t source (tm.wordsOf g source size) values
  serves : ∀ {t' pc'}, pc'.Serves platform.bit tm t' source (tm.wordsOf g source size) values →
    (Thread.reading t' c pc').Serves platform tm r

namespace TmReadBeside

variable {t t' : Tx V} {c : ReadCall} {pc pc' : ReadPc V} {g : SegId} {source : Addr}
  {size i : Nat} {values target : List V} {x : V} {versionRead : Int} {o : Op V}

theorem turns (h : TmReadBeside platform tm r t c pc g source size values) :
    c.numWords = (size / tm.align : Nat) ∧ ∀ i < size / tm.align,
      tm.wordAt c.seg (c.startWord + i) = some ⟨g, offsetFromVa source / tm.align + i⟩ ∧
      c.wordAt tm i = some ⟨g, offsetFromVa source / tm.align + i⟩ ∧
      c.curr i = some (source + BitVec.ofNat 64 (i * tm.align)) := by
  obtain ⟨c', hc', hturns⟩ := h.exact.read
  obtain rfl : c = c' := Option.some.inj (h.call.symm.trans hc')
  exact hturns

theorem buffers (h : TmReadBeside platform tm r t c pc g source size values) :
    ∃ view, t.Buffers tm platform.bit view :=
  h.facts.buffers t rfl h.facts.mode

/-- A load of the call that goes on with what the transaction has written and freed. -/
theorem goesOn (h : TmReadBeside platform tm r t c pc g source size values)
    (hstep : tmReadStep platform tm choice t c pc = .op o (.reading t' c pc')) (ho : o.IsLoad)
    (hserves : pc'.Serves platform.bit tm t' source (tm.wordsOf g source size) values)
    (hwrites : t'.writes = t.writes) (htoFree : t'.toFree = t.toFree)
    (hlt : pc'.remaining (size / tm.align) < pc.remaining (size / tm.align)) :
    (Thread.reading t c pc).Advances platform tm r (tmReadStep platform tm choice t c pc) := by
  refine .load hstep ho (h.serves hserves) ?_ ?_
  · refine h.simulates.shown.goOn hwrites rfl fun t'' htx => ⟨t, rfl, ?_⟩
    obtain rfl := Option.some.inj htx
    exact htoFree
  · simp only [Thread.remaining, h.turns.1, Int.toNat_natCast]
    exact hlt

theorem word (h : TmReadBeside platform tm r t c (.word i target) g source size values) :
    (Thread.reading t c (.word i target)).Advances platform tm r
      (tmReadStep platform tm choice t c (.word i target)) := by
  obtain ⟨hi, rfl⟩ := h.here
  obtain ⟨hnum, hturn⟩ := h.turns
  rw [Tm.length_wordsOf] at hi
  by_cases hlt : i < size / tm.align
  · have hturns : (i : Int) < c.numWords := by rw [hnum]; exact_mod_cast hlt
    obtain ⟨-, -, hcurr⟩ := hturn i hlt
    cases hlookup : t.lookup platform.bit (source + BitVec.ofNat 64 (i * tm.align)) with
    | some item =>
        obtain ⟨view, hbuffers⟩ := h.buffers
        obtain ⟨-, -, hlast⟩ := hbuffers.of_hit h.facts.align_pos (h.names i hlt) hlookup
        rw [← hbuffers.lookup] at hlast
        have hx : values[i]? = some item.value :=
          (h.value i hlt).trans (congrArg (fun x : Option V => some (x.getD _)) hlast)
        have hstep : tmReadStep platform tm choice t c (.word i (values.take i)) =
            Move.op (.ownWord item.value)
              (.reading t c (.word (i + 1) (values.take i ++ [item.value]))) := by
          simp only [tmReadStep, if_pos hturns, hcurr, hlookup]
        refine h.goesOn hstep trivial ⟨?_, take_concat hx⟩ rfl rfl ?_
        · rw [Tm.length_wordsOf]
          omega
        · simp only [ReadPc.remaining]
          omega
    | none =>
        have hstep : tmReadStep platform tm choice t c (.word i (values.take i)) =
            Move.op .tau (.reading t c (.load i (values.take i))) := by
          simp only [tmReadStep, if_pos hturns, hcurr, hlookup]
        refine h.goesOn hstep trivial ⟨?_, rfl, hlookup⟩ rfl rfl ?_
        · rwa [Tm.length_wordsOf]
        · simp only [ReadPc.remaining]
          omega
  · have hdone : ¬ (i : Int) < c.numWords := by rw [hnum]; exact_mod_cast hlt
    have hall : values.take i = values := List.take_of_length_le (by rw [h.length]; omega)
    have hstep : tmReadStep platform tm choice t c (.word i (values.take i)) =
        Move.op .tau (.returning (.read (some values)) (some t)) := by
      simp only [tmReadStep, if_neg hdone, hall]
    exact .load hstep trivial h.answers
      (h.simulates.shown.goOn rfl rfl fun t' htx => ⟨t', htx, rfl⟩) (Nat.succ_pos _)

theorem load (h : TmReadBeside platform tm r t c (.load i target) g source size values) :
    (Thread.reading t c (.load i target)).Advances platform tm r
      (tmReadStep platform tm choice t c (.load i target)) := by
  obtain ⟨hi, rfl, hmiss⟩ := h.here
  have hlt := hi
  rw [Tm.length_wordsOf] at hlt
  obtain ⟨hlock, -, -⟩ := h.turns.2 i hlt
  let w : Word := ⟨g, offsetFromVa source / tm.align + i⟩
  obtain ⟨hfree, hold⟩ := h.facts.free (w := w) List.not_mem_nil
  have hrv : t.rv = tm.globalVersion := h.simulates.alone.current t rfl rfl
  have hstep : tmReadStep platform tm choice t c (.load i (values.take i)) =
      Move.op (.loadLock w (tm.lock w))
        (.reading t c (.copy i (vlReadVersion (tm.lock w)) (values.take i))) := by
    simp only [tmReadStep, hlock]
    rw [if_neg (by rw [hrv]; exact not_or.mpr ⟨hfree, not_lt.mpr hold⟩)]
  refine h.goesOn hstep trivial ⟨hi, rfl, hmiss, fun w' hw => ?_⟩ rfl rfl ?_
  · rw [Tm.getElem?_wordsOf hlt] at hw
    obtain rfl := Option.some.inj hw
    rfl
  · simp only [ReadPc.remaining]
    omega

theorem copy
    (h : TmReadBeside platform tm r t c (.copy i versionRead target) g source size values) :
    (Thread.reading t c (.copy i versionRead target)).Advances platform tm r
      (tmReadStep platform tm choice t c (.copy i versionRead target)) := by
  obtain ⟨hi, rfl, hmiss, hversion⟩ := h.here
  have hlt := hi
  rw [Tm.length_wordsOf] at hlt
  obtain ⟨-, hdata, -⟩ := h.turns.2 i hlt
  obtain ⟨view, hbuffers⟩ := h.buffers
  have hlast := hbuffers.of_miss h.facts.table (h.names i hlt) hmiss
  rw [← hbuffers.lookup] at hlast
  let w : Word := ⟨g, offsetFromVa source / tm.align + i⟩
  have hx : values[i]? = some (tm.data w) :=
    (h.value i hlt).trans (congrArg (fun x : Option V => some (x.getD _)) hlast)
  have hstep : tmReadStep platform tm choice t c (.copy i versionRead (values.take i)) =
      Move.op (.copyOut w (tm.data w))
        (.reading t c (.recheck i versionRead (tm.data w) (values.take i))) := by
    simp only [tmReadStep, hdata, w]
  refine h.goesOn hstep trivial ⟨hi, rfl, hx, hversion⟩ rfl rfl ?_
  simp only [ReadPc.remaining]
  omega

theorem recheck (hmalloc : ∀ i, choice.mallocOk i = true)
    (h : TmReadBeside platform tm r t c (.recheck i versionRead x target) g source size values) :
    (Thread.reading t c (.recheck i versionRead x target)).Advances platform tm r
      (tmReadStep platform tm choice t c (.recheck i versionRead x target)) := by
  obtain ⟨hi, rfl, hx, hversion⟩ := h.here
  have hlt := hi
  rw [Tm.length_wordsOf] at hlt
  obtain ⟨hlock, -, -⟩ := h.turns.2 i hlt
  let w : Word := ⟨g, offsetFromVa source / tm.align + i⟩
  obtain ⟨t', hadd, -⟩ := (h.simulates.alone.roomy t rfl).addToReadset w versionRead
  obtain ⟨hws, -, -, -, htoFree⟩ := Tx.addToReadset_eq hadd
  have hstep : tmReadStep platform tm choice t c (.recheck i versionRead x (values.take i)) =
      Move.op (.loadLock w (tm.lock w))
        (.reading t' c (.word (i + 1) (values.take i ++ [x]))) := by
    simp only [tmReadStep, hlock, hversion _ (Tm.getElem?_wordsOf hlt), ne_eq,
      not_true_eq_false, if_false, hmalloc, hadd, w]
  refine h.goesOn hstep trivial ⟨hi, take_concat hx⟩ (by rw [Tx.writes, hws]; rfl) htoFree ?_
  simp only [ReadPc.remaining]
  omega

end TmReadBeside

/-- **Every turn of `tm_read`** delivers the word that the reference copies. -/
theorem Simulates.reading {t : Tx V} {c : ReadCall} {pc : ReadPc V}
    (h : Simulates platform tm r (.reading t c pc))
    (hfacts : SoloFacts platform tm (.reading t c pc)) (hmalloc : ∀ i, choice.mallocOk i = true) :
    (Thread.reading t c pc).Advances platform tm r (tmReadStep platform tm choice t c pc) := by
  obtain ⟨source, size, p, g, hcall, hin, hp, hg, hc, hpc⟩ := h.serves
  have hread : TmReadBeside platform tm r t c pc g source size
      (r.region.load p (size / r.region.align)) :=
    ⟨h.reads hfacts rfl hcall hin hp hg, hc, hpc,
      fun hpc' => ⟨source, size, p, g, hcall, hin, hp, hg, hc, hpc'⟩⟩
  cases pc with
  | word i target => exact hread.word
  | load i target => exact hread.load
  | copy i versionRead target => exact hread.copy
  | recheck i versionRead x target => exact hread.recheck hmalloc

/-! ### `ro_transaction_read` -/

def RoPc.Ready (word : Nat) : RoPc V → Prop
  | .copy _ target => target.all Option.isSome = true ∨ target[word]? = some none
  | _ => True

omit [Zero V] in
theorem RoPc.exists_ready (pc : RoPc V) : ∃ word, pc.Ready word := by
  cases pc with
  | copy prev target =>
      by_cases hall : target.all Option.isSome = true
      · exact ⟨0, Or.inl hall⟩
      · obtain ⟨x, hmem, hx⟩ : ∃ x ∈ target, ¬ x.isSome = true := by simpa using hall
        obtain ⟨k, hk⟩ := List.getElem?_of_mem hmem
        cases x with
        | none => exact ⟨k, Or.inr hk⟩
        | some x => exact absurd rfl hx
  | _ => exact ⟨0, trivial⟩

omit [Zero V] in
theorem roTransactionReadStep_blocked {t : Tx V} {c : RoCall} {pc : RoPc V}
    (h : ¬ pc.Ready choice.word) : roTransactionReadStep tm choice t c pc = .blocked := by
  cases pc with
  | copy prev target =>
      obtain ⟨hall, hword⟩ := not_or.mp h
      simp only [roTransactionReadStep, if_neg hall]
  | _ => exact absurd trivial h

omit [Zero V] in
/-- A buffer that is full of the right words is the range. -/
theorem buffer_full {target : List (Option V)} {values : List V}
    (hlength : target.length = values.length) (hall : target.all Option.isSome = true)
    (hcopied : ∀ (j : Nat) x, target[j]? = some (some x) → values[j]? = some x) :
    target = values.map some := by
  refine List.ext_getElem? fun j => ?_
  cases hj : target[j]? with
  | none =>
      rw [List.getElem?_eq_none_iff, hlength, ← List.length_map some] at hj
      exact (List.getElem?_eq_none hj).symm
  | some x =>
      cases x with
      | none => exact absurd (List.all_eq_true.mp hall none (List.mem_of_getElem? hj)) (by simp)
      | some x => rw [List.getElem?_map, hcopied j x hj, Option.map_some]

structure RoReadBeside (platform : Platform V) (tm : Tm V) (r : Mirror V) (t : Tx V) (c : RoCall)
    (pc : RoPc V) (g : SegId) (source : Addr) (size : Nat) (values : List V) : Prop
    extends ReadBeside platform tm r (.roReading t c pc) t g source size values where
  call : roTransactionReadCall tm g source size = some c
  here : pc.Serves tm (tm.wordsOf g source size) values
  serves : ∀ {t' pc'}, pc'.Serves tm (tm.wordsOf g source size) values →
    (Thread.roReading t' c pc').Serves platform tm r

namespace RoReadBeside

variable {t t' : Tx V} {c : RoCall} {pc pc' : RoPc V} {g : SegId} {source : Addr} {size i : Nat}
  {values : List V} {target : List (Option V)} {prev : List Int} {o : Op V}

theorem turns (h : RoReadBeside platform tm r t c pc g source size values) :
    c.numWords = (size / tm.align : Nat) ∧ c.words = size / tm.align ∧ ∀ i < size / tm.align,
      tm.wordAt c.seg (c.startIdx + i) = some ⟨g, offsetFromVa source / tm.align + i⟩ ∧
      (⟨c.seg, c.firstWord + i⟩ : Word) = ⟨g, offsetFromVa source / tm.align + i⟩ := by
  obtain ⟨c', hc', hnum, hwords, hturn⟩ := h.exact.roRead
  obtain rfl : c = c' := Option.some.inj (h.call.symm.trans hc')
  have hseg : c.seg = g := by rw [(roTransactionReadCall_eq_some h.call).2]
  refine ⟨hnum, hwords, fun i hi => ⟨(hturn i hi).1, ?_⟩⟩
  rw [(hturn i hi).2, hseg]

/-- A read-only transaction has written nothing, so the reference copies from memory. -/
theorem data (h : RoReadBeside platform tm r t c pc g source size values)
    (hi : i < size / tm.align) :
    values[i]? = some (tm.data ⟨g, offsetFromVa source / tm.align + i⟩) := by
  have hempty : t.ws = [] := h.simulates.alone.readOnly t rfl h.facts.mode
  rw [h.value i hi]
  simp [Tm.value, Thread.pending, Tx.writes, hempty]

theorem goesOn (h : RoReadBeside platform tm r t c pc g source size values)
    (hstep : roTransactionReadStep tm choice t c pc = .op o (.roReading t' c pc')) (ho : o.IsLoad)
    (hserves : pc'.Serves tm (tm.wordsOf g source size) values)
    (hwrites : t'.writes = t.writes) (htoFree : t'.toFree = t.toFree)
    (hlt : pc'.remaining (size / tm.align) < pc.remaining (size / tm.align)) :
    (Thread.roReading t c pc).Advances platform tm r (roTransactionReadStep tm choice t c pc) := by
  refine .load hstep ho (h.serves hserves) ?_ ?_
  · refine h.simulates.shown.goOn hwrites rfl fun t'' htx => ⟨t, rfl, ?_⟩
    obtain rfl := Option.some.inj htx
    exact htoFree
  · simp only [Thread.remaining, h.turns.2.1]
    exact hlt

theorem pre (h : RoReadBeside platform tm r t c (.pre i prev) g source size values) :
    (Thread.roReading t c (.pre i prev)).Advances platform tm r
      (roTransactionReadStep tm choice t c (.pre i prev)) := by
  obtain ⟨hi, rfl⟩ := h.here
  obtain ⟨hnum, hcopies, hturn⟩ := h.turns
  rw [Tm.length_wordsOf] at hi
  let prev := ((tm.wordsOf g source size).take i).map fun w => vlReadVersion (tm.lock w)
  by_cases hlt : i < size / tm.align
  · have hturns : (i : Int) < c.numWords := by rw [hnum]; exact_mod_cast hlt
    obtain ⟨hlock, -⟩ := hturn i hlt
    let w : Word := ⟨g, offsetFromVa source / tm.align + i⟩
    obtain ⟨hfree, -⟩ := h.facts.free (w := w) List.not_mem_nil
    have hstep : roTransactionReadStep tm choice t c (.pre i prev) =
        Move.op (.loadLock w (tm.lock w))
          (.roReading t c (.pre (i + 1) (prev ++ [vlReadVersion (tm.lock w)]))) := by
      simp only [roTransactionReadStep, if_pos hturns, hlock]
      rw [if_neg hfree]
    refine h.goesOn hstep trivial ⟨?_, ?_⟩ rfl rfl ?_
    · rwa [Tm.length_wordsOf]
    · rw [← take_concat (Tm.getElem?_wordsOf hlt), List.map_append]
      rfl
    · simp only [RoPc.remaining]
      omega
  · have hdone : ¬ (i : Int) < c.numWords := by rw [hnum]; exact_mod_cast hlt
    have hstep : roTransactionReadStep tm choice t c (.pre i prev) =
        Move.op .tau (.roReading t c (.copy prev (List.replicate c.words none))) := by
      simp only [roTransactionReadStep, if_neg hdone]
    have hall : (tm.wordsOf g source size).take i = tm.wordsOf g source size :=
      List.take_of_length_le (by rw [Tm.length_wordsOf]; omega)
    refine h.goesOn hstep trivial ⟨congrArg (List.map _) hall, ?_, fun j x hj => ?_⟩ rfl rfl ?_
    · rw [List.length_replicate, Tm.length_wordsOf, hcopies]
    · obtain ⟨-, hnone⟩ := List.mem_replicate.mp (List.mem_of_getElem? hj)
      cases hnone
    · simp only [RoPc.remaining, List.countP_replicate, Option.isNone_none, if_true]
      omega

/-- The copy, in any order of the words. -/
theorem copy (h : RoReadBeside platform tm r t c (.copy prev target) g source size values)
    (hready : (RoPc.copy prev target).Ready choice.word) :
    (Thread.roReading t c (.copy prev target)).Advances platform tm r
      (roTransactionReadStep tm choice t c (.copy prev target)) := by
  obtain ⟨hprev, htarget, hcopied⟩ := h.here
  have hlength := h.length
  rw [Tm.length_wordsOf] at htarget
  by_cases hall : target.all Option.isSome = true
  · have hstep : roTransactionReadStep tm choice t c (.copy prev target) =
        Move.op .tau (.roReading t c (.post 0 prev target)) := by
      simp only [roTransactionReadStep, if_pos hall]
    have hfull := buffer_full (htarget.trans hlength.symm) hall hcopied
    refine h.goesOn hstep trivial ⟨Nat.zero_le _, hprev, hfull⟩ rfl rfl ?_
    simp only [RoPc.remaining]
    omega
  · have hword : target[choice.word]? = some none := hready.resolve_left hall
    obtain ⟨hlt, hget⟩ := List.getElem?_eq_some_iff.mp hword
    have hlt' : choice.word < size / tm.align := by omega
    let w : Word := ⟨c.seg, c.firstWord + choice.word⟩
    have hstep : roTransactionReadStep tm choice t c (.copy prev target) =
        Move.op (.copyOut w (tm.data w))
          (.roReading t c (.copy prev (target.set choice.word (some (tm.data w))))) := by
      simp only [roTransactionReadStep, if_neg hall, hword, w]
    have hw : w = ⟨g, offsetFromVa source / tm.align + choice.word⟩ :=
      (h.turns.2.2 choice.word hlt').2
    refine h.goesOn hstep trivial ⟨hprev, ?_, fun j x hj => ?_⟩ rfl rfl ?_
    · rw [List.length_set, htarget, Tm.length_wordsOf]
    · by_cases heq : j = choice.word
      · subst heq
        rw [List.getElem?_set_self hlt] at hj
        obtain rfl := Option.some.inj (Option.some.inj hj)
        rw [hw]
        exact h.data hlt'
      · rw [List.getElem?_set_ne (Ne.symm heq)] at hj
        exact hcopied j x hj
    · have hpos : 0 < target.countP Option.isNone :=
        List.countP_pos_iff.mpr ⟨none, List.mem_of_getElem? hword, rfl⟩
      simp only [RoPc.remaining, List.countP_set hlt, hget]
      simp only [Option.isNone_none, Option.isNone_some, if_true, Bool.false_eq_true, if_false]
      omega

theorem post (hmalloc : ∀ i, choice.mallocOk i = true)
    (h : RoReadBeside platform tm r t c (.post i prev target) g source size values) :
    (Thread.roReading t c (.post i prev target)).Advances platform tm r
      (roTransactionReadStep tm choice t c (.post i prev target)) := by
  obtain ⟨hi, rfl, rfl⟩ := h.here
  obtain ⟨hnum, -, hturn⟩ := h.turns
  let prev := (tm.wordsOf g source size).map fun w => vlReadVersion (tm.lock w)
  by_cases hlt : i < size / tm.align
  · have hturns : (i : Int) < c.numWords := by rw [hnum]; exact_mod_cast hlt
    obtain ⟨hlock, -⟩ := hturn i hlt
    let w : Word := ⟨g, offsetFromVa source / tm.align + i⟩
    obtain ⟨-, hold⟩ := h.facts.free (w := w) List.not_mem_nil
    have hrv : t.rv = tm.globalVersion := h.simulates.alone.current t rfl rfl
    have hseen : prev[i]? = some (vlReadVersion (tm.lock w)) := by
      rw [List.getElem?_map, Tm.getElem?_wordsOf hlt, Option.map_some]
    obtain ⟨t', hadd, -⟩ :=
      (h.simulates.alone.roomy t rfl).addToReadset w (vlReadVersion (tm.lock w))
    obtain ⟨hws, -, -, -, htoFree⟩ := Tx.addToReadset_eq hadd
    have hstep : roTransactionReadStep tm choice t c (.post i prev (values.map some)) =
        Move.op (.loadLock w (tm.lock w))
          (.roReading t' c (.post (i + 1) prev (values.map some))) := by
      simp only [roTransactionReadStep, if_pos hturns, hlock]
      rw [if_neg (not_not.mpr hseen), if_neg (by rw [hrv]; exact not_lt.mpr hold)]
      simp only [roRecord, hmalloc, hadd, w]
    refine h.goesOn hstep trivial ⟨?_, rfl, rfl⟩ (by rw [Tx.writes, hws]; rfl) htoFree ?_
    · rwa [Tm.length_wordsOf]
    · simp only [RoPc.remaining]
      omega
  · have hdone : ¬ (i : Int) < c.numWords := by rw [hnum]; exact_mod_cast hlt
    have hstep : roTransactionReadStep tm choice t c (.post i prev (values.map some)) =
        Move.op .tau (.returning (.read (some values)) (some t)) := by
      simp only [roTransactionReadStep, if_neg hdone, reduceOption_map_some]
    exact .load hstep trivial h.answers
      (h.simulates.shown.goOn rfl rfl fun t' htx => ⟨t', htx, rfl⟩) (Nat.succ_pos _)

end RoReadBeside

/-- **Every turn of `ro_transaction_read`** finds the versions it has seen before, none of them
newer than the snapshot. -/
theorem Simulates.roReading {t : Tx V} {c : RoCall} {pc : RoPc V}
    (h : Simulates platform tm r (.roReading t c pc))
    (hfacts : SoloFacts platform tm (.roReading t c pc)) (hmalloc : ∀ i, choice.mallocOk i = true)
    (hready : pc.Ready choice.word) :
    (Thread.roReading t c pc).Advances platform tm r (roTransactionReadStep tm choice t c pc) := by
  obtain ⟨source, size, p, g, hcall, hin, hp, hg, hc, hpc⟩ := h.serves
  have hread : RoReadBeside platform tm r t c pc g source size
      (r.region.load p (size / r.region.align)) :=
    ⟨h.reads hfacts rfl hcall hin hp hg, hc, hpc,
      fun hpc' => ⟨source, size, p, g, hcall, hin, hp, hg, hc, hpc'⟩⟩
  cases pc with
  | pre i prev => exact hread.pre
  | copy prev target => exact hread.copy hready
  | post i prev target => exact hread.post hmalloc
  | loadClock | revalidate => exact hpc.elim

/-! ### `tm_write` -/

omit [Zero V] in
theorem Reference.Region.store_take {region : Reference.Region V} {p : Reference.Ptr}
    {source : List V}
    {i : Nat} {x : V} (hx : source[i]? = some x) (b : Reference.BlockId) (k : Nat) :
    (region.store p (source.take (i + 1))).word b k =
      if b = p.block ∧ k = p.offset / region.align + i then x
      else (region.store p (source.take i)).word b k := by
  by_cases hin : b = p.block ∧ p.offset / region.align ≤ k
  · obtain ⟨j, rfl⟩ := Nat.exists_eq_add_of_le hin.2
    simp only [Reference.Region.store, hin.1, Nat.le_add_right, and_self, if_true, true_and,
      Nat.add_sub_cancel_left, List.getElem?_take, Nat.add_left_cancel_iff]
    rcases Nat.lt_trichotomy j i with hlt | rfl | hgt
    · rw [if_pos hlt, if_pos (Nat.lt_succ_of_lt hlt), if_neg hlt.ne]
    · rw [if_pos (Nat.lt_succ_self j), if_pos rfl, hx]
      rfl
    · rw [if_neg (Nat.not_lt.mpr hgt), if_neg hgt.ne', if_neg (Nat.lt_asymm hgt)]
  · have hout : ¬ (b = p.block ∧ k = p.offset / region.align + i) := fun h => hin ⟨h.1, by omega⟩
    simp only [Reference.Region.store, if_neg hin, if_neg hout]

omit [Zero V] in
/-- One word further: the write set answers for it what the reference has in memory. -/
theorem Mirror.Shown.write {t t' : Tx V} {c : WriteCall V} {i size : Nat} {source : List V} {x : V}
    {target : Addr} {p : Reference.Ptr} {g : SegId} {value : Word → V}
    {word : Reference.BlockId → Nat → V} (h : r.Shown tm (.writing t c i)) (htable : tm.TableInv)
    (hwf : r.Wf) (hcall : r.call = some (.write source size p))
    (hranged : r.Ranged tm value word target size p g) (hx : source[i]? = some x)
    (hlookup : (fun w => t'.writes.lookup w) = Function.update (fun w => t.writes.lookup w)
      ⟨g, offsetFromVa target / tm.align + i⟩ (some x))
    (htoFree : t'.toFree = t.toFree) : r.Shown tm (.writing t' c (i + 1)) := by
  obtain ⟨seg, hspot, -⟩ := Tm.range_eq_some hranged.range
  refine ⟨h.align, fun spot b n hb hn => ?_, fun spot b hb hn => ?_⟩
  · obtain ⟨hspot_lt, hsize, haligned, g', hinst, hwords⟩ := h.memory spot b n hb hn
    refine ⟨hspot_lt, hsize, haligned, g', hinst, fun k hk => ?_⟩
    have hold := hwords k hk
    have hnew := congrFun hlookup ⟨g', k⟩
    -- the segments of the two sides are the same exactly where their blocks are
    have hsame : (⟨g', k⟩ : Word) = ⟨g, offsetFromVa target / tm.align + i⟩ ↔
        b = p.block ∧ k = p.offset / r.region.align + i := by
      rw [h.align, hranged.offset, Word.mk.injEq]
      refine and_congr_left fun _ => ⟨?_, ?_⟩
      · rintro rfl
        have hindex : spot = (indexFromVa target).toNat := htable.segment_inj _ _ _ hinst.1 hspot
        rw [hindex, hranged.block] at hb
        exact (Option.some.inj hb).symm
      · rintro rfl
        have hindex : spot = (indexFromVa target).toNat :=
          hwf.injective _ _ _ hb hranged.block hranged.live
        have hentry := hinst.1
        rw [hindex, hspot] at hentry
        exact (VaEntry.segment.inj hentry).symm
    simp only [Thread.reached, hcall] at hold ⊢
    rw [Reference.Region.store_take hx, hold]
    change _ = (t'.writes.lookup ⟨g', k⟩).getD (tm.data ⟨g', k⟩)
    rw [hnew, Function.update_apply]
    by_cases heq : (⟨g', k⟩ : Word) = ⟨g, offsetFromVa target / tm.align + i⟩
    · rw [if_pos (hsame.mp heq), if_pos heq]
      rfl
    · rw [if_neg fun hin => heq (hsame.mpr hin), if_neg heq]
      rfl
  · obtain ⟨hqueued, hown⟩ := h.unfreed spot b hb hn
    refine ⟨hqueued, fun t'' htx hmem => hown t rfl ?_⟩
    obtain rfl := Option.some.inj htx
    rwa [← htoFree]

/-- **Every turn of `tm_write`** has its word after it. -/
theorem Simulates.writing {t : Tx V} {c : WriteCall V} {i : Nat}
    (h : Simulates platform tm r (.writing t c i)) (hfacts : SoloFacts platform tm (.writing t c i))
    (hmalloc : ∀ i, choice.mallocOk i = true) :
    (Thread.writing t c i).Advances platform tm r (tmWriteStep platform tm choice t c i) := by
  obtain ⟨source, size, target, p, g, hcall, hin, hp, hg, rfl, hlength, hi⟩ := h.serves
  obtain ⟨p', g', hranged⟩ := hin.ranged h.shown.align h.shown.memory
  obtain rfl : p = p' := Option.some.inj (hp.symm.trans hranged.pointer)
  obtain rfl : g = g' := Option.some.inj (hg.symm.trans hranged.range)
  obtain ⟨hnum, hturn⟩ := hranged.exact.write source
  obtain ⟨view, hbuffers⟩ := hfacts.buffers t rfl hfacts.mode
  have hrv : t.rv = tm.globalVersion := h.alone.current t rfl rfl
  have hwidth : source.length = size / tm.align := by rw [hlength, h.shown.align]
  have hnumWords : (tmWriteCall tm g source size target).numWords.toNat = size / tm.align := by
    rw [hnum]
    rfl
  generalize hc : tmWriteCall tm g source size target = c at *
  have hserves : ∀ {t' : Tx V}, i < source.length →
      (Thread.writing t' c (i + 1)).Serves platform tm r := fun hlt =>
    ⟨source, size, target, p, g, hcall, hin, hp, hg, hc.symm, hlength, hlt⟩
  by_cases hlt : i < size / tm.align
  · have hturns : (i : Int) < c.numWords := by rw [hnum]; exact_mod_cast hlt
    obtain ⟨hlock, hcurr⟩ := hturn i hlt
    have hname : tm.NamesWord (target + BitVec.ofNat 64 (i * tm.align))
        ⟨g, offsetFromVa target / tm.align + i⟩ := by
      have hend : offsetFromVa target + size ≤ 2 ^ 48 := hranged.fits.2.trans (by decide)
      refine namesRange_named hfacts.align_pos hg hend i _ ?_
      rw [Tm.named_eq hg]
      exact Tm.getElem?_wordsOf hlt
    let w : Word := ⟨g, offsetFromVa target / tm.align + i⟩
    obtain ⟨hfree, hold⟩ := hfacts.free (w := w) List.not_mem_nil
    have hrefuses : ¬ (vlReadVersion (tm.lock w) = -1 ∨ t.rv < vlReadVersion (tm.lock w)) := by
      rw [hrv]
      exact not_or.mpr ⟨hfree, not_lt.mpr hold⟩
    obtain ⟨x, hx⟩ : ∃ x, source[i]? = some x :=
      ⟨_, List.getElem?_eq_getElem (hwidth ▸ hlt)⟩
    have hx' : c.source[i]? = some x := by rw [← hc]; exact hx
    have hremaining : c.numWords.toNat - (i + 1) + 1 < c.numWords.toNat - i + 1 := by omega
    rw [← hcurr] at hname
    cases hlookup : t.lookup platform.bit (c.curr tm i) with
    | some item =>
        obtain ⟨hfind, hword, -⟩ := hbuffers.of_hit hfacts.align_pos hname hlookup
        have hstep : tmWriteStep platform tm choice t c i = Move.op (.loadLock w (tm.lock w))
            (.writing { t with ws := Tx.overwrite t.ws (c.curr tm i) x } c (i + 1)) := by
          simp only [tmWriteStep, if_pos hturns, hlock]
          rw [if_neg hrefuses]
          simp only [hx', hlookup, w]
        refine .load hstep trivial (hserves (hwidth ▸ hlt)) ?_ hremaining
        refine h.shown.write hfacts.table h.wf hcall hranged hx ?_ rfl
        rw [← hword]
        exact lookup_wsWrites_overwrite hbuffers.nodup hfind
    | none =>
        obtain ⟨t', happend, -⟩ := (h.alone.roomy t rfl).append platform.bit (c.curr tm i) x w
        have hlast := hbuffers.of_miss hfacts.table hname hlookup
        rw [← hbuffers.lookup] at hlast
        have hstep : tmWriteStep platform tm choice t c i = Move.op (.loadLock w (tm.lock w))
            (.writing t' c (i + 1)) := by
          simp only [tmWriteStep, if_pos hturns, hlock]
          rw [if_neg hrefuses]
          simp only [hx', hlookup, hmalloc]
          rw [happend]
        obtain ⟨rs, sz, -, rfl⟩ := Tx.append_eq happend
        refine .load hstep trivial (hserves (hwidth ▸ hlt)) ?_ hremaining
        exact h.shown.write hfacts.table h.wf hcall hranged hx (lookup_wsWrites_append hlast) rfl
  · have hdone : ¬ (i : Int) < c.numWords := by rw [hnum]; exact_mod_cast hlt
    have hstep : tmWriteStep platform tm choice t c i =
        Move.op .tau (.returning (.write true) (some t)) := by
      rw [tmWriteStep, if_neg hdone]
    have hall : source.take i = source := List.take_of_length_le (by omega)
    refine .load hstep trivial ⟨source, size, p, hcall, hranged.inBounds, hlength⟩
      (h.shown.goOn rfl ?_ fun t' htx => ⟨t', htx, rfl⟩) (Nat.succ_pos _)
    simp only [Thread.reached, hcall, hall]

end TransactionalMemory
