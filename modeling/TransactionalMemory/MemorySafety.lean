import TransactionalMemory.GrowableArrays
import TransactionalMemory.SegmentGenerations
import TransactionalMemory.Proof.InBounds
import TransactionalMemory.Proof.Sizes

/-!
# Memory safety

Clients that keep to the interface, on a machine that has memory: no thread ever follows a null or
stray pointer, leaves an array or fails an assertion, and none overflows an `int` that has room for
one more growth. Each function is safe where its call is in bounds and its pointers are good, and
the invariants say that they always are.
-/

namespace TransactionalMemory

open Concurrency

variable {V Tid : Type}

/-! ### The functions -/

section Functions

variable {platform : Platform V} {tm : Tm V} {choice : Choice V}

theorem tmBeginStep_safe {isRo : Bool} {pc : BeginPc} : tmBeginStep tm choice isRo pc ≠ .crash := by
  cases pc with
  | rdlock =>
      simp only [tmBeginStep]
      split <;> simp
  | body =>
      simp only [tmBeginStep]
      split
      · simp
      · split <;> simp

theorem roTransactionReadCall_eq {source : Addr} {size : Nat} {g : SegId} (hwhole : tm.Whole)
    (halign : 0 < tm.align) (hrange : tm.range source size = some g) :
    ∃ c, roTransactionReadCall tm g source size = some c := by
  obtain ⟨-, hwords⟩ := hwhole.covers halign hrange
  obtain ⟨seg, -, -, -, hpos, hdvd, -, -⟩ := Tm.range_eq_some hrange
  have hnum : toInt (size / tm.align : Nat) = (size / tm.align : Nat) :=
    toInt_natCast ((Nat.le_add_left _ _).trans_lt hwords)
  have hmany : 0 < size / tm.align := Nat.div_pos (Nat.le_of_dvd hpos hdvd) halign
  have hassert : (0 : Int) < (size / tm.align : Nat) := by exact_mod_cast hmany
  unfold roTransactionReadCall
  rw [hnum, if_pos hassert]
  exact ⟨_, rfl⟩

theorem callStep_safe {t : Tx V} {call : Call V} (hwhole : tm.Whole)
    (halign : 0 < tm.align ∧ 8 ∣ tm.align) (hallowed : tm.Allows t call) :
    callStep tm t call ≠ .crash := by
  cases call with
  | begin => simp [callStep]
  | finish => simp [callStep]
  | free target => simp [callStep, hallowed.1]
  | alloc size =>
      obtain ⟨hpos, hsize, hdvd, -⟩ := hallowed
      simp only [callStep, if_pos (And.intro hpos (And.intro hsize hdvd))]
      simp
  | write source size target =>
      obtain ⟨hrange, hrw, hlength⟩ := hallowed
      obtain ⟨g, hrange⟩ := Option.isSome_iff_exists.mp hrange
      simp [callStep, hrange, hrw, hlength]
  | read source size =>
      obtain ⟨hrange, hfits⟩ := hallowed
      obtain ⟨g, hrange⟩ := Option.isSome_iff_exists.mp hrange
      cases hro : t.isRo with
      | true =>
          obtain ⟨c, hcall⟩ := roTransactionReadCall_eq hwhole halign.1 hrange
          simp [callStep, hrange, hro, hcall]
      | false =>
          obtain ⟨c, hcall⟩ := tmReadCall_eq g halign.1 (hfits hro)
          simp [callStep, hrange, hro, hcall]

/-- A word of the range has an offset that `int` holds. -/
theorem checkedInt_offset {start n i align : Int} (hstart : 0 ≤ start) (hi : 0 ≤ i) (hlt : i < n)
    (halign : 0 < align) (hend : (start + n) * align ≤ 2 ^ 31) :
    checkedInt (i * align) = some (i * align) ∧
      checkedInt ((start + i) * align) = some ((start + i) * align) := by
  have hone : (start + i + 1) * align ≤ (start + n) * align :=
    Int.mul_le_mul_of_nonneg_right (by omega) halign.le
  rw [Int.add_mul _ 1, Int.one_mul] at hone
  have hsplit := Int.add_mul start i align
  have hstart' := Int.mul_nonneg hstart halign.le
  have hi' := Int.mul_nonneg hi halign.le
  exact ⟨if_pos (by omega), if_pos (by omega)⟩

theorem tmReadStep_safe {t : Tx V} {c : ReadCall} {pc : ReadPc V} (halign : 0 < tm.align)
    (hmallocs : ∀ i, choice.mallocOk i = true) (hroomy : t.Roomy)
    (h : (Thread.reading t c pc).InBounds tm) : tmReadStep platform tm choice t c pc ≠ .crash := by
  obtain ⟨hcovers, hcalign, hend, hturn⟩ := h
  have hoffset : ∀ i : Nat, (i : Int) < c.numWords → checkedInt (i * c.align) = some (i * c.align) ∧
      checkedInt ((c.startWord + i) * c.align) = some ((c.startWord + i) * c.align) := fun i hi =>
    checkedInt_offset hcovers.1 (by omega) hi (by rw [hcalign]; exact_mod_cast halign) hend
  cases pc with
  | word i target =>
      simp only [tmReadStep]
      split
      · rename_i hi
        simp only [ReadCall.curr, (hoffset i hi).1, Option.map_some]
        split <;> simp
      · simp
  | load i target =>
      obtain ⟨w, hw⟩ := hcovers.wordAt (hturn i rfl)
      simp only [tmReadStep, hw]
      split <;> simp
  | copy i versionRead target =>
      obtain ⟨w, hw⟩ := hcovers.wordAt (hturn i rfl)
      simp [tmReadStep, ReadCall.wordAt, (hoffset i (hturn i rfl)).2, hw]
  | recheck i versionRead x target =>
      obtain ⟨w, hw⟩ := hcovers.wordAt (hturn i rfl)
      obtain ⟨t', hadd, -⟩ := hroomy.addToReadset w versionRead
      simp only [tmReadStep, hw, hmallocs, hadd]
      split <;> simp

theorem roRecord_safe {t : Tx V} {c : RoCall} {w : Word} {i : Nat} {versionRead : Int}
    {prev : List Int} {target : List (Option V)} {o : Op V}
    (hmallocs : ∀ i, choice.mallocOk i = true) (hroomy : t.Roomy) :
    roRecord choice t c w i versionRead prev target o ≠ .crash := by
  obtain ⟨t', hadd, -⟩ := hroomy.addToReadset w versionRead
  simp [roRecord, hmallocs, hadd]

theorem roTransactionReadStep_safe {t : Tx V} {c : RoCall} {pc : RoPc V}
    (hmallocs : ∀ i, choice.mallocOk i = true) (hroomy : t.Roomy) (hro : t.isRo = true)
    (hnull : t.NoNull) (hpoints : ∀ w, t.Points w → tm.valid w = true)
    (h : (Thread.roReading t c pc).InBounds tm) :
    roTransactionReadStep tm choice t c pc ≠ .crash := by
  obtain ⟨hcovers, hturn⟩ := h
  cases pc with
  | pre i prev =>
      simp only [roTransactionReadStep]
      split
      · rename_i hi
        obtain ⟨w, hw⟩ := hcovers.wordAt hi
        simp only [hw]
        split <;> simp
      · simp
  | copy prev target =>
      simp only [roTransactionReadStep]
      split
      · simp
      · split <;> simp
  | post i prev target =>
      simp only [roTransactionReadStep]
      split
      · rename_i hi
        obtain ⟨w, hw⟩ := hcovers.wordAt hi
        simp only [hw]
        split
        · simp
        · split
          · simp
          · exact roRecord_safe hmallocs hroomy
      · simp
  | loadClock i versionRead prev target => simp [roTransactionReadStep]
  | revalidate i k versionRead nextRv prev target =>
      obtain ⟨rs, hrs, -⟩ := hroomy.reads
      simp only [roTransactionReadStep, hrs]
      split
      · rename_i hk
        exact absurd rfl (hnull hro rs hrs _ (List.mem_of_getElem? hk))
      · rename_i recorded w hk
        have hvalid := hpoints w (Or.inl ⟨rs, _, hrs, List.mem_of_getElem? hk, rfl⟩)
        simp only [hvalid, if_true]
        split <;> simp
      · obtain ⟨w, hw⟩ := hcovers.wordAt (hturn i rfl)
        simp only [hw]
        refine roRecord_safe hmallocs ?_
        rw [← hrs]
        exact hroomy.refresh nextRv

theorem tmWriteStep_safe {t : Tx V} {c : WriteCall V} {i : Nat}
    (hmallocs : ∀ i, choice.mallocOk i = true) (hroomy : t.Roomy)
    (h : (Thread.writing t c i).InBounds tm) : tmWriteStep platform tm choice t c i ≠ .crash := by
  obtain ⟨hcovers, hlength⟩ := h
  simp only [tmWriteStep]
  split
  · rename_i hi
    obtain ⟨w, hw⟩ := hcovers.wordAt hi
    have hlt : i < c.source.length := by omega
    simp only [hw, List.getElem?_eq_getElem hlt]
    split
    · simp
    · split
      · simp
      · obtain ⟨t', happend, -⟩ := hroomy.append platform.bit (c.curr tm i) (c.source[i]) w
        simp [hmallocs, happend]
  · simp

theorem tmFreeStep_safe {t : Tx V} {target : Addr} (hmallocs : ∀ i, choice.mallocOk i = true) :
    tmFreeStep choice t target ≠ .crash := by
  simp only [tmFreeStep, hmallocs, if_true]
  split <;> simp

/-- An entry of the queue is the spot of a finished segment, or of one that is gone. -/
def Tm.Deletable (tm : Tm V) (spot : Int) : Prop :=
  ∃ n : Nat, spot = n ∧ (tm.vaArr n = .null ∨ ∃ g seg, tm.InstalledAt n g seg)

theorem tmEndStep_safe {t : Tx V} {pc : EndPc} (hmallocs : ∀ i, choice.mallocOk i = true)
    (hroomy : t.Roomy) (hpoints : pc.InBounds t → (Thread.ending t pc).holds = true →
      ∀ w, t.Points w → tm.valid w = true)
    (hversion : checkedInt (tm.globalVersion + 1) = some (tm.globalVersion + 1))
    (hqueue : tm.QueueRoomy) (hentries : ∀ spot ∈ tm.toFree, tm.Deletable spot)
    (h : pc.InBounds t) : tmEndStep platform tm choice t pc ≠ .crash := by
  have hlock : ∀ {i : Nat} {item : WsItem V}, (Thread.ending t pc).holds = true →
      t.ws[i]? = some item → tm.valid item.versionedLock = true := fun hheld hi =>
    hpoints h hheld _ (Or.inr ⟨_, List.mem_of_getElem? hi, Or.inl rfl⟩)
  cases pc with
  | start =>
      simp only [tmEndStep]
      split <;> simp
  | tryLoad i =>
      simp only [tmEndStep]
      split
      · simp
      · rename_i item hi
        simp only [hlock rfl hi, if_true]
        split <;> simp
  | tryCas i prev =>
      have hi := List.getElem?_eq_getElem h
      simp only [tmEndStep, hi, hlock rfl hi, if_true]
      split <;> simp
  | rollback i j =>
      simp only [tmEndStep]
      split
      · rename_i hij
        have hj := List.getElem?_eq_getElem (hij.trans_le h)
        simp [hj, hlock rfl hj]
      · simp
  | fetchAdd =>
      simp only [tmEndStep, hversion]
      split <;> simp
  | validate wv i =>
      obtain ⟨rs, hrs, -⟩ := hroomy.reads
      simp only [tmEndStep, hrs]
      split
      · simp
      · simp
      · rename_i versionRead w hi
        have hvalid := hpoints h rfl w (Or.inl ⟨rs, _, hrs, List.mem_of_getElem? hi, rfl⟩)
        simp only [hvalid, if_true]
        split <;> simp
  | undo wv j =>
      simp only [tmEndStep]
      split
      · simp
      · rename_i item hj
        simp [hlock rfl hj]
  | validated wv => simp [tmEndStep]
  | copy wv i =>
      simp only [tmEndStep]
      split
      · simp
      · rename_i item hi
        have hvalid := hpoints h rfl _ (Or.inr ⟨item, List.mem_of_getElem? hi, Or.inr rfl⟩)
        simp [hvalid]
  | release wv i =>
      have hi := List.getElem?_eq_getElem h
      simp [tmEndStep, hi, hlock rfl hi]
  | lockToFree =>
      simp only [tmEndStep]
      split <;> simp
  | push i =>
      obtain ⟨hlength, hsize, hnull⟩ := hqueue
      have hresize := lt_resize hsize
      have hroom : (tm.toFree.length : Int) <
          if decide (tm.toFreeSz ≤ (tm.toFree.length : Int) + 1) = true then resize tm.toFreeSz
          else tm.toFreeSz := by
        split <;> omega
      simp only [tmEndStep]
      split
      · simp
      · simp [hmallocs, hnull, -decide_eq_true_eq, hroom]
  | unlockCleanup => simp [tmEndStep]
  | checkBatch =>
      simp only [tmEndStep]
      split <;> simp
  | wrlock =>
      simp only [tmEndStep]
      split <;> simp
  | drain i =>
      simp only [tmEndStep]
      split
      · simp
      · rename_i spot hi
        obtain ⟨n, rfl, hentry⟩ := hentries spot (List.mem_of_getElem? hi)
        have hpos : ¬ (n : Int) < 0 := by omega
        rw [if_neg hpos, Int.toNat_natCast]
        rcases hentry with hnull | ⟨g, ⟨size, numWords, state⟩, hspot, hseg, hready⟩
        · simp [hnull]
        · obtain rfl : state = .ready := hready
          simp [hspot, hseg, hmallocs]
  | wrunlock => simp [tmEndStep]

end Functions

/-! ### Every run -/

section Runs

variable [Zero V] [DecidableEq Tid] {platform : Platform V} {s : State Tid V}

def SafeOk (s : State Tid V) (l : Label Tid V) : Prop := NoFailure s l ∧ CallsAllowed s l

/-- All interleavings of such clients, on a region of fewer than `2 ^ 31` words. -/
def safeMachine (Tid : Type) [DecidableEq Tid] (platform : Platform V) :
    Machine (State Tid V) (Label Tid V) :=
  Machine.restrict
    { system Tid platform with
      init := fun s => (∀ tid, s.thread tid = .idle) ∧ ∃ choice size align,
        0 < size ∧ size < 2 ^ 64 ∧ align ∣ size ∧ (∃ k, align = 2 ^ k) ∧ size / align < 2 ^ 31 ∧
          (∀ i, choice.mallocOk i = true) ∧ tmCreate choice size align = .next (some s.tm) }
    SafeOk

theorem safeMachine_init (h : (safeMachine Tid platform).init s) :
    (system Tid platform).init s ∧ s.tm.toFreeNull = false ∧ s.tm.Whole ∧
      s.tm.globalVersion = 0 := by
  obtain ⟨hidle, choice, size, align, hpos, hlt, hdvd, hpow, hwords, hmallocs, hcreate⟩ := h
  obtain ⟨-, -, htm⟩ := tmCreate_eq hcreate
  refine ⟨⟨hidle, choice, size, align, hpos, hlt, hdvd, hpow, hcreate⟩, ?_,
    fun g seg hseg _ => ?_, ?_⟩
  · rw [htm, hmallocs 2]
    rfl
  · rw [htm] at hseg ⊢
    simp only [Tm.created, Function.update_apply] at hseg
    split at hseg
    · obtain rfl := Option.some.inj hseg
      have hnum : toInt (size / align : Nat) = (size / align : Nat) := toInt_natCast hwords
      have hcount : (size : Int) = (size / align : Nat) * align := by
        exact_mod_cast (Nat.div_mul_cancel hdvd).symm
      simp only [hnum]
      exact ⟨by exact_mod_cast hwords, hcount⟩
    · cases hseg
  · rw [htm]
    rfl

theorem noFailure_of_safe (h : (safeMachine Tid platform).Reachable s) :
    ((system Tid platform).restrict NoFailure).Reachable s := by
  have hstep : ∀ s l s', (safeMachine Tid platform).step s l s' →
      ((system Tid platform).restrict NoFailure).step s l s' :=
    fun s l s' hstep => ⟨hstep.1.1, hstep.2⟩
  exact h.mono hstep fun _ hs => (safeMachine_init hs).1

theorem arrays_of_safe (h : (safeMachine Tid platform).Reachable s) :
    (arraysMachine Tid platform).Reachable s := by
  have hstep : ∀ s l s', (safeMachine Tid platform).step s l s' →
      (arraysMachine Tid platform).step s l s' := fun s l s' hstep => ⟨hstep.1.1.1, hstep.2⟩
  exact h.mono hstep fun _ hs => ⟨(safeMachine_init hs).1, (safeMachine_init hs).2.1⟩

omit [Zero V] [DecidableEq Tid] in
theorem CallsAllowed.freesInstalled {l : Label Tid V} {thread' : Thread V} {choice : Choice V}
    (h : CallsAllowed s l)
    (hmove : ThreadMove platform s.tm choice (s.thread l.tid) l.event thread') :
    FreesInstalled s l := by
  intro target hevent
  have hallowed := fun t hthread => (h t (.free target) hthread hevent).2
  generalize s.thread l.tid = thread, l.event = event at hmove hevent hallowed
  cases hmove with
  | call => exact hallowed _ rfl
  | start => cases hevent
  | begin hbegin => cases hbegin <;> cases hevent
  | read hread => cases hread <;> cases hevent
  | roRead hread => cases hread <;> cases hevent
  | write hwrite => cases hwrite <;> cases hevent
  | alloc halloc => cases halloc <;> cases hevent
  | free hfree => cases hfree <;> cases hevent
  | finish hend => cases hend <;> cases hevent
  | cleanup | retIdle | retLive => cases hevent

theorem deletable_of_safe (h : (safeMachine Tid platform).Reachable s) :
    ∀ spot ∈ s.tm.toFree, s.tm.Deletable spot := by
  have hstep : ∀ s l s', (safeMachine Tid platform).step s l s' →
      ((system Tid platform).restrict
        fun s l => NoFailure s l ∧ FreesInstalled s l).step s l s' := by
    intro s l s' hstep
    exact ⟨⟨hstep.1.1, hstep.1.2.freesInstalled (system_step_move hstep.2).1⟩, hstep.2⟩
  obtain ⟨r, hr⟩ := (h.mono hstep fun _ hs => (safeMachine_init hs).1).exists_observe
    ⟨fun _ => none, fun _ => [], [], [], [], []⟩ recordGenerations
  have hinv : GenerationsInv s r := generationsInv hr
  have hqueued := hinv.queued
  intro spot hmem
  obtain ⟨i, hi, rfl⟩ := List.mem_iff_getElem.mp hmem
  have hi' : i < r.queued.length := hqueued.length_eq ▸ hi
  rcases hqueued.get hi hi' with ⟨n, g, seg, hn, -, hinst⟩ | ⟨⟨n, g, hn, -, -, -, hnull⟩, -⟩
  · exact ⟨n, hn, Or.inr ⟨g, seg, hinst⟩⟩
  · exact ⟨n, hn, Or.inl hnull⟩

structure SafeInv (s : State Tid V) : Prop where
  whole : s.tm.Whole
  bounds : ∀ tid, (s.thread tid).InBounds s.tm
  version : -2 ^ 31 ≤ s.tm.globalVersion
  drawn : ∀ tid wv, (s.thread tid).version = some wv → wv ≤ s.tm.globalVersion

theorem Tm.globalVersion_after (tm : Tm V) (event : Event V) :
    (tm.after event).globalVersion = tm.globalVersion ∨
      ∃ n, (tm.after event).globalVersion = toInt n := by
  cases event with
  | op o =>
      cases o with
      | fetchAddClock old => exact Or.inr ⟨_, rfl⟩
      | casLock w expected success => cases success <;> exact Or.inl rfl
      | deleteSegment spot =>
          simp only [Tm.after, Tm.apply, Tm.deleteSegment]
          split <;> exact Or.inl rfl
      | _ => exact Or.inl rfl
  | _ => exact Or.inl rfl

theorem safeInv (h : (safeMachine Tid platform).Reachable s) : SafeInv s := by
  refine h.invariant (P := SafeInv) (fun s hs => ?_) fun s l s' hreach ih hs => ?_
  · obtain ⟨hinit, -, hwhole, hversion⟩ := safeMachine_init hs
    refine ⟨hwhole, fun tid => ?_, by rw [hversion]; decide, fun tid wv hwv => ?_⟩
    · rw [hinit.1 tid]
      trivial
    · rw [hinit.1 tid] at hwv
      cases hwv
  · obtain ⟨hok, hstep⟩ := hs
    have hrestricted := noFailure_of_safe hreach
    have hsystem := hrestricted.of_restrict
    obtain ⟨hmove, htm, hother⟩ := system_step_move hstep
    refine ⟨ih.whole.step ih.bounds hstep, fun tid => ?_, ?_, fun tid wv hwv => ?_⟩
    · by_cases heq : tid = l.tid
      · rw [heq, htm]
        refine hmove.inBounds ih.whole (align_pos_dvd hsystem) (hok.2)
          (fun t size spot g hthread => ?_) (ih.bounds l.tid)
        obtain ⟨seg, hseg, -⟩ := (segmentsInv hsystem).building l.tid g .raw (by rw [hthread]; rfl)
        exact ⟨seg, hseg⟩
      · rw [hother tid heq]
        exact (ih.bounds tid).keep hsystem hstep heq
    · rw [htm]
      rcases s.tm.globalVersion_after l.event with hsame | ⟨n, hn⟩
      · rw [hsame]
        exact ih.version
      · rw [hn]
        exact (toInt_mem n).1
    · by_cases heq : tid = l.tid
      · subst heq
        rw [htm]
        exact hmove.version_le (ih.drawn l.tid) hwv
      · rw [hother tid heq] at hwv
        have hbefore := ih.drawn tid wv hwv
        rw [htm]
        rcases hmove.clock with hclock | hclock <;> omega

/-- The next version and the next spot are ones that the code has room for. -/
structure State.Within (s : State Tid V) : Prop where
  version : s.tm.globalVersion + 1 < 2 ^ 31
  spots : s.tm.vaN ≤ vaSize

/-- The next step of a thread, whatever its client asks for within the interface. -/
theorem thread_safe (h : (safeMachine Tid platform).Reachable s) (hwithin : s.Within) (tid : Tid)
    (choice : Choice V) (hmallocs : ∀ i, choice.mallocOk i = true)
    (hcall : ∀ t call, s.thread tid = .live t → choice.call = some call → s.tm.Allows t call) :
    (s.thread tid).step platform s.tm choice ≠ .crash := by
  have hrestricted := noFailure_of_safe h
  have hsystem := hrestricted.of_restrict
  obtain ⟨hwhole, hbounds, hversion, -⟩ := safeInv h
  obtain ⟨hqueue, hroomy⟩ := arraysInv (arrays_of_safe h)
  have halign := align_pos_dvd hsystem
  have hpoints : ∀ t, (s.thread tid).tx = some t → (s.thread tid).holds = true →
      ∀ w, t.Points w → s.tm.valid w = true := fun t ht hheld w hw =>
    ((pointersInv hrestricted tid hheld).1 t w ht hw).1
  have hclock : checkedInt (s.tm.globalVersion + 1) = some (s.tm.globalVersion + 1) := by
    have hlt := hwithin.version
    unfold checkedInt
    rw [if_pos (by omega)]
  have hmode := threadMode hsystem tid
  have hnull : ∀ t, (s.thread tid).tx = some t → t.NoNull := noNull hsystem tid
  have hinbounds := hbounds tid
  have hroom := hroomy tid
  cases hthread : s.thread tid with
  | idle =>
      simp only [Thread.step]
      split <;> simp
  | live t =>
      simp only [Thread.step]
      split
      · rename_i call hchoice
        exact callStep_safe hwhole halign (hcall t call hthread hchoice)
      · simp
  | beginning isRo pc => exact tmBeginStep_safe
  | reading t c pc =>
      rw [hthread] at hinbounds hroom
      exact tmReadStep_safe halign.1 hmallocs (hroom t rfl) hinbounds
  | roReading t c pc =>
      rw [hthread] at hinbounds hroom hmode hnull hpoints
      exact roTransactionReadStep_safe hmallocs (hroom t rfl) hmode (hnull t rfl)
        (hpoints t rfl rfl) hinbounds
  | writing t c i =>
      rw [hthread] at hinbounds hroom
      exact tmWriteStep_safe hmallocs (hroom t rfl) hinbounds
  | allocating t size pc =>
      obtain ⟨cells, hspots⟩ :=
        spotsInv (fun _ _ hreach _ => pushesAlone_of_noFailure hreach) hrestricted
      have hhead : pc = .popIndex → s.tm.emptySpots ≠ none := by
        rintro rfl
        exact emptySpots_ne_none hsystem tid (by rw [hthread]; rfl)
      refine hspots.tmAllocStep_ne_crash hthread hhead (fun spot hpc => ⟨?_, Or.inl (hmallocs 0)⟩)
        fun _ _ => hmallocs 0
      subst hpc
      exact lt_of_lt_of_le (hspots.circulation.claim_lt tid spot (SpotsInv.claim_eq hthread))
        hwithin.spots
  | freeing t target =>
      rw [Thread.step]
      exact tmFreeStep_safe hmallocs
  | ending t pc =>
      rw [hthread] at hinbounds hroom hpoints
      exact tmEndStep_safe hmallocs (hroom t rfl) (fun _ => hpoints t rfl) hclock hqueue
        (deletable_of_safe h) hinbounds
  | aborting t r => simp [Thread.step, transactionCleanupStep]
  | returning r t =>
      cases t <;> simp [Thread.step]

/-- Every array can grow once more within `int`, the next version fits beside the lock bit, and the
reads in progress have their array on the stack. -/
structure State.Headroom (s : State Tid V) (stack : Nat) : Prop where
  sets : ∀ tid t, (s.thread tid).tx = some t → t.Headroom
  queue : resize s.tm.toFreeSz < 2 ^ 31
  clock : s.tm.globalVersion + 1 < 2 ^ 30
  prev : ∀ tid, (s.thread tid).prevBytes ≤ stack

/-- `int` holds all sizes, counters and versions, and the stack the arrays of the reads. -/
structure State.InInt (s : State Tid V) (stack : Nat) : Prop where
  threads : ∀ tid, (s.thread tid).InInt stack
  toFree : (s.tm.toFree.length : Int) < 2 ^ 31
  toFreeSz : s.tm.toFreeSz < 2 ^ 31
  vaN : (s.tm.vaN : Int) < 2 ^ 31
  clock : s.tm.globalVersion < 2 ^ 30

theorem inInt_of_headroom {stack : Nat} {s' : State Tid V} {l : Label Tid V}
    (h : (safeMachine Tid platform).Reachable s) (hwithin : s.Within) (hroom : s.Headroom stack)
    (hmallocs : ∀ i, l.choice.mallocOk i = true)
    (hcall : ∀ t call, s.thread l.tid = .live t → l.event = .call call → s.tm.PrevFits stack t call)
    (hstep : (system Tid platform).step s l s') : s'.InInt stack := by
  obtain ⟨hqueue, hroomy⟩ := arraysInv (arrays_of_safe h)
  have hdrawn := (safeInv h).drawn
  obtain ⟨hmove, htm, hother⟩ := system_step_move hstep
  have hqueue' := hqueue.step hmove
  have hsz := hmove.toFreeSz_le hqueue
  have hvaN := hmove.vaN_le
  have hclock := hroom.clock
  have hspots := hwithin.spots
  have hsmall : vaSize ≤ 2 ^ 16 := by decide
  have hlength := hqueue'.length_lt
  have hbound := hroom.queue
  refine ⟨fun tid => ?_, ?_, ?_, ?_, ?_⟩
  · by_cases heq : tid = l.tid
    · subst heq
      refine ⟨fun t' ht' => ?_, hmove.prev (hroom.prev l.tid) hcall, fun wv hwv => ?_⟩
      · have hroomy' := hmove.roomy hmallocs (hroomy l.tid) t' ht'
        rcases hmove.grows (hroomy l.tid) ht' with ⟨rv, isRo, bloom, rfl⟩ | ⟨t, ht, hgrows⟩
        · exact hroomy'.inInt (by simp [Tx.start, vecInitial]) (by simp [Tx.start, vecInitial])
            (by simp [Tx.start])
        · exact hgrows.inInt (hroom.sets l.tid t ht) hroomy'
      · have hle := hmove.version_le (hdrawn l.tid) hwv
        rcases hmove.clock with hsame | hnext <;> omega
    · rw [hother tid heq]
      refine ⟨fun t ht => (hroom.sets tid t ht).inInt (hroomy tid t ht), hroom.prev tid,
        fun wv hwv => ?_⟩
      have hle := hdrawn tid wv hwv
      omega
  · rw [htm]
    omega
  · rw [htm]
    omega
  · rw [htm]
    omega
  · rw [htm]
    rcases hmove.clock with hsame | hnext <;> omega

omit [Zero V] [DecidableEq Tid] in
theorem callStep_event {tm : Tm V} {t : Tx V} {call : Call V} {event : Event V} {thread' : Thread V}
    (h : callStep tm t call = .next (event, thread')) : event = .call call := by
  cases call with
  | begin => cases h
  | read source size =>
      simp only [callStep] at h
      split at h
      · cases h
      · split at h
        all_goals
          split at h
          · cases h
          · cases h
            rfl
  | write source size target =>
      simp only [callStep] at h
      split at h
      · cases h
      · split at h
        · cases h
        · cases h
          rfl
  | alloc | free =>
      simp only [callStep] at h
      split at h
      all_goals cases h
      rfl
  | finish =>
      cases h
      rfl

theorem State.call_of_step {s' : State Tid V} {tid : Tid} {choice : Choice V} {event : Event V}
    {t : Tx V} {call : Call V} (hstep : s.step platform tid choice = .next (event, s'))
    (hthread : s.thread tid = .live t) (hevent : event = .call call) : choice.call = some call := by
  unfold State.step at hstep
  rw [hthread, Thread.step] at hstep
  cases hchoice : choice.call with
  | none => simp [hchoice] at hstep
  | some call' =>
      simp only [hchoice] at hstep
      split at hstep
      · rename_i heq
        cases hstep
        have hcall := callStep_event heq
        rw [hevent] at hcall
        cases hcall
        rfl
      · cases hstep
      · cases hstep

/-- **Memory safety.** In every run without allocation failures whose clients keep to the interface,
and while the clock, the table and the sizes have room, no step of any thread, whatever its client
asks for within the interface, follows a null or stray pointer, leaves an array, fails an assertion
or overflows an `int`. -/
theorem never_crashes {stack : Nat} (h : (safeMachine Tid platform).Reachable s)
    (hwithin : s.Within) (hroom : s.Headroom stack) (tid : Tid) (choice : Choice V)
    (hmallocs : ∀ i, choice.mallocOk i = true)
    (hcall : ∀ t call, s.thread tid = .live t → choice.call = some call →
      s.tm.Allows t call ∧ s.tm.PrevFits stack t call) :
    s.step platform tid choice ≠ .crash ∧
      ∀ event s', s.step platform tid choice = .next (event, s') → s'.InInt stack := by
  refine ⟨State.step_ne_crash
    (thread_safe h hwithin tid choice hmallocs fun t call hthread hchoice =>
    (hcall t call hthread hchoice).1), fun event s' hstep => ?_⟩
  refine inInt_of_headroom (l := ⟨tid, choice, event⟩) h hwithin hroom hmallocs
    (fun t call hthread hevent => ?_) hstep
  exact (hcall t call hthread (State.call_of_step hstep hthread hevent)).2

end Runs

/-! ### A run -/

def callsAllowed (s : State Tid V) (l : Label Tid V) : Bool :=
  match s.thread l.tid, l.event with
  | .live t, .call call => decide (s.tm.Allows t call)
  | _, _ => true

theorem callsAllowed_sound (s : State Tid V) (l : Label Tid V) (h : callsAllowed s l = true) :
    CallsAllowed s l := by
  intro t call hthread hevent
  simpa [callsAllowed, hthread, hevent] using h

/-- Where a schedule leads whose clients keep to the interface. -/
theorem safe_of_schedule [DecidableEq Tid] (turns : Schedule Tid Nat) (test : State Tid Nat → Bool)
    (h : (Machine.drive (State.move (Platform.x86 Nat))
      (fun s l => noFailure s l && callsAllowed s l)
      (fun _ _ => id) (State.fresh Tid Nat (1 * 8) 8, ()) turns).any (fun p => test p.1) = true) :
    ∃ s, (safeMachine Tid (Platform.x86 Nat)).Reachable s ∧ test s = true := by
  obtain ⟨p, hdrive, htest⟩ := (Option.any_eq_true _ _).mp h
  have hstart : ((safeMachine Tid (Platform.x86 Nat)).observe () fun _ _ => id).Reachable
      (State.fresh Tid Nat (1 * 8) 8, ()) :=
    .init ⟨⟨fun _ => rfl, {}, 8, 8, by decide, by decide, dvd_rfl, ⟨3, rfl⟩, by decide,
      fun _ => rfl, tmCreate_default (by decide) (by decide)⟩, rfl⟩
  have hallowed : ∀ (s : State Tid Nat) (l : Label Tid Nat),
      (noFailure s l && callsAllowed s l) = true → SafeOk s l := by
    intro s l h
    rw [Bool.and_eq_true] at h
    exact ⟨noFailure_sound s l h.1, callsAllowed_sound s l h.2⟩
  have hreach := hstart.drive (fun _ _ _ _ => State.step_of_move (Platform.x86 Nat)) hallowed hdrive
  exact ⟨p.1, hreach.of_observe, htest⟩

def Thread.queues : Thread V → Bool
  | .ending _ (.push 0) => true
  | _ => false

theorem Thread.eq_of_queues {thread : Thread V} (h : thread.queues = true) :
    ∃ t, thread = .ending t (.push 0) := by
  unfold queues at h
  split at h
  · exact ⟨_, rfl⟩
  · cases h

def Thread.headroom (thread : Thread V) (stack : Nat) : Bool :=
  thread.tx.all (fun t => decide t.Headroom) && decide (thread.prevBytes ≤ stack)

/-- In the `tm_end` of a transaction that has written a word and freed a segment of its own, before
the entry of the segment is stored, beside a read of the word. -/
theorem never_crashes_of_free : ∃ s : State Bool Nat, (∃ t, s.thread true = .ending t (.push 0)) ∧
    (s.thread false).prevBytes = 4 ∧ s.step (Platform.x86 Nat) true {} ≠ .crash ∧
      ∀ event s', s.step (Platform.x86 Nat) true {} = .next (event, s') → s'.InInt 4096 := by
  obtain ⟨s, hreach, htest⟩ := safe_of_schedule
    (calls true (.begin false) 3 ++ calls true (.write [7] 8 (vaFromIndex 0 0)) 3 ++
      calls true (.alloc 8) 8 ++ calls true (.free (vaFromIndex 1 0)) 2 ++
      calls false (.begin true) 3 ++ calls false (.read (vaFromIndex 0 0) 8) 0 ++
      calls true .finish 10)
    (fun s => (s.thread true).queues && decide ((s.thread false).prevBytes = 4) &&
      (s.thread true).headroom 4096 && (s.thread false).headroom 4096 &&
      decide (resize s.tm.toFreeSz < 2 ^ 31) && decide (s.tm.globalVersion + 1 < 2 ^ 30) &&
      decide (s.tm.vaN ≤ vaSize)) (by decide +kernel)
  simp only [Bool.and_eq_true, decide_eq_true_eq] at htest
  obtain ⟨⟨⟨⟨⟨⟨hpoint, hreads⟩, htrue⟩, hfalse⟩, hqueue⟩, hclock⟩, hspots⟩ := htest
  obtain ⟨t, ht⟩ := Thread.eq_of_queues hpoint
  have hthreads : ∀ tid, (s.thread tid).headroom 4096 = true := fun tid => by
    cases tid with
    | true => exact htrue
    | false => exact hfalse
  have hroom : s.Headroom 4096 := by
    refine ⟨fun tid t ht => ?_, hqueue, hclock, fun tid => ?_⟩
    · have htest := (Bool.and_eq_true_iff.mp (hthreads tid)).1
      rw [ht] at htest
      exact of_decide_eq_true htest
    · exact of_decide_eq_true (Bool.and_eq_true_iff.mp (hthreads tid)).2
  refine ⟨s, ⟨t, ht⟩, hreads, never_crashes hreach ⟨by omega, hspots⟩ hroom true {} (fun _ => rfl)
    fun t' call hlive => ?_⟩
  rw [ht] at hlive
  cases hlive

end TransactionalMemory
