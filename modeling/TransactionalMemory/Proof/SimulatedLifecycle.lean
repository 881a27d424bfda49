import TransactionalMemory.Proof.SimulatedAccess

/-!
# Begins, allocations, frees and commits beside the reference

The other functions go through as well: every lock is free when the one thread takes it, the
snapshot of a commit is the clock, and a batch that is destroyed holds no segment that the reference
still has.
-/

namespace TransactionalMemory

open Concurrency

variable {V : Type} {tm : Tm V}

/-! ### Segments that stay -/

section Installed

variable {spot x : Nat} {g s : SegId} {seg seg' : Segment}

theorem Tm.InstalledAt.newSegment [Zero V] (h : tm.InstalledAt x g seg) (htable : tm.TableInv)
    (hvacant : ∀ g, tm.vaArr spot ≠ .segment g) :
    (tm.apply (.newSegment spot)).InstalledAt x g seg := by
  obtain ⟨hspot, hseg, hready⟩ := h
  have hne : x ≠ spot := by
    rintro rfl
    exact hvacant g hspot
  have hlt := htable.segment_lt x g hspot
  exact ⟨by simp [Tm.apply, hne, hspot], by simp [Tm.apply, hlt.ne, hseg], hready⟩

/-- A segment under construction is another one. -/
theorem Tm.InstalledAt.setSegment (h : tm.InstalledAt x g seg) (hseg' : tm.segment s = some seg')
    (hstate : seg'.state ≠ .ready) (f : Segment → Segment) :
    g ≠ s ∧ (tm.setSegment s f).InstalledAt x g seg := by
  obtain ⟨hspot, hseg, hready⟩ := h
  have hne : g ≠ s := by
    rintro rfl
    obtain rfl : seg = seg' := Option.some.inj (hseg.symm.trans hseg')
    exact hstate hready
  exact ⟨hne, hspot, by simp [Tm.setSegment, hne, hseg], hready⟩

theorem Tm.InstalledAt.deleteSegment (h : tm.InstalledAt x g seg) (htable : tm.TableInv)
    {spot : Int} (hne : x ≠ spot.toNat) : (tm.deleteSegment spot).InstalledAt x g seg := by
  obtain ⟨hspot, hseg, hready⟩ := h
  unfold Tm.deleteSegment
  split
  · rename_i s hs
    have hother : g ≠ s := by
      rintro rfl
      exact hne (htable.segment_inj _ _ _ hspot hs)
    exact ⟨by simp [hne, hspot], by simp [hother, hseg], hready⟩
  · exact ⟨hspot, hseg, hready⟩

end Installed

variable [Zero V] {platform : Platform V} {choice : Choice V} {thread thread' : Thread V}
  {r : Mirror V}

/-! ### `tm_begin` and `tm_free` -/

theorem Simulates.beginning {isRo : Bool} {pc : BeginPc}
    (h : Simulates platform tm r (.beginning isRo pc)) (hmalloc : ∀ i, choice.mallocOk i = true) :
    (Thread.beginning isRo pc).Advances platform tm r (tmBeginStep tm choice isRo pc) := by
  have hcall : r.call = some (.begin isRo) := h.serves
  cases pc with
  | rdlock =>
      have hwriter : tm.writer = false := h.alone.writer
      have hstep : tmBeginStep tm choice isRo .rdlock =
          Move.op .rdlock (.beginning isRo .body) := by
        simp only [tmBeginStep, hwriter, Bool.false_eq_true, if_false]
      refine ⟨_, _, hstep, hcall, ?_, Nat.lt_succ_self 1⟩
      exact h.shown.keep rfl (fun _ => id) rfl (fun _ _ _ _ hinst => ⟨hinst, fun _ => rfl⟩)
        fun t htx => by cases htx
  | body =>
      let t : Tx V := Tx.start tm.globalVersion isRo (bfInit choice.garbage (toInt tm.align))
      have hstep : tmBeginStep tm choice isRo .body =
          Move.op (.loadClock tm.globalVersion) (.returning (.begin true) (some t)) := by
        simp only [tmBeginStep, hmalloc, t]
        simp
      refine .load hstep trivial hcall ?_ Nat.one_pos
      refine h.shown.keep rfl (fun _ => id) rfl (fun _ _ _ _ hinst => ⟨hinst, fun _ => rfl⟩)
        fun t' htx => ?_
      obtain rfl := Option.some.inj htx
      simp [t, Tx.start]

/-- **`tm_free`** finds the spot of the segment, which is not the first one. -/
theorem Simulates.freeing {t : Tx V} {target : Addr}
    (h : Simulates platform tm r (.freeing t target)) (hmalloc : ∀ i, choice.mallocOk i = true) :
    (Thread.freeing t target).Advances platform tm r (tmFreeStep choice t target) := by
  obtain ⟨b, hb, hcall, hp⟩ := h.serves
  obtain ⟨b', hblock, hptr⟩ := Option.map_eq_some_iff.mp hp
  obtain rfl : b' = b := congrArg Reference.Ptr.block hptr
  have hlive := h.wf.listed b' hb
  obtain ⟨n, hn⟩ := Option.ne_none_iff_exists'.mp hlive
  obtain ⟨hlt, -⟩ := h.shown.memory _ b' n hblock hn
  have hspot : toInt (indexFromVa target).toNat = (indexFromVa target).toNat :=
    toInt_natCast (by omega)
  have hne : toInt (indexFromVa target).toNat ≠ 0 := by
    rw [hspot]
    intro hzero
    rw [Int.natCast_eq_zero.mp hzero, h.wf.first] at hblock
    obtain rfl := Option.some.inj hblock
    exact h.wf.start.2 hb
  have hstep : tmFreeStep choice t target = Move.op .tau (.returning (.free true)
      (some { t with toFree := t.toFree ++ [toInt (indexFromVa target).toNat] })) := by
    simp only [tmFreeStep, if_neg hne, hmalloc, if_true]
  refine .load hstep trivial ⟨b', hb, hcall⟩ ?_ Nat.one_pos
  refine ⟨h.shown.align, h.shown.memory, fun spot b hblock' hn' => ?_⟩
  obtain ⟨hqueued, hown⟩ := h.shown.unfreed spot b hblock' hn'
  refine ⟨hqueued, fun t' htx hmem => ?_⟩
  obtain rfl := Option.some.inj htx
  rcases List.mem_append.mp hmem with hmem | hmem
  · exact hown t rfl hmem
  · rw [List.mem_singleton, hspot] at hmem
    rw [Int.natCast_inj.mp hmem, hblock] at hblock'
    obtain rfl := Option.some.inj hblock'
    exact hcall

/-! ### `tm_alloc` -/

/-- A step of `tm_alloc` that starts, fills or finishes no segment. -/
theorem Simulates.allocated {t : Tx V} {size : Nat} {pc pc' : AllocPc} {o : Op V}
    (h : Simulates platform tm r (.allocating t size pc))
    (hstep : tmAllocStep tm choice t size pc = Move.op o (.allocating t size pc'))
    (hvaArr : (tm.apply o).vaArr = tm.vaArr) (hsegment : (tm.apply o).segment = tm.segment)
    (hdata : (tm.apply o).data = tm.data) (hqueue : (tm.apply o).toFree = tm.toFree)
    (halign : (tm.apply o).align = tm.align) (hserves : pc'.Serves (tm.apply o) size)
    (hlt : pc'.remaining < pc.remaining) :
    (Thread.allocating t size pc).Advances platform tm r (tmAllocStep tm choice t size pc) := by
  obtain ⟨hcall, hpos, hsize, hdvd, -⟩ := h.serves
  refine ⟨_, _, hstep, ⟨hcall, hpos, hsize, halign ▸ hdvd, hserves⟩, ?_, hlt⟩
  refine h.shown.keep halign (fun _ => hqueue ▸ id) rfl (fun spot g seg _ hinst => ?_)
    fun t' htx spot hmem => ⟨t', htx, hmem⟩
  rw [Tm.InstalledAt, hvaArr, hsegment]
  refine ⟨hinst, fun k => ?_⟩
  rw [Tm.value, hdata]
  rfl

/-- The index that `tm_alloc` has taken is one that an address can name. -/
theorem SoloFacts.spot_lt {t : Tx V} {size spot : Nat} {pc : AllocPc}
    (hfacts : SoloFacts platform tm (.allocating t size pc))
    (halone : tm.Alone (.allocating t size pc)) (hclaim : pc.claim = some spot) : spot < 65535 :=
  (hfacts.claim_lt spot hclaim).trans_le halone.vaN_le

/-- The struct is at a spot that had a null entry. -/
theorem Simulates.initStruct {t : Tx V} {size spot : Nat}
    (h : Simulates platform tm r (.allocating t size (.initStruct spot)))
    (hfacts : SoloFacts platform tm (.allocating t size (.initStruct spot)))
    (hmalloc : ∀ i, choice.mallocOk i = true) :
    (Thread.allocating t size (.initStruct spot)).Advances platform tm r
      (tmAllocStep tm choice t size (.initStruct spot)) := by
  obtain ⟨hcall, hpos, hsize, hdvd, -⟩ := h.serves
  have hspot : spot < vaSize := (hfacts.spot_lt h.alone rfl).trans (by decide)
  have hstep : tmAllocStep tm choice t size (.initStruct spot) =
      Move.op (.newSegment spot) (.allocating t size (.initData spot tm.segmentCount)) := by
    rw [tmAllocStep, if_pos hspot, if_pos (hmalloc 0)]
  refine ⟨_, _, hstep, ⟨hcall, hpos, hsize, hdvd, trivial⟩, ?_, Nat.lt_add_one _⟩
  exact h.shown.keep rfl (fun _ => id) rfl (fun x g seg _ hinst =>
    ⟨hinst.newSegment hfacts.table (hfacts.vacant spot rfl), fun k => rfl⟩) fun t' htx _ hmem =>
    ⟨t', htx, hmem⟩

/-- The segment that is filled was not finished. -/
theorem Simulates.initData {t : Tx V} {size spot : Nat} {s : SegId}
    (h : Simulates platform tm r (.allocating t size (.initData spot s)))
    (hfacts : SoloFacts platform tm (.allocating t size (.initData spot s)))
    (hmalloc : ∀ i, choice.mallocOk i = true) :
    (Thread.allocating t size (.initData spot s)).Advances platform tm r
      (tmAllocStep tm choice t size (.initData spot s)) := by
  obtain ⟨hcall, hpos, hsize, hdvd, -⟩ := h.serves
  obtain ⟨seg, hseg, hstate⟩ := hfacts.building s .raw rfl
  have halign : posixMemalign tm.align (choice.mallocOk 0) = true := by
    simp [posixMemalign, hmalloc, hfacts.align_dvd]
  have hstep : tmAllocStep tm choice t size (.initData spot s) =
      Move.op (.fillSegment s (toInt (size / tm.align : Nat)))
        (.allocating t size (.initLocks spot s)) := by
    simp only [tmAllocStep, if_pos halign]
  refine ⟨_, _, hstep, ⟨hcall, hpos, hsize, hdvd, ?_⟩, ?_, Nat.lt_add_one _⟩
  · have hfilled : ∀ n, ∃ seg', (tm.apply (.fillSegment s n)).segment s = some seg' ∧
        seg'.numWords = n := fun n =>
      ⟨{ seg with numWords := n, state := .filled },
        by simp [Tm.apply, Tm.setSegment, hseg], rfl⟩
    exact hfilled _
  · refine h.shown.keep rfl (fun _ => id) rfl (fun x g seg' _ hinst => ?_)
      fun t' htx _ hmem => ⟨t', htx, hmem⟩
    obtain ⟨hne, hinst'⟩ := hinst.setSegment hseg (by simp [hstate]) fun seg =>
      { seg with numWords := toInt (size / tm.align : Nat), state := .filled }
    refine ⟨hinst', fun k => ?_⟩
    simp [Tm.value, Tm.apply, hne]
    rfl

/-- The segment is finished, at a spot of its own. -/
theorem Simulates.initLocks {t : Tx V} {size spot : Nat} {s : SegId}
    (h : Simulates platform tm r (.allocating t size (.initLocks spot s)))
    (hfacts : SoloFacts platform tm (.allocating t size (.initLocks spot s)))
    (hmalloc : ∀ i, choice.mallocOk i = true) :
    (Thread.allocating t size (.initLocks spot s)).Advances platform tm r
      (tmAllocStep tm choice t size (.initLocks spot s)) := by
  obtain ⟨hcall, hpos, hsize, hdvd, hpc⟩ := h.serves
  obtain ⟨seg, hseg, hnum⟩ := hpc
  obtain ⟨seg', hseg', hunfinished⟩ := hfacts.building s .filled rfl
  obtain rfl : seg = seg' := Option.some.inj (hseg.symm.trans hseg')
  have hcount : 0 ≤ toInt (size / tm.align : Nat) := by
    rw [toInt_natCast ((Nat.div_le_self size tm.align).trans_lt hsize)]
    exact Int.natCast_nonneg _
  have hlocks : mallocLocks (toInt (size / tm.align : Nat)) (choice.mallocOk 0) = true := by
    simp only [mallocLocks, hmalloc, Bool.true_and, decide_eq_true_eq]
    exact hcount
  have hstep : tmAllocStep tm choice t size (.initLocks spot s) =
      Move.op (.readySegment s size)
        (.returning (.alloc (.success (vaFromIndex spot 0))) (some t)) := by
    simp only [tmAllocStep, if_pos hlocks]
  have hspot : tm.vaArr spot = .segment s := hfacts.facts _ rfl
  -- nothing else is known at the spot, whose segment was not finished before
  have hvacant : ∀ g seg', ¬ tm.InstalledAt spot g seg' := by
    rintro g seg' ⟨hspot', hseg', hready⟩
    obtain rfl : s = g := VaEntry.segment.inj (hspot.symm.trans hspot')
    obtain rfl : seg = seg' := Option.some.inj (hseg.symm.trans hseg')
    simp [hunfinished] at hready
  have hspotted : ¬ tm.Spotted spot := by
    rintro ⟨n, g, seg', hn, hinst⟩
    exact hvacant g seg' (Int.natCast_inj.mp hn ▸ hinst)
  have hunwritten : ∀ k, t.writes.lookup ⟨s, k⟩ = none := by
    intro k
    by_contra hsome
    obtain ⟨item, hmem, hword⟩ := List.mem_map.mp (wsWrites_keys ▸ lookup_ne_none_iff.mp hsome)
    have hvalid := hfacts.pointers rfl t ⟨s, k⟩ rfl (Or.inr ⟨item, hmem, Or.inr hword⟩)
    simp [Tm.valid, hseg, hunfinished] at hvalid
  refine ⟨_, _, hstep, ⟨size, spot, s, hcall, rfl, hfacts.spot_lt h.alone rfl, hsize, hdvd, ?_,
    fun k => ?_, fun b hb => ?_, fun hmem => ?_, fun hmem => ?_⟩, ?_, Nat.succ_pos _⟩
  · exact ⟨hspot, by simp [Tm.apply, Tm.setSegment, hseg, hnum], rfl⟩
  · rw [hunwritten k]
    exact hfacts.unopened ⟨s, k⟩ (Or.inr ⟨seg, hseg, Or.inr hunfinished⟩)
  · by_contra hlive
    obtain ⟨n, hn⟩ := Option.ne_none_iff_exists'.mp hlive
    obtain ⟨-, -, -, g, hinst, -⟩ := h.shown.memory spot b n hb hn
    exact hvacant g _ hinst
  · rcases hfacts.queued spot hmem with hmem | ⟨n, hn, hnull, -⟩
    · exact hspotted hmem
    · rw [← Int.natCast_inj.mp hn, hspot] at hnull
      cases hnull
  · exact hspotted (hfacts.own rfl t rfl spot hmem)
  · refine h.shown.keep rfl (fun _ => id) rfl (fun x g seg' _ hinst => ?_)
      fun t' htx _ hmem => ⟨t', htx, hmem⟩
    obtain ⟨-, hinst'⟩ := hinst.setSegment hseg (by simp [hunfinished]) fun seg =>
      { seg with size := size, state := .ready }
    exact ⟨hinst', fun k => rfl⟩

/-- **Every step of `tm_alloc`** succeeds. -/
theorem Simulates.allocating {t : Tx V} {size : Nat} {pc : AllocPc}
    (h : Simulates platform tm r (.allocating t size pc))
    (hfacts : SoloFacts platform tm (.allocating t size pc))
    (hmalloc : ∀ i, choice.mallocOk i = true) :
    (Thread.allocating t size pc).Advances platform tm r (tmAllocStep tm choice t size pc) := by
  obtain ⟨-, -, -, -, hpc⟩ := h.serves
  have hknown : pc.Facts tm := hfacts.facts pc rfl
  cases pc with
  | lock =>
      have hfree : tm.virtualMemoryLock = false := h.alone.mutex
      have hstep : tmAllocStep tm choice t size .lock =
          Move.op .lockVirtualMemory (.allocating t size .check) := by
        simp only [tmAllocStep, hfree, Bool.false_eq_true, if_false]
      exact h.allocated hstep rfl rfl rfl rfl rfl hpc (by decide)
  | check =>
      by_cases hempty : tm.emptySpots = none
      · have hstep : tmAllocStep tm choice t size .check =
            Move.op .loadEmptySpots (.allocating t size .counter) := by
          simp only [tmAllocStep, if_pos hempty]
        exact h.allocated hstep rfl rfl rfl rfl rfl (hpc hempty) (by decide)
      · have hstep : tmAllocStep tm choice t size .check =
            Move.op .loadEmptySpots (.allocating t size .popIndex) := by
          simp only [tmAllocStep, if_neg hempty]
        exact h.allocated hstep rfl rfl rfl rfl rfl hempty (by decide)
  | popIndex =>
      obtain ⟨n, hn⟩ := Option.ne_none_iff_exists'.mp hpc
      obtain ⟨spot, hspot⟩ := Option.ne_none_iff_exists'.mp (hfacts.head n hn)
      have hhead : headSpot tm = some spot := by rw [headSpot, hn]; exact hspot
      have hstep : tmAllocStep tm choice t size .popIndex =
          Move.op .loadEmptySpots (.allocating t size (.popTmp spot.index)) := by
        simp only [tmAllocStep, hhead]
      exact h.allocated hstep rfl rfl rfl rfl rfl trivial (Nat.lt_add_one _)
  | popTmp spot =>
      obtain ⟨n, c, hn, -, -⟩ := hknown
      have hstep : tmAllocStep tm choice t size (.popTmp spot) =
          Move.op .loadEmptySpots (.allocating t size (.popNext spot n)) := by
        simp only [tmAllocStep, hn]
      exact h.allocated hstep rfl rfl rfl rfl rfl trivial (Nat.lt_add_one _)
  | popNext spot tmp =>
      obtain ⟨hn, c, hc, -⟩ := hknown
      have hhead : headSpot tm = some c := by rw [headSpot, hn]; exact hc
      have hstep : tmAllocStep tm choice t size (.popNext spot tmp) =
          Move.op .loadEmptySpots (.allocating t size (.popStore spot tmp c.next)) := by
        simp only [tmAllocStep, hhead]
      exact h.allocated hstep rfl rfl rfl rfl rfl trivial (Nat.lt_add_one _)
  | popStore spot tmp next =>
      exact h.allocated rfl rfl rfl rfl rfl rfl trivial (Nat.lt_add_one _)
  | popFree spot tmp =>
      have hnode : ¬ tm.node tmp = none := hfacts.node tmp rfl
      have hstep : tmAllocStep tm choice t size (.popFree spot tmp) =
          Move.op (.freeNode tmp) (.allocating t size (.unlock spot)) := by
        simp only [tmAllocStep, if_neg hnode]
      exact h.allocated hstep rfl rfl rfl rfl rfl trivial (Nat.lt_add_one _)
  | counter => exact h.allocated rfl rfl rfl rfl rfl rfl trivial (Nat.lt_add_one _)
  | unlock spot => exact h.allocated rfl rfl rfl rfl rfl rfl trivial (Nat.lt_add_one _)
  | initStruct spot => exact h.initStruct hfacts hmalloc
  | initData spot s => exact h.initData hfacts hmalloc
  | initLocks spot s => exact h.initLocks hfacts hmalloc
  | pushNode | pushStore => exact hpc.elim

end TransactionalMemory
