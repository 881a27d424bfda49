import TransactionalMemory.Proof.SimulatedLifecycle

/-!
# Commits beside the reference

`tm_end` locks and writes what the client has seen all along, so memory changes and the words do
not. It draws the version after its snapshot and skips the validation, and the batch that it
destroys holds no segment that the reference still has.
-/

namespace TransactionalMemory

open Concurrency

variable {V : Type} [Zero V] {platform : Platform V} {tm : Tm V} {choice : Choice V}
  {thread' : Thread V} {r : Mirror V} {t : Tx V} {pc : EndPc}

/-- A step of `tm_end` that moves no segment and changes no word that the client sees. -/
theorem Simulates.ended {o : Op V} (h : Simulates platform tm r (.ending t pc))
    (hstep : tmEndStep platform tm choice t pc = Move.op o thread')
    (hvaArr : (tm.apply o).vaArr = tm.vaArr) (hsegment : (tm.apply o).segment = tm.segment)
    (hqueue : ∀ spot ∈ (tm.apply o).toFree, spot ∈ tm.toFree)
    (hvalue : ∀ w, (tm.apply o).value thread' w = tm.value (.ending t pc) w)
    (hreached : thread'.reached r = r.region)
    (hfrees : ∀ t', thread'.tx = some t' → t'.toFree = t.toFree)
    (hserves : thread'.Serves platform (tm.apply o) r)
    (hlt : thread'.remaining (tm.apply o) < (Thread.ending t pc).remaining tm) :
    (Thread.ending t pc).Advances platform tm r (tmEndStep platform tm choice t pc) := by
  refine ⟨o, thread', hstep, hserves, ?_, hlt⟩
  refine h.shown.keep (Tm.align_after tm (.op o)) hqueue hreached (fun spot g seg _ hinst => ?_)
    fun t' htx spot hmem => ⟨t, rfl, hfrees t' htx ▸ hmem⟩
  rw [Tm.InstalledAt, hvaArr, hsegment]
  exact ⟨hinst, fun k => hvalue _⟩

/-! ### Taking the locks -/

section Locks

variable {i : Nat} {item : WsItem V}

omit [Zero V] in
theorem Tx.keys_nodup (hwf : (Thread.ending t pc).Wf) (hnodup : (t.ws.map WsItem.rawAddr).Nodup) :
    t.locks.Nodup := by
  have hsame : t.ws.map WsItem.rawAddr = t.locks := List.map_congr_left (hwf.sameWord t rfl)
  rwa [← hsame]

omit [Zero V] in
/-- The next lock to take is not one of those taken. -/
theorem Tx.not_mem_taken (hnodup : t.locks.Nodup) (hi : t.ws[i]? = some item) :
    item.versionedLock ∉ t.locks.take i := by
  rw [← List.take_append_drop i t.locks, Tx.locks_drop hi, List.nodup_append] at hnodup
  exact fun hmem => hnodup.2.2 _ hmem _ List.mem_cons_self rfl

theorem SoloFacts.item_valid (hfacts : SoloFacts platform tm (.ending t pc))
    (hholds : (Thread.ending t pc).holds = true) (hi : t.ws[i]? = some item) :
    tm.valid item.versionedLock = true ∧ tm.valid item.rawAddr = true := by
  have hmem := List.mem_of_getElem? hi
  exact ⟨hfacts.pointers hholds t _ rfl (Or.inr ⟨item, hmem, Or.inl rfl⟩),
    hfacts.pointers hholds t _ rfl (Or.inr ⟨item, hmem, Or.inr rfl⟩)⟩

end Locks

/-- **`tm_end` up to its decision**: every lock is free and old, and the clock has not moved. -/
theorem Simulates.deciding (h : Simulates platform tm r (.ending t pc))
    (hfacts : SoloFacts platform tm (.ending t pc)) (hpc : pc.deciding = true) :
    (Thread.ending t pc).Advances platform tm r (tmEndStep platform tm choice t pc) := by
  obtain ⟨hcall, hserves⟩ := h.serves
  have hfrees : ∀ t', (some t : Option (Tx V)) = some t' → t'.toFree = t.toFree := by
    rintro t' ⟨⟩
    rfl
  have hkeys : t.isRo = false → (t.ws.map WsItem.rawAddr).Nodup := by
    intro hrw
    obtain ⟨view, hbuffers⟩ := hfacts.buffers t (by rw [Thread.buffered, if_pos hpc]) hrw
    exact hbuffers.nodup
  cases pc with
  | start =>
      by_cases hempty : (t.isRo || t.ws.isEmpty) = true
      · have hws : t.ws = [] := by
          rcases Bool.or_eq_true_iff.mp hempty with hro | hws
          · exact h.alone.readOnly t rfl hro
          · exact List.isEmpty_iff.mp hws
        have hstep : tmEndStep platform tm choice t .start =
            Move.op .rdunlock (.returning (.finish true) none) := by
          simp only [tmEndStep, if_pos hempty]
        refine h.ended hstep rfl rfl (fun _ => id) (fun w => ?_) rfl (by rintro t' ⟨⟩)
          ⟨_, hcall⟩ (Nat.succ_pos _)
        simp [Tm.value, Thread.pending, EndPc.copied, Tx.writes, hws]
        rfl
      · have hrw : t.isRo = false := by simp_all
        let ws := platform.qsort wsItemCmp t.ws
        have hperm : ws.Perm t.ws := platform.qsort_perm _ _
        have hstep : tmEndStep platform tm choice t .start =
            Move.op .tau (.ending { t with ws := ws } (.tryLoad 0)) := by
          simp only [tmEndStep, if_neg hempty, ws]
        refine h.ended hstep rfl rfl (fun _ => id) (fun w => ?_) rfl ?_ ⟨hcall, hserves⟩ ?_
        · have hlookup := congrFun (lookup_wsWrites_perm (hkeys hrw) hperm) w
          exact congrArg (fun x : Option V => x.getD _) hlookup
        · rintro t' ⟨⟩
          rfl
        · simp only [Thread.remaining, EndPc.remaining, hperm.length_eq, Tm.apply]
          omega
  | tryLoad i =>
      cases hi : t.ws[i]? with
      | none =>
          have hstep : tmEndStep platform tm choice t (.tryLoad i) =
              Move.op .tau (.ending t .fetchAdd) := by
            simp only [tmEndStep, hi]
          refine h.ended hstep rfl rfl (fun _ => id) (fun _ => rfl) rfl hfrees ⟨hcall, hserves⟩ ?_
          simp only [Thread.remaining, EndPc.remaining, Tm.apply]
          omega
      | some item =>
          have hlocks := Tx.keys_nodup hfacts.wf (hkeys hfacts.mode)
          obtain ⟨hvalid, -⟩ := hfacts.item_valid rfl hi
          obtain ⟨v, hlock, hle⟩ := hfacts.lock item.versionedLock (Tx.not_mem_taken hlocks hi)
          have hrv : t.rv = tm.globalVersion := h.alone.current t rfl rfl
          have hpass : ¬ vlTryLockRefuses (tm.lock item.versionedLock) t.rv = true := by
            rw [vlTryLockRefuses, hlock, vlLocked_lockWord, lockWord_div, hrv]
            simpa using hle
          have hstep : tmEndStep platform tm choice t (.tryLoad i) =
              Move.op (.loadLock item.versionedLock (tm.lock item.versionedLock))
                (.ending t (.tryCas i (tm.lock item.versionedLock))) := by
            simp only [tmEndStep, hi, if_pos hvalid, if_neg hpass]
          refine h.ended hstep rfl rfl (fun _ => id) (fun _ => rfl) rfl hfrees
            ⟨hcall, hserves, item, hi, rfl⟩ ?_
          simp only [Thread.remaining, EndPc.remaining, Tm.apply]
          omega
  | tryCas i prev =>
      obtain ⟨hversion, item, hi, hprev⟩ := hserves
      obtain ⟨hvalid, -⟩ := hfacts.item_valid rfl hi
      obtain ⟨hlt, -⟩ := List.getElem?_eq_some_iff.mp hi
      have hstep : tmEndStep platform tm choice t (.tryCas i prev) =
          Move.op (.casLock item.versionedLock prev true) (.ending t (.tryLoad (i + 1))) := by
        simp only [tmEndStep, hi, if_pos hvalid, if_pos hprev]
      refine h.ended hstep rfl rfl (fun _ => id) (fun _ => rfl) rfl hfrees ⟨hcall, hversion⟩ ?_
      simp only [Thread.remaining, EndPc.remaining, Tm.apply]
      omega
  | fetchAdd =>
      have hversion : tm.globalVersion + 1 < 2 ^ 30 := hserves
      have hclock := hfacts.clock_nonneg
      have hchecked : checkedInt (tm.globalVersion + 1) = some (tm.globalVersion + 1) :=
        if_pos ⟨by omega, by omega⟩
      have hskip : t.rv + 1 = tm.globalVersion + 1 := by rw [h.alone.current t rfl rfl]
      have hstep : tmEndStep platform tm choice t .fetchAdd =
          Move.op (.fetchAddClock tm.globalVersion)
            (.ending t (.validated (tm.globalVersion + 1))) := by
        simp only [tmEndStep, hchecked, if_pos hskip]
      refine h.ended hstep rfl rfl (fun _ => id) (fun _ => rfl) rfl hfrees ⟨hcall, trivial⟩ ?_
      simp only [Thread.remaining, EndPc.remaining, Tm.apply]
      omega
  | validated wv =>
      refine h.ended rfl rfl rfl (fun _ => id) (fun _ => rfl) rfl hfrees
        ⟨hcall, fun j item hj => absurd hj (Nat.not_lt_zero j)⟩ ?_
      simp only [Thread.remaining, EndPc.remaining, Tm.apply]
      omega
  | validate => exact hserves.elim
  | _ => cases hpc

/-! ### Writing back -/

/-- **Writing back** leaves every word as the client sees it, before and after it is in memory. -/
theorem Simulates.committing (h : Simulates platform tm r (.ending t pc))
    (hfacts : SoloFacts platform tm (.ending t pc)) {wv : Int} {written : Option Word}
    (hstage : pc.stage t = .committed wv t.writes written) :
    (Thread.ending t pc).Advances platform tm r (tmEndStep platform tm choice t pc) := by
  obtain ⟨hcall, hserves⟩ := h.serves
  have hfrees : ∀ t', (some t : Option (Tx V)) = some t' → t'.toFree = t.toFree := by
    rintro t' ⟨⟩
    rfl
  have hnodup : (t.writes.map Prod.fst).Nodup := hfacts.committed wv t.writes written hstage
  have hkeys : t.writes.map Prod.fst = t.ws.map WsItem.rawAddr := wsWrites_keys
  cases pc with
  | copy wv i =>
      cases hi : t.ws[i]? with
      | none =>
          let pc' : EndPc := if t.toFree.isEmpty then .unlockCleanup else .lockToFree
          have hstep : tmEndStep platform tm choice t (.copy wv i) =
              Move.op .tau (.ending t pc') := by
            simp only [tmEndStep, hi, pc']
          have hcopied : pc'.copied = true := by
            simp only [pc']
            split <;> rfl
          refine h.ended hstep rfl rfl (fun _ => id) (fun w => ?_) rfl hfrees ⟨hcall, ?_⟩ ?_
          · simp only [Tm.value, Thread.pending, hcopied, if_true, List.lookup_nil,
              Option.getD_none]
            cases hlookup : t.writes.lookup w with
            | none => simp [EndPc.copied, hlookup, Tm.apply]
            | some x =>
                obtain ⟨before, after, hsplit, -⟩ := List.lookup_eq_some_iff.mp hlookup
                have hmem : (w, x) ∈ t.writes := by simp [hsplit]
                obtain ⟨item, hitem, heq⟩ := List.mem_map.mp hmem
                obtain ⟨j, hj⟩ := List.getElem?_of_mem hitem
                have hlt : j < i := (List.getElem?_eq_some_iff.mp hj).1.trans_le
                  (List.getElem?_eq_none_iff.mp hi)
                have hdata := hserves j item hlt hj
                obtain ⟨rfl, rfl⟩ := Prod.mk.inj heq
                simp [EndPc.copied, hlookup, Tm.apply, hdata]
          · simp only [pc']
            split <;> trivial
          · simp only [Thread.remaining, pc', Tm.apply]
            split
            · simp only [EndPc.remaining]
              omega
            · simp only [EndPc.remaining]
              omega
      | some item =>
          obtain ⟨-, hvalid⟩ := hfacts.item_valid rfl hi
          obtain ⟨hlt, -⟩ := List.getElem?_eq_some_iff.mp hi
          have hstep : tmEndStep platform tm choice t (.copy wv i) =
              Move.op (.copyIn item.rawAddr item.value) (.ending t (.release wv i)) := by
            simp only [tmEndStep, hi, if_pos hvalid]
          have hlookup : t.writes.lookup item.rawAddr = some item.value :=
            lookup_eq_of_mem hnodup (List.mem_map_of_mem (List.mem_of_getElem? hi))
          refine h.ended hstep rfl rfl (fun _ => id) (fun w => ?_) rfl hfrees
            ⟨hcall, hlt, fun j item' hj hitem => ?_⟩ ?_
          · change (t.writes.lookup w).getD (Function.update tm.data item.rawAddr item.value w) =
              (t.writes.lookup w).getD (tm.data w)
            by_cases hw : w = item.rawAddr
            · rw [hw, hlookup]
              rfl
            · rw [Function.update_of_ne hw]
          · change Function.update tm.data item.rawAddr item.value item'.rawAddr = item'.value
            by_cases hw : item'.rawAddr = item.rawAddr
            · have hlookup' : t.writes.lookup item'.rawAddr = some item'.value :=
                lookup_eq_of_mem hnodup (List.mem_map_of_mem (List.mem_of_getElem? hitem))
              rw [hw, hlookup] at hlookup'
              rw [hw, Function.update_self]
              exact Option.some.inj hlookup'
            · have hlt' : j < i := by
                refine lt_of_le_of_ne hj ?_
                rintro rfl
                obtain rfl := Option.some.inj (hi.symm.trans hitem)
                exact hw rfl
              rw [Function.update_of_ne hw]
              exact hserves j item' hlt' hitem
          · simp only [Thread.remaining, EndPc.remaining, Tm.apply]
            omega
  | release wv i =>
      obtain ⟨hlt, hcopied⟩ := hserves
      have hi : t.ws[i]? = some t.ws[i] := List.getElem?_eq_getElem hlt
      obtain ⟨hvalid, -⟩ := hfacts.item_valid rfl hi
      have hstep : tmEndStep platform tm choice t (.release wv i) =
          Move.op (.storeLock t.ws[i].versionedLock (vlUnlockUpdate wv))
            (.ending t (.copy wv (i + 1))) := by
        simp only [tmEndStep, hi, if_pos hvalid]
      refine h.ended hstep rfl rfl (fun _ => id) (fun _ => rfl) rfl hfrees
        ⟨hcall, fun j item hj hitem => hcopied j item (Nat.le_of_lt_succ hj) hitem⟩ ?_
      simp only [Thread.remaining, EndPc.remaining, Tm.apply]
      omega
  | _ => cases hstage

/-! ### The queue of frees -/

/-- One more free of the transaction is queued, of no segment that the reference still has. -/
theorem Simulates.pushing {i : Nat} (h : Simulates platform tm r (.ending t (.push i)))
    (hmalloc : ∀ i, choice.mallocOk i = true) :
    (Thread.ending t (.push i)).Advances platform tm r
      (tmEndStep platform tm choice t (.push i)) := by
  obtain ⟨hcall, -⟩ := h.serves
  obtain ⟨hroom, hsz, hnull⟩ := h.alone.queue
  have hfrees : ∀ t', (some t : Option (Tx V)) = some t' → t'.toFree = t.toFree := by
    rintro t' ⟨⟩
    rfl
  cases hi : t.toFree[i]? with
  | none =>
      have hstep : tmEndStep platform tm choice t (.push i) =
          Move.op .unlockToFree (.ending t .unlockCleanup) := by
        simp only [tmEndStep, hi]
      refine h.ended hstep rfl rfl (fun _ => id) (fun _ => rfl) rfl hfrees ⟨hcall, trivial⟩ ?_
      simp only [Thread.remaining, EndPc.remaining, Tm.apply]
      omega
  | some spot =>
      let full : Bool := decide (tm.toFreeSz ≤ (tm.toFree.length : Int) + 1)
      let capacity := if full then resize tm.toFreeSz else tm.toFreeSz
      have hcapacity : (tm.toFree.length : Int) < capacity := by
        have hresize := lt_resize hsz
        simp only [capacity]
        split <;> omega
      have hstep : tmEndStep platform tm choice t (.push i) =
          Move.op (.pushToFree spot capacity) (.ending t (.push (i + 1))) := by
        simp only [tmEndStep, hi, hmalloc, hnull, Bool.not_true, Bool.and_false,
          Bool.false_and, Bool.false_eq_true, if_false]
        exact if_pos hcapacity
      obtain ⟨hlt, -⟩ := List.getElem?_eq_some_iff.mp hi
      refine ⟨_, _, hstep, ⟨hcall, trivial⟩,
        ⟨h.shown.align, fun x b n hb hn => ?_, fun x b hb hn => ?_⟩, ?_⟩
      · obtain ⟨hspot, hsize, haligned, hseg⟩ := h.shown.memory x b n hb hn
        exact ⟨hspot, hsize, haligned, hseg⟩
      · obtain ⟨hqueued, hown⟩ := h.shown.unfreed x b hb hn
        have hunfreed : (x : Int) ∉ t.toFree := fun hmem => by
          rw [hcall] at hown
          cases hown t rfl hmem
        refine ⟨fun hmem => ?_, fun t' htx hmem => ?_⟩
        · rcases List.mem_append.mp hmem with hmem | hmem
          · exact hqueued hmem
          · exact hunfreed (List.mem_singleton.mp hmem ▸ List.mem_of_getElem? hi)
        · exact absurd (hfrees t' htx ▸ hmem) hunfreed
      · simp only [Thread.remaining, EndPc.remaining, Tm.apply, List.length_append,
          List.length_singleton]
        omega

/-- One more segment of the batch is destroyed, none that the reference still has. -/
theorem Simulates.draining {i : Nat} (h : Simulates platform tm r (.ending t (.drain i)))
    (hfacts : SoloFacts platform tm (.ending t (.drain i)))
    (hmalloc : ∀ i, choice.mallocOk i = true) :
    (Thread.ending t (.drain i)).Advances platform tm r
      (tmEndStep platform tm choice t (.drain i)) := by
  obtain ⟨hcall, -⟩ := h.serves
  have hfrees : ∀ t', (some t : Option (Tx V)) = some t' → t'.toFree = t.toFree := by
    rintro t' ⟨⟩
    rfl
  cases hi : tm.toFree[i]? with
  | none =>
      have hstep : tmEndStep platform tm choice t (.drain i) =
          Move.op .resetToFree (.ending t .wrunlock) := by
        simp only [tmEndStep, hi]
      refine h.ended hstep rfl rfl (fun spot hmem => absurd hmem List.not_mem_nil)
        (fun _ => rfl) rfl hfrees ⟨hcall, trivial⟩ ?_
      simp only [Thread.remaining, EndPc.remaining]
      omega
  | some spot =>
      have hmem : spot ∈ tm.toFree := List.mem_of_getElem? hi
      obtain ⟨hlt, -⟩ := List.getElem?_eq_some_iff.mp hi
      have hstep : tmEndStep platform tm choice t (.drain i) =
          Move.op (.deleteSegment spot) (.ending t (.drain (i + 1))) := by
        rcases hfacts.queued spot hmem with
          ⟨n, g, ⟨size, numWords, state⟩, rfl, hspot, hseg, rfl⟩ | ⟨n, rfl, hnull, -⟩
        · have hnat : (n : Int).toNat = n := Int.toNat_natCast n
          simp only [tmEndStep, hi, hmalloc, if_true, hnat, hspot, hseg]
          exact if_neg (by omega)
        · have hnat : (n : Int).toNat = n := Int.toNat_natCast n
          simp only [tmEndStep, hi, hnat, hnull]
          exact if_neg (by omega)
      obtain ⟨-, hqueue, -⟩ := tm.deleteSegment_queue spot
      obtain ⟨-, hdata, -⟩ := tm.deleteSegment_words spot
      have hnonneg : 0 ≤ spot := by
        rcases hfacts.queued spot hmem with ⟨n, -, -, rfl, -⟩ | ⟨n, rfl, -⟩ <;>
          exact Int.natCast_nonneg n
      refine ⟨_, _, hstep, ⟨hcall, trivial⟩, ?_, ?_⟩
      · refine h.shown.keep (Tm.align_after tm (.op (.deleteSegment spot)))
          (fun _ => by simp only [Tm.apply, hqueue]; exact id) rfl
          (fun x g seg hunqueued hinst => ⟨?_, fun k => ?_⟩)
          fun t' htx spot hmem => ⟨t, rfl, hfrees t' htx ▸ hmem⟩
        · refine hinst.deleteSegment hfacts.table ?_
          rintro rfl
          exact hunqueued ((Int.toNat_of_nonneg hnonneg).symm ▸ hmem)
        · simp only [Tm.value, Tm.apply, hdata]
          rfl
      · simp only [Thread.remaining, EndPc.remaining, Tm.apply, hqueue]
        omega

/-- **After the commit** the frees are queued, and a full batch is destroyed. -/
theorem Simulates.cleaning (h : Simulates platform tm r (.ending t pc))
    (hfacts : SoloFacts platform tm (.ending t pc)) (hmalloc : ∀ i, choice.mallocOk i = true)
    (hlate : pc.copied = true) :
    (Thread.ending t pc).Advances platform tm r (tmEndStep platform tm choice t pc) := by
  obtain ⟨hcall, -⟩ := h.serves
  have hfrees : ∀ t', (some t : Option (Tx V)) = some t' → t'.toFree = t.toFree := by
    rintro t' ⟨⟩
    rfl
  cases pc with
  | lockToFree =>
      have hfree : tm.toFreeLock = false := h.alone.pushing
      have hstep : tmEndStep platform tm choice t .lockToFree =
          Move.op .lockToFree (.ending t (.push 0)) := by
        simp only [tmEndStep, hfree, Bool.false_eq_true, if_false]
      refine h.ended hstep rfl rfl (fun _ => id) (fun _ => rfl) rfl hfrees ⟨hcall, trivial⟩ ?_
      exact Nat.lt_add_one _
  | push i => exact h.pushing hmalloc
  | unlockCleanup =>
      exact h.ended rfl rfl rfl (fun _ => id) (fun _ => rfl) rfl hfrees ⟨hcall, trivial⟩
        (Nat.lt_add_one _)
  | checkBatch =>
      by_cases hbatch : freeBatchsize ≤ tm.toFree.length
      · have hstep : tmEndStep platform tm choice t .checkBatch =
            Move.op .loadToFreeN (.ending t .wrlock) := by
          simp only [tmEndStep, if_pos hbatch]
        exact h.ended hstep rfl rfl (fun _ => id) (fun _ => rfl) rfl hfrees ⟨hcall, trivial⟩
          (Nat.lt_add_one _)
      · have hstep : tmEndStep platform tm choice t .checkBatch =
            Move.op .loadToFreeN (.returning (.finish true) none) := by
          simp only [tmEndStep, if_neg hbatch]
        exact h.ended hstep rfl rfl (fun _ => id) (fun _ => rfl) rfl (by rintro t' ⟨⟩) ⟨_, hcall⟩
          (Nat.succ_pos _)
  | wrlock =>
      have hwriter : tm.writer = false := h.alone.writer
      have hreaders : tm.readers = 0 := h.alone.readers
      have hstep : tmEndStep platform tm choice t .wrlock =
          Move.op .wrlock (.ending t (.drain 0)) := by
        simp only [tmEndStep, hwriter, hreaders]
        rfl
      exact h.ended hstep rfl rfl (fun _ => id) (fun _ => rfl) rfl hfrees ⟨hcall, trivial⟩
        (Nat.lt_add_one _)
  | drain i => exact h.draining hfacts hmalloc
  | wrunlock =>
      exact h.ended rfl rfl rfl (fun _ => id) (fun _ => rfl) rfl (by rintro t' ⟨⟩) ⟨_, hcall⟩
        (Nat.succ_pos _)
  | _ => cases hlate

/-- **Every step of `tm_end`** leads on to its answer. -/
theorem Simulates.ending (h : Simulates platform tm r (.ending t pc))
    (hfacts : SoloFacts platform tm (.ending t pc)) (hmalloc : ∀ i, choice.mallocOk i = true) :
    (Thread.ending t pc).Advances platform tm r (tmEndStep platform tm choice t pc) := by
  have hserves := h.serves.2
  cases pc with
  | start | tryLoad | tryCas | fetchAdd | validated => exact h.deciding hfacts rfl
  | copy | release => exact h.committing hfacts rfl
  | rollback | validate | undo => exact hserves.elim
  | lockToFree | push | unlockCleanup | checkBatch | wrlock | drain | wrunlock =>
      exact h.cleaning hfacts hmalloc rfl

end TransactionalMemory
