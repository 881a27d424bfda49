import TransactionalMemory.Proof.FreeList
import TransactionalMemory.Proof.OpenTx

/-!
# Installed segments

A finished segment stays at its spot, with its arrays, through every step that is taken while some
thread has a read hold: only a batch deletion takes it away, and a `tm_alloc` starts new segments
only at spots without one. Under a transaction's hold everything its sets point to stays installed.
-/

namespace TransactionalMemory

open Concurrency

variable {V Tid : Type}

def Tm.InstalledAt (tm : Tm V) (spot : Nat) (g : SegId) (seg : Segment) : Prop :=
  tm.vaArr spot = .segment g ∧ tm.segment g = some seg ∧ seg.state = .ready

def Tm.Installed (tm : Tm V) (g : SegId) : Prop := ∃ spot seg, tm.InstalledAt spot g seg

/-- No allocation fails, neither those of a fixed size nor those of a segment's arrays. -/
def NoFailure (_ : State Tid V) (l : Label Tid V) : Prop :=
  (∀ i, l.choice.mallocOk i = true) ∧
    ∀ g, l.event ≠ .op (.failData g) ∧ l.event ≠ .op (.failLocks g)

/-- Every segment that is started gets its data and its locks: once it has its struct,
`segment_init` does not fail. -/
def SegmentsBuilt (_ : State Tid V) (l : Label Tid V) : Prop :=
  ∀ g, l.event ≠ .op (.failData g) ∧ l.event ≠ .op (.failLocks g)

section Steps

variable [Zero V] [DecidableEq Tid] {platform : Platform V} {s s' : State Tid V} {l : Label Tid V}

/-- A step leaves every finished segment as it is, but for the one it deletes. -/
theorem segment_or_deleted (hsegments : SegmentsInv s) (hstep : (system Tid platform).step s l s')
    {g : SegId} {seg : Segment} (hseg : s.tm.segment g = some seg) (hready : seg.state = .ready) :
    s'.tm.segment g = some seg ∨ (s.thread l.tid).drains = true ∧ s'.tm.segment g = none := by
  obtain ⟨hmove, htm, -⟩ := system_step_move hstep
  -- a segment under construction is another one
  have hbuilt : ∀ {g' : SegId} {state : SegState} {f : Segment → Segment},
      (s.thread l.tid).building = some (g', state) →
      s'.tm.segment = Function.update s.tm.segment g' ((s.tm.segment g').map f) →
      s'.tm.segment g = some seg := by
    intro g' state f hbuilding hsegment
    have hne : g ≠ g' := by
      rintro rfl
      obtain ⟨seg', hseg', hstate⟩ := hsegments.building l.tid g state hbuilding
      obtain rfl : seg = seg' := by simpa [hseg] using hseg'
      exact (s.thread l.tid).building_ne_ready g ((hstate.symm.trans hready) ▸ hbuilding)
    rw [hsegment, Function.update_of_ne hne, hseg]
  cases hmove.spotMove with
  | quiet hlock hhead hnode hvaN hvaArr hsegment hbefore hafter =>
      rw [← htm] at hsegment
      exact Or.inl (by rw [hsegment, hseg])
  | @alloc t size pc hbefore hmove =>
      left
      generalize l.event = event, s'.thread l.tid = thread' at hmove htm
      cases hmove with
      | initStruct =>
          have hlt : g ≠ s.tm.segmentCount := by
            rintro rfl
            simp [hsegments.fresh _ le_rfl] at hseg
          simp [htm, Tm.after, Tm.apply, hlt, hseg]
      | initData =>
          exact hbuilt (f := fun seg => { seg with numWords := _, state := .filled })
            (by rw [hbefore]; rfl) (by rw [htm]; rfl)
      | initLocks =>
          exact hbuilt (f := fun seg => { seg with size := _, state := .ready })
            (by rw [hbefore]; rfl) (by rw [htm]; rfl)
      | noData | noLocks =>
          exact hbuilt (f := fun seg => { seg with state := .broken })
            (by rw [hbefore]; rfl) (by rw [htm]; rfl)
      | _ => rw [htm]; exact hseg
  | @deleted x g' seg' hevent hdrains hafter hspot' =>
      have hsegment : s'.tm.segment = Function.update s.tm.segment g' none := by
        rw [htm, hevent]
        simp [Tm.after, Tm.apply, Tm.deleteSegment, hspot']
      by_cases heq : g = g'
      · exact Or.inr ⟨hdrains, by simp [hsegment, heq]⟩
      · exact Or.inl (by simp [hsegment, heq, hseg])

/-- Under a hold no finished segment changes. -/
theorem segment_kept (hreach : (system Tid platform).Reachable s)
    (hstep : (system Tid platform).step s l s') {tid : Tid} (hheld : (s.thread tid).holds = true)
    {g : SegId} {seg : Segment} (hseg : s.tm.segment g = some seg) (hready : seg.state = .ready) :
    s'.tm.segment g = some seg := by
  obtain ⟨holders, lost, hholds⟩ := holdsInv hreach
  rcases segment_or_deleted (segmentsInv hreach) hstep hseg hready with hkept | ⟨hdrains, -⟩
  · exact hkept
  · have := hholds.not_holds_of_drains hdrains tid
    simp [this] at hheld

/-- A step leaves every installed segment where it is and as it is, but for the one it deletes. -/
theorem SpotsInv.installed_or_deleted {cells : List (NodeId × EmptySpot)} (h : SpotsInv s cells)
    (hsegments : SegmentsInv s) (hstep : (system Tid platform).step s l s')
    {spot : Nat} {g : SegId} {seg : Segment} (hinst : s.tm.InstalledAt spot g seg) :
    s'.tm.InstalledAt spot g seg ∨ (s.thread l.tid).drains = true ∧ s'.tm.segment g = none := by
  obtain ⟨hmove, htm, -⟩ := system_step_move hstep
  obtain ⟨hspot, hseg, hready⟩ := hinst
  refine (segment_or_deleted hsegments hstep hseg hready).imp_left fun hkept => ⟨?_, hkept, hready⟩
  cases hmove.spotMove with
  | quiet hlock hhead hnode hvaN hvaArr hsegment hbefore hafter =>
      rw [← htm] at hvaArr
      rw [hvaArr, hspot]
  | @alloc t size pc hbefore hmove =>
      generalize l.event = event, s'.thread l.tid = thread' at hmove htm
      cases hmove with
      | @initStruct x _ | @noStruct x =>
          have hclaim : (s.thread l.tid).claim = some x := SpotsInv.claim_eq hbefore
          have hne : spot ≠ x := by
            rintro rfl
            exact h.circulation.claim_unused l.tid spot hclaim ⟨g, seg, hspot, hseg, hready⟩
          simp [htm, Tm.after, Tm.apply, hne, hspot]
      | _ => rw [htm]; exact hspot
  | @deleted x g' seg' hevent hdrains hafter hspot' =>
      have hdelete : s'.tm.segment = Function.update s.tm.segment g' none ∧
          s'.tm.vaArr = Function.update s.tm.vaArr x.toNat .null := by
        rw [htm, hevent]
        simp [Tm.after, Tm.apply, Tm.deleteSegment, hspot']
      have hne : spot ≠ x.toNat := by
        rintro rfl
        obtain rfl : g' = g := by simpa [hspot] using hspot'.symm
        simp [hdelete.1] at hkept
      simp [hdelete.2, hne, hspot]

/-- **One step under a hold** leaves every installed segment where it is and as it is. -/
theorem SpotsInv.installed_step {cells : List (NodeId × EmptySpot)} {holders : Finset Tid}
    {lost : Nat} (h : SpotsInv s cells) (hsegments : SegmentsInv s)
    (hholds : HoldsInv s holders lost) (hstep : (system Tid platform).step s l s') {tid : Tid}
    (hheld : (s.thread tid).holds = true) {spot : Nat} {g : SegId} {seg : Segment}
    (hinst : s.tm.InstalledAt spot g seg) : s'.tm.InstalledAt spot g seg := by
  rcases h.installed_or_deleted hsegments hstep hinst with hinst' | ⟨hdrains, -⟩
  · exact hinst'
  · have := hholds.not_holds_of_drains hdrains tid
    simp [this] at hheld

omit [Zero V] [DecidableEq Tid] in
theorem Tm.setSegment_gone {tm : Tm V} {g g' : SegId} {f : Segment → Segment}
    (h : tm.segment g = none) : (tm.setSegment g' f).segment g = none := by
  simp only [Tm.setSegment, Function.update_apply]
  split
  · rename_i heq
    rw [← heq, h]
    rfl
  · exact h

/-- Names of segments are never handed out again. -/
theorem segmentCount_le (hstep : (system Tid platform).step s l s') :
    s.tm.segmentCount ≤ s'.tm.segmentCount := by
  obtain ⟨hmove, htm, -⟩ := system_step_move hstep
  rw [htm]
  cases hmove.segmentMove with
  | quiet hbuilding hsegment hcount => exact hcount.ge
  | started hevent => exact hevent ▸ Nat.le_succ _
  | filled hevent | readied hevent => exact hevent ▸ Nat.le_refl _
  | failed hevent => rcases hevent with hevent | hevent <;> exact hevent ▸ Nat.le_refl _
  | deleted hevent =>
      rw [hevent]
      simp only [Tm.after, Tm.apply, Tm.deleteSegment]
      split <;> exact Nat.le_refl _

theorem segment_gone (hstep : (system Tid platform).step s l s') {g : SegId}
    (hlt : g < s.tm.segmentCount) (hgone : s.tm.segment g = none) : s'.tm.segment g = none := by
  obtain ⟨hmove, htm, -⟩ := system_step_move hstep
  rw [htm]
  cases hmove.segmentMove with
  | quiet hbuilding hsegment hcount => rw [hsegment, hgone]
  | started hevent =>
      have hne : g ≠ s.tm.segmentCount := hlt.ne
      simp [hevent, Tm.after, Tm.apply, hne, hgone]
  | filled hevent | readied hevent => exact hevent ▸ Tm.setSegment_gone hgone
  | failed hevent => rcases hevent with hevent | hevent <;> exact hevent ▸ Tm.setSegment_gone hgone
  | deleted hevent =>
      rw [hevent]
      simp only [Tm.after, Tm.apply, Tm.deleteSegment]
      split
      · simp only [Function.update_apply]
        split
        · rfl
        · exact hgone
      · exact hgone

end Steps

/-! ### What the sets point to -/

def Tx.Points (t : Tx V) (w : Word) : Prop :=
  (∃ rs item, t.rs = some rs ∧ item ∈ rs ∧ item.versionedLock = some w) ∨
    ∃ item ∈ t.ws, item.versionedLock = w ∨ item.rawAddr = w

def Thread.seg : Thread V → Option SegId
  | .reading _ c _ => some c.seg
  | .roReading _ c _ => some c.seg
  | .writing _ c _ => some c.seg
  | _ => none

def Tm.InstalledWord (tm : Tm V) (w : Word) : Prop := tm.valid w = true ∧ tm.Installed w.seg

theorem Tm.installed_of_range {tm : Tm V} {addr : Addr} {size : Nat} {g : SegId}
    (h : tm.range addr size = some g) : tm.Installed g := by
  unfold Tm.range at h
  split at h
  · rename_i g' hspot
    split at h
    · rename_i seg hseg
      split at h
      · rename_i hrange
        obtain rfl := Option.some.inj h
        exact ⟨_, seg, hspot, hseg, hrange.1⟩
      · cases h
    · cases h
  · cases h

theorem Tm.wordAt_eq_some {tm : Tm V} {g : SegId} {k : Int} {w : Word}
    (h : tm.wordAt g k = some w) : 0 ≤ k ∧ tm.valid w = true ∧ w = ⟨g, k.toNat⟩ := by
  unfold Tm.wordAt at h
  split at h
  · rename_i hword
    obtain rfl := Option.some.inj h
    exact ⟨hword.1, hword.2, rfl⟩
  · cases h

theorem Tx.mem_eraseLock {rs : List RsItem} {lock w : Word} {item : RsItem}
    (h : item ∈ Tx.eraseLock rs lock) (hw : item.versionedLock = some w) :
    ∃ item ∈ rs, item.versionedLock = some w := by
  induction rs with
  | nil => simp [Tx.eraseLock] at h
  | cons head rs ih =>
      rw [Tx.eraseLock] at h
      split at h
      · rcases List.mem_cons.mp h with rfl | h
        · cases hw
        · exact ⟨item, List.mem_cons_of_mem _ h, hw⟩
      · rcases List.mem_cons.mp h with rfl | h
        · exact ⟨item, List.mem_cons_self, hw⟩
        · obtain ⟨item', hmem, hw'⟩ := ih h
          exact ⟨item', List.mem_cons_of_mem _ hmem, hw'⟩

theorem Tx.points_addToReadset {t t' : Tx V} {w x : Word} {versionRead : Int} {reallocOk ok : Bool}
    (h : t.addToReadset w versionRead reallocOk = .next (ok, t')) (hx : t'.Points x) :
    t.Points x ∨ x = w := by
  obtain ⟨rs, hrs, ⟨-, rfl, -⟩ | ⟨-, -, sz, rfl⟩ | ⟨-, -, sz, rfl⟩⟩ := Tx.addToReadset_cases h
  · exact Or.inl hx
  · rcases hx with ⟨_, _, hnone, -⟩ | hws
    · cases hnone
    · exact Or.inl (Or.inr hws)
  · rcases hx with ⟨rs', item, hrs', hmem, hlock⟩ | hws
    · obtain rfl := Option.some.inj hrs'
      rcases List.mem_append.mp hmem with hmem | hmem
      · exact Or.inl (Or.inl ⟨rs, item, hrs, hmem, hlock⟩)
      · obtain rfl := List.mem_singleton.mp hmem
        exact Or.inr (Option.some.inj hlock).symm
    · exact Or.inl (Or.inr hws)

theorem Tx.points_append {t t' : Tx V} {bit : Int → BitVec 64} {addr : Addr} {v : V} {w x : Word}
    {reallocOk mallocOk : Bool} (h : t.append bit addr v w reallocOk mallocOk = .next (some t'))
    (hx : t'.Points x) : t.Points x ∨ x = w := by
  obtain ⟨rs, sz, hrs, rfl⟩ := Tx.append_eq h
  rcases hx with ⟨rs', item, hrs', hmem, hlock⟩ | ⟨item, hmem, hitem⟩
  · obtain rfl := Option.some.inj hrs'
    obtain ⟨item', hmem', hlock'⟩ := Tx.mem_eraseLock hmem hlock
    exact Or.inl (Or.inl ⟨rs, item', hrs, hmem', hlock'⟩)
  · rcases List.mem_append.mp hmem with hmem | hmem
    · exact Or.inl (Or.inr ⟨item, hmem, hitem⟩)
    · obtain rfl := List.mem_singleton.mp hmem
      rcases hitem with rfl | rfl
      · exact Or.inr rfl
      · exact Or.inr rfl

section Moves

variable {platform : Platform V} {tm : Tm V} {choice : Choice V} {thread thread' : Thread V}
  {event : Event V}

/-- A move adds no pointer to the sets but one to a word of the call's segment. -/
theorem ThreadMove.points (h : ThreadMove platform tm choice thread event thread') {t' : Tx V}
    {x : Word} (htx : thread'.tx = some t') (hx : t'.Points x) :
    (∃ t, thread.tx = some t ∧ t.Points x) ∨
      ∃ g k, thread.seg = some g ∧ tm.wordAt g k = some x := by
  cases h with
  | call h => cases h <;> exact Or.inl ⟨t', htx, hx⟩
  | begin h =>
      cases h with
      | started =>
          obtain rfl := Option.some.inj htx
          rcases hx with ⟨rs, item, hrs, hmem, -⟩ | ⟨item, hmem, -⟩
          · obtain rfl := Option.some.inj hrs
            cases hmem
          · cases hmem
      | _ => cases htx
  | @read t c _ _ _ h =>
      cases h with
      | confirmed hw hread hadd =>
          obtain rfl := Option.some.inj htx
          rcases Tx.points_addToReadset hadd hx with hx | rfl
          · exact Or.inl ⟨t, rfl, hx⟩
          · exact Or.inr ⟨c.seg, _, rfl, hw⟩
      | _ => exact Or.inl ⟨t', htx, hx⟩
  | @roRead t c _ _ _ h =>
      cases h with
      | recorded hi hw hread hold hadd | notRecorded hi hw hread hold hadd =>
          obtain rfl := Option.some.inj htx
          rcases Tx.points_addToReadset hadd hx with hx | rfl
          · exact Or.inl ⟨t, rfl, hx⟩
          · exact Or.inr ⟨c.seg, _, rfl, hw⟩
      | extended hrs hk hw hadd | notExtended hrs hk hw hadd =>
          obtain rfl := Option.some.inj htx
          rcases Tx.points_addToReadset hadd hx with hx | rfl
          · exact Or.inl ⟨t, rfl, hx⟩
          · exact Or.inr ⟨c.seg, _, rfl, hw⟩
      | _ => exact Or.inl ⟨t', htx, hx⟩
  | @write t c _ _ _ h =>
      cases h with
      | overwritten =>
          obtain rfl := Option.some.inj htx
          rcases hx with hrs | ⟨item, hmem, hitem⟩
          · exact Or.inl ⟨t, rfl, Or.inl hrs⟩
          · obtain ⟨item', hmem', -, hraw, hlock⟩ := Tx.mem_overwrite hmem
            exact Or.inl ⟨t, rfl, Or.inr ⟨item', hmem', hraw ▸ hlock ▸ hitem⟩⟩
      | appended hi hw hfree hold hv hmiss happend =>
          obtain rfl := Option.some.inj htx
          rcases Tx.points_append happend hx with hx | rfl
          · exact Or.inl ⟨t, rfl, hx⟩
          · exact Or.inr ⟨c.seg, _, rfl, hw⟩
      | _ => exact Or.inl ⟨t', htx, hx⟩
  | alloc h => cases h <;> exact Or.inl ⟨t', htx, hx⟩
  | @free t target _ _ h =>
      cases h with
      | first => exact Or.inl ⟨t', htx, hx⟩
      | queued =>
          obtain rfl := Option.some.inj htx
          exact Or.inl ⟨t, rfl, hx⟩
  | @finish t pc _ _ h =>
      cases h with
      | sort =>
          obtain rfl := Option.some.inj htx
          rcases hx with hrs | ⟨item, hmem, hitem⟩
          · exact Or.inl ⟨t, rfl, Or.inl hrs⟩
          · exact Or.inl ⟨t, rfl, Or.inr ⟨item, (platform.qsort_perm _ _).mem_iff.mp hmem, hitem⟩⟩
      | early | noBatch | wrunlock => cases htx
      | _ => exact Or.inl ⟨t', htx, hx⟩
  | start | cleanup | retIdle => cases htx
  | retLive => exact Or.inl ⟨t', htx, hx⟩

/-- A call looks its segment up in `va_arr`. -/
theorem ThreadMove.seg (h : ThreadMove platform tm choice thread event thread') {g : SegId}
    (hseg : thread'.seg = some g) :
    thread.seg = some g ∨ ∃ addr size, tm.range addr size = some g := by
  cases h with
  | call h =>
      cases h with
      | roRead hrange hro hcall =>
          obtain ⟨-, rfl⟩ := roTransactionReadCall_eq_some hcall
          obtain rfl := Option.some.inj hseg
          exact Or.inr ⟨_, _, hrange⟩
      | read hrange hrw hcall =>
          obtain ⟨-, rfl⟩ := tmReadCall_eq_some hcall
          obtain rfl := Option.some.inj hseg
          exact Or.inr ⟨_, _, hrange⟩
      | write hrange =>
          obtain rfl := Option.some.inj hseg
          exact Or.inr ⟨_, _, hrange⟩
      | _ => cases hseg
  | read h | roRead h | write h => cases h <;> first | exact Or.inl hseg | cases hseg
  | begin h | alloc h | free h | finish h => cases h <;> cases hseg
  | start | cleanup | retIdle | retLive => cases hseg

/-- A hold begins with empty sets, before any call. -/
theorem ThreadMove.holds (h : ThreadMove platform tm choice thread event thread')
    (hafter : thread'.holds = true) :
    thread.holds = true ∨ thread'.tx = none ∧ thread'.seg = none := by
  cases h with
  | begin h =>
      cases h with
      | rdlock => exact Or.inr ⟨rfl, rfl⟩
      | _ => exact Or.inl rfl
  | finish h => cases h <;> first | exact Or.inl rfl | exact Or.inl hafter
  | call h | read h | roRead h | write h | alloc h | free h => cases h <;> exact Or.inl rfl
  | start | retIdle => cases hafter
  | cleanup => exact Or.inl rfl
  | @retLive r t =>
      left
      cases r with
      | begin valid => cases valid <;> rfl
      | _ => rfl

end Moves

section Runs

variable [Zero V] [DecidableEq Tid] {platform : Platform V} {s s' : State Tid V} {l : Label Tid V}

/-- Under a hold, the pointers in the sets and the segment of the call in progress. -/
def PointersInv (s : State Tid V) : Prop :=
  ∀ tid, (s.thread tid).holds = true →
    (∀ t w, (s.thread tid).tx = some t → t.Points w → s.tm.InstalledWord w) ∧
      ∀ g, (s.thread tid).seg = some g → s.tm.Installed g

omit [Zero V] [DecidableEq Tid] in
theorem Tm.InstalledWord.keep {tm tm' : Tm V} {w : Word} (h : tm.InstalledWord w)
    (hkeep : ∀ spot g seg, tm.InstalledAt spot g seg → tm'.InstalledAt spot g seg) :
    tm'.InstalledWord w := by
  obtain ⟨hvalid, spot, seg, hinst⟩ := h
  have hinst' := hkeep spot w.seg seg hinst
  refine ⟨?_, spot, seg, hinst'⟩
  unfold Tm.valid at hvalid ⊢
  rw [hinst.2.1] at hvalid
  rw [hinst'.2.1]
  exact hvalid

theorem PointersInv.step (h : PointersInv s) (hstep : (system Tid platform).step s l s')
    (hkeep : ∀ tid, (s.thread tid).holds = true → ∀ spot g seg, s.tm.InstalledAt spot g seg →
      s'.tm.InstalledAt spot g seg) : PointersInv s' := by
  obtain ⟨hmove, -, hother⟩ := system_step_move hstep
  intro tid hheld
  by_cases heq : tid = l.tid
  · subst heq
    rcases hmove.holds hheld with hbefore | ⟨htx, hseg⟩
    · obtain ⟨hpoints, hsegs⟩ := h l.tid hbefore
      refine ⟨fun t' w htx' hw => ?_, fun g hg => ?_⟩
      · rcases hmove.points htx' hw with ⟨t, htx, hw⟩ | ⟨g, k, hg, hword⟩
        · exact (hpoints t w htx hw).keep (hkeep l.tid hbefore)
        · obtain ⟨-, hvalid, rfl⟩ := Tm.wordAt_eq_some hword
          exact Tm.InstalledWord.keep ⟨hvalid, hsegs g hg⟩ (hkeep l.tid hbefore)
      · have hinst : s.tm.Installed g := by
          rcases hmove.seg hg with hg | ⟨addr, size, hrange⟩
          · exact hsegs g hg
          · exact Tm.installed_of_range hrange
        obtain ⟨spot, seg, hinst⟩ := hinst
        exact ⟨spot, seg, hkeep l.tid hbefore spot g seg hinst⟩
    · simp [htx, hseg]
  · rw [hother tid heq] at hheld ⊢
    obtain ⟨hpoints, hsegs⟩ := h tid hheld
    refine ⟨fun t w htx hw => (hpoints t w htx hw).keep (hkeep tid hheld), fun g hg => ?_⟩
    obtain ⟨spot, seg, hinst⟩ := hsegs g hg
    exact ⟨spot, seg, hkeep tid hheld spot g seg hinst⟩

/-! ### Runs without failures -/

def AllocPc.failing : AllocPc → Bool
  | .pushNode _ | .pushStore _ _ => true
  | _ => false

/-- Without failures `segment_init` never fails, at none of its allocations. -/
theorem not_failing (h : ((system Tid platform).restrict NoFailure).Reachable s) :
    ∀ tid pc, (s.thread tid).allocPc = some pc → pc.failing = false := by
  refine Machine.Reachable.invariant (M := (system Tid platform).restrict NoFailure)
    (P := fun s => ∀ tid pc, (s.thread tid).allocPc = some pc → pc.failing = false)
    (fun s hs tid pc hpc => ?_) (fun s l s' _ ih hstep tid pc hpc => ?_) h
  · rw [hs.1 tid] at hpc
    cases hpc
  · obtain ⟨⟨hmallocs, hfail⟩, hstep⟩ := hstep
    obtain ⟨hmove, -, hother⟩ := system_step_move hstep
    by_cases heq : tid = l.tid
    · subst heq
      cases hmove.spotMove with
      | quiet hlock hhead hnode hvaN hvaArr hsegment hbefore hafter =>
          rcases hafter with hafter | hafter
          · simp [hafter] at hpc
          · obtain rfl : AllocPc.lock = pc := by simpa [hafter] using hpc
            rfl
      | alloc hbefore hmove =>
          have hbefore := ih l.tid _ (by rw [hbefore]; rfl)
          generalize l.event = event, s'.thread l.tid = thread' at hmove hfail hpc
          cases hmove with
          | noStruct _ hmalloc => exact absurd (hmallocs 0) (by simp [hmalloc])
          | noData => exact absurd rfl (hfail _).1
          | noLocks => exact absurd rfl (hfail _).2
          | pushNode => cases hbefore
          | _ =>
              first
              | obtain rfl := Option.some.inj hpc
                rfl
              | cases hpc
      | deleted hevent hdrains hafter => simp [hafter] at hpc
    · rw [hother tid heq] at hpc
      exact ih tid pc hpc

theorem pushesAlone_of_noFailure (h : ((system Tid platform).restrict NoFailure).Reachable s) :
    PushesAlone s l := by
  intro t size spot n hthread
  have := not_failing h l.tid (.pushStore spot n) (by rw [hthread]; rfl)
  cases this

/-- Without failures, a hold keeps every installed segment for one step. -/
theorem installed_step (h : ((system Tid platform).restrict NoFailure).Reachable s)
    (hstep : (system Tid platform).step s l s') {tid : Tid} (hheld : (s.thread tid).holds = true)
    {spot : Nat} {g : SegId} {seg : Segment} (hinst : s.tm.InstalledAt spot g seg) :
    s'.tm.InstalledAt spot g seg := by
  obtain ⟨cells, hspots⟩ := spotsInv (fun _ _ hreach _ => pushesAlone_of_noFailure hreach) h
  have hsystem := h.of_restrict
  obtain ⟨holders, lost, hholds⟩ := holdsInv hsystem
  exact hspots.installed_step (segmentsInv hsystem) hholds hstep hheld hinst

theorem pointersInv (h : ((system Tid platform).restrict NoFailure).Reachable s) :
    PointersInv s := by
  refine Machine.Reachable.invariant (M := (system Tid platform).restrict NoFailure)
    (P := PointersInv) (fun s hs tid hheld => ?_) (fun s l s' hreach ih hstep => ?_) h
  · rw [hs.1 tid] at hheld
    cases hheld
  · exact ih.step hstep.2 fun tid hheld spot g seg hinst =>
      installed_step hreach hstep.2 hheld hinst

end Runs

end TransactionalMemory
