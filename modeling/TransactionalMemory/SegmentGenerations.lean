import TransactionalMemory.Proof.Installed
import TransactionalMemory.Proof.Queue
import TransactionalMemory.Proof.Schedules

/-!
# Generations of a spot

An entry of a `to_free` array is a bare spot, and spots are used again. A recorder keeps, beside
every entry, the segment that was at the spot when `tm_free` was called. The transaction's hold
keeps that segment there until the entry is in the shared queue, from then on only a batch deletion
removes it, and the batch that does empties the queue before anybody can allocate. So no entry ever
means a later segment, and of several entries for one segment only the first finds it.
-/

namespace TransactionalMemory

open Concurrency

variable {V Tid : Type}

def Tm.segAt (tm : Tm V) (spot : Nat) : Option SegId :=
  match tm.vaArr spot with
  | .segment g => some g
  | _ => none

structure Deletion where
  spot : Int
  /-- The segment that was at the spot when the deleted entry was made. -/
  freed : Option SegId
  destroyed : SegId
deriving DecidableEq

structure GenerationRecord (Tid : Type) where
  /-- What was at the spot at the call of the `tm_free` in progress. -/
  asked : Tid → Option SegId
  /-- The same for each entry of the open transaction's `to_free`. -/
  freed : Tid → List (Option SegId)
  /-- The segments freed by transactions past their point of no return. -/
  committed : List (Option SegId)
  /-- What was at the spot of each entry of `tm->to_free` when it was freed. -/
  queued : List (Option SegId)
  deletions : List Deletion
  /-- The spots that batch deletions pushed on `empty_spots`. -/
  pushed : List Nat

/-- What a thread's transaction has freed, one step further. -/
def segmentsNext (thread : Thread V) (asked : Option SegId) (freed : List (Option SegId)) :
    List (Option SegId) :=
  match thread with
  | .beginning _ _ => []
  | .freeing _ target => if freeSpot target = 0 then freed else freed ++ [asked]
  | _ => freed

def queuedNext (thread : Thread V) (event : Event V) (freed queued : List (Option SegId)) :
    List (Option SegId) :=
  match thread, event with
  | .ending _ (.push i), .op (.pushToFree _ _) => queued ++ freed[i]?.toList
  | _, .op .resetToFree => []
  | _, _ => queued

def Tm.deletion (tm : Tm V) (thread : Thread V) (event : Event V) (queued : List (Option SegId)) :
    Option Deletion :=
  match thread, event with
  | .ending _ (.drain i), .op (.deleteSegment spot) =>
      (tm.segAt spot.toNat).map fun g => ⟨spot, queued[i]?.join, g⟩
  | _, _ => none

def Tm.pushed [Zero V] (tm : Tm V) (event : Event V) : Option Nat :=
  match event with
  | .op (.deleteSegment _) =>
      if (tm.after event).emptySpots = tm.emptySpots then none
      else (headSpot (tm.after event)).map EmptySpot.index
  | _ => none

variable [DecidableEq Tid]

def recordGenerations [Zero V] (s : State Tid V) (l : Label Tid V) (r : GenerationRecord Tid) :
    GenerationRecord Tid where
  asked :=
    match l.event with
    | .call (.free target) => Function.update r.asked l.tid (s.tm.segAt (indexFromVa target).toNat)
    | _ => r.asked
  freed := Function.update r.freed l.tid
    (segmentsNext (s.thread l.tid) (r.asked l.tid) (r.freed l.tid))
  committed :=
    match l.event with
    | .op (.commit _ _) => r.committed ++ r.freed l.tid
    | _ => r.committed
  queued := queuedNext (s.thread l.tid) l.event (r.freed l.tid) r.queued
  deletions := r.deletions ++ (s.tm.deletion (s.thread l.tid) l.event r.queued).toList
  pushed := r.pushed ++ (s.tm.pushed l.event).toList

/-- `tm_free` is called on an address of a segment that is installed. -/
def FreesInstalled (s : State Tid V) (l : Label Tid V) : Prop :=
  ∀ target, l.event = .call (.free target) →
    ∃ g seg, s.tm.InstalledAt (indexFromVa target).toNat g seg

def generationMachine [Zero V] (Tid : Type) [DecidableEq Tid] (platform : Platform V) :
    Machine (State Tid V × GenerationRecord Tid) (Label Tid V) :=
  ((system Tid platform).restrict fun s l => NoFailure s l ∧ FreesInstalled s l).observe
    ⟨fun _ => none, fun _ => [], [], [], [], []⟩ recordGenerations

def Tm.Refers (tm : Tm V) (spot : Int) (freed : Option SegId) : Prop :=
  ∃ (n : Nat) (g : SegId) (seg : Segment), spot = n ∧ freed = some g ∧ tm.InstalledAt n g seg

def Tm.Emptied (tm : Tm V) (spot : Int) (freed : Option SegId) : Prop :=
  ∃ (n : Nat) (g : SegId), spot = n ∧ freed = some g ∧ g < tm.segmentCount ∧ tm.segment g = none ∧
    tm.vaArr n = .null

omit [DecidableEq Tid] in
/-- Entries keep their segments, and segments are destroyed and their spots given back once. -/
structure GenerationsKept (s : State Tid V) (r : GenerationRecord Tid) : Prop where
  own : ∀ tid t, (s.thread tid).holds = true → (s.thread tid).tx = some t →
    List.Forall₂ s.tm.Refers t.toFree (r.freed tid)
  queued : List.Forall₂ (fun spot freed => s.tm.Refers spot freed ∨
    s.tm.Emptied spot freed ∧ ∃ tid, (s.thread tid).drains = true) s.tm.toFree r.queued
  deleted : ∀ d ∈ r.deletions, d.freed = some d.destroyed ∧ some d.destroyed ∈ r.committed
  once : (r.deletions.map Deletion.destroyed).Nodup
  pushed : r.pushed = r.deletions.map fun d => d.spot.toNat

/-! ### Moves -/

section Moves

variable {platform : Platform V} {tm : Tm V} {choice : Choice V} {thread thread' : Thread V}
  {event : Event V} {t' : Tx V}

inductive Tx.FreesNext (thread : Thread V) (asked : Option SegId) (freed : List (Option SegId))
    (t' : Tx V) (freed' : List (Option SegId)) : Prop where
  | opened (hafter : t'.toFree = []) (hfreed : freed' = [])
  | same {t : Tx V} (hbefore : thread.tx = some t) (hafter : t'.toFree = t.toFree)
      (hfreed : freed' = freed)
  | freed {t : Tx V} {target : Addr} (hbefore : thread = .freeing t target)
      (hafter : t'.toFree = t.toFree ++ [freeSpot target]) (hfreed : freed' = freed ++ [asked])

theorem ThreadMove.freesNext (h : ThreadMove platform tm choice thread event thread')
    (asked : Option SegId) (freed : List (Option SegId)) (htx : thread'.tx = some t') :
    Tx.FreesNext thread asked freed t' (segmentsNext thread asked freed) := by
  cases h with
  | start | retIdle | cleanup => cases htx
  | retLive => exact .same rfl (by cases htx; rfl) rfl
  | call h => cases h <;> exact .same rfl (by cases htx; rfl) rfl
  | begin h =>
      cases h with
      | started => exact .opened (by cases htx; rfl) rfl
      | _ => cases htx
  | read h =>
      cases h with
      | confirmed hw hread hadd =>
          exact .same rfl (by cases htx; exact (Tx.addToReadset_eq hadd).2.2.2.2) rfl
      | _ => exact .same rfl (by cases htx; rfl) rfl
  | roRead h =>
      cases h with
      | recorded hi hw hread hold hadd | notRecorded hi hw hread hold hadd =>
          exact .same rfl (by cases htx; exact (Tx.addToReadset_eq hadd).2.2.2.2) rfl
      | extended hrs hk hw hadd | notExtended hrs hk hw hadd =>
          exact .same rfl (by cases htx; exact (Tx.addToReadset_eq hadd).2.2.2.2) rfl
      | _ => exact .same rfl (by cases htx; rfl) rfl
  | write h =>
      cases h with
      | appended hi hw hfree hold hx hmiss happend =>
          obtain ⟨rs, sz, -, rfl⟩ := Tx.append_eq happend
          exact .same rfl (by cases htx; rfl) rfl
      | _ => exact .same rfl (by cases htx; rfl) rfl
  | alloc h => cases h <;> exact .same rfl (by cases htx; rfl) rfl
  | @free t target _ _ h =>
      cases h with
      | first hspot =>
          have hfirst : freeSpot target = 0 := hspot
          exact .same rfl (by cases htx; rfl) (by simp [segmentsNext, hfirst])
      | queued hspot =>
          have hlater : freeSpot target ≠ 0 := hspot
          exact .freed rfl (by cases htx; rfl) (by simp [segmentsNext, hlater])
  | finish h =>
      cases h with
      | early | noBatch | wrunlock => cases htx
      | _ => exact .same rfl (by cases htx; rfl) rfl

inductive QueueNext [Zero V] (tm : Tm V) (thread : Thread V) (event : Event V)
    (freed queued : List (Option SegId)) : Prop where
  | same (hqueue : (tm.after event).toFree = tm.toFree)
      (hqueued : queuedNext thread event freed queued = queued)
  | push {t : Tx V} {i : Nat} {spot : Int} (hbefore : thread = .ending t (.push i))
      (hspot : t.toFree[i]? = some spot) (hqueue : (tm.after event).toFree = tm.toFree ++ [spot])
      (hqueued : queuedNext thread event freed queued = queued ++ freed[i]?.toList)
  | reset (hqueue : (tm.after event).toFree = [])
      (hqueued : queuedNext thread event freed queued = [])

theorem ThreadMove.queueNext [Zero V] (h : ThreadMove platform tm choice thread event thread')
    (freed queued : List (Option SegId)) :
    QueueNext tm thread event freed queued := by
  cases h with
  | finish h =>
      cases h with
      | push hi => exact .push rfl hi rfl rfl
      | drained => exact .reset rfl rfl
      | drain | drainNull => exact .same (Tm.deleteSegment_toFree _ _) rfl
      | _ => exact .same rfl rfl
  | call h | begin h | read h | roRead h | write h | alloc h | free h =>
      cases h <;> exact .same rfl rfl
  | start | cleanup | retIdle | retLive => exact .same rfl rfl

end Moves

/-! ### Entries and steps -/

section Entries

variable [Zero V] {platform : Platform V} {s s' : State Tid V} {l : Label Tid V}
  {cells : List (NodeId × EmptySpot)} {spot : Int} {freed : Option SegId}

/-- Segments are named at the indices of `va_arr` only. -/
theorem spot_lt (h : (system Tid platform).Reachable s) :
    ∀ n g, s.tm.vaArr n = .segment g → n < vaSize := by
  refine h.invariant (P := fun s => ∀ n g, s.tm.vaArr n = .segment g → n < vaSize)
    (fun s hs n g hn => ?_) fun s l s' _ ih hstep n g hn => ?_
  · obtain ⟨-, choice, size, align, -, -, -, -, hcreate⟩ := hs
    obtain ⟨-, -, htm⟩ := tmCreate_eq hcreate
    by_cases heq : n = 0
    · rw [heq]
      decide
    · simp [htm, Tm.created, Tm.bare, heq] at hn
  · obtain ⟨hmove, htm, -⟩ := system_step_move hstep
    rw [htm] at hn
    cases hmove.spotMove with
    | quiet hlock hhead hnode hvaN hvaArr hsegment hbefore hafter => exact ih n g (hvaArr ▸ hn)
    | @alloc t size pc hbefore hmove =>
        generalize l.event = event, s'.thread l.tid = thread' at hmove hn
        cases hmove with
        | @initStruct x hx | @noStruct x hx =>
            by_cases heq : n = x
            · rw [heq]
              exact hx
            · exact ih n g (by simpa [Tm.after, Tm.apply, heq] using hn)
        | _ => exact ih n g hn
    | @deleted x g' seg' hevent hdrains hafter hspot' =>
        by_cases heq : n = x.toNat
        · simp [hevent, Tm.after, Tm.apply, Tm.deleteSegment, hspot', heq] at hn
        · refine ih n g ?_
          simpa [hevent, Tm.after, Tm.apply, Tm.deleteSegment, hspot', heq] using hn

/-- The segment of an entry stays at its spot until a batch deletion takes it away. -/
theorem Tm.Refers.step (hspots : SpotsInv s cells) (hsegments : SegmentsInv s)
    (htable : s.tm.TableInv)
    (hstep : (system Tid platform).step s l s') (h : s.tm.Refers spot freed) :
    s'.tm.Refers spot freed ∨ (s.thread l.tid).drains = true ∧ s'.tm.Emptied spot freed := by
  obtain ⟨n, g, seg, rfl, rfl, hinst⟩ := h
  rcases hspots.installed_or_deleted hsegments hstep hinst with hkept | ⟨hdrains, hgone⟩
  · exact Or.inl ⟨n, g, seg, rfl, rfl, hkept⟩
  · refine Or.inr ⟨hdrains, n, g, rfl, rfl,
      (htable.segment_lt n g hinst.1).trans_le (segmentCount_le hstep), hgone, ?_⟩
    obtain ⟨hmove, htm, -⟩ := system_step_move hstep
    cases hmove.spotMove with
    | quiet hlock hhead hnode hvaN hvaArr hsegment hbefore hafter =>
        rw [htm, hsegment, hinst.2.1] at hgone
        cases hgone
    | alloc hbefore => simp [hbefore, Thread.drains] at hdrains
    | @deleted x g' seg' hevent _ hafter hspot' =>
        have hdelete : s'.tm.segment = Function.update s.tm.segment g' none ∧
            s'.tm.vaArr = Function.update s.tm.vaArr x.toNat .null := by
          rw [htm, hevent]
          simp [Tm.after, Tm.apply, Tm.deleteSegment, hspot']
        obtain rfl : g = g' := by
          by_contra hne
          simp [hdelete.1, hne, hinst.2.1] at hgone
        obtain rfl := htable.segment_inj n x.toNat g hinst.1 hspot'
        simp [hdelete.2]

/-- While the batch deletion runs, nobody uses the spots it has emptied. -/
theorem Tm.Emptied.step {holders : Finset Tid} {lost : Nat} (hholds : HoldsInv s holders lost)
    (hstep : (system Tid platform).step s l s') {tid : Tid} (hdrains : (s.thread tid).drains = true)
    (h : s.tm.Emptied spot freed) : s'.tm.Emptied spot freed := by
  obtain ⟨n, g, rfl, rfl, hlt, hgone, hnull⟩ := h
  refine ⟨n, g, rfl, rfl, hlt.trans_le (segmentCount_le hstep), segment_gone hstep hlt hgone, ?_⟩
  obtain ⟨hmove, htm, -⟩ := system_step_move hstep
  cases hmove.spotMove with
  | quiet hlock hhead hnode hvaN hvaArr hsegment hbefore hafter => rw [htm, hvaArr, hnull]
  | alloc hbefore =>
      have hheld := hholds.not_holds_of_drains hdrains l.tid
      simp [hbefore, Thread.holds] at hheld
  | @deleted x g' seg' hevent _ hafter hspot' =>
      rw [htm, hevent]
      simp only [Tm.after, Tm.apply, Tm.deleteSegment, hspot', Function.update_apply]
      split
      · rfl
      · exact hnull

omit [Zero V] [DecidableEq Tid] in
/-- The spot that `tm_free` computes for an installed segment is the segment's. -/
theorem refers_freeSpot {tm : Tm V} {target : Addr} {g : SegId} {seg : Segment}
    (hinst : tm.InstalledAt (indexFromVa target).toNat g seg)
    (hlt : (indexFromVa target).toNat < vaSize) :
    tm.Refers (freeSpot target) (some g) := by
  refine ⟨(indexFromVa target).toNat, g, seg, ?_, rfl, hinst⟩
  unfold freeSpot
  generalize (indexFromVa target).toNat = n at hlt
  rw [vaSize] at hlt
  exact toInt_eq_self (by omega) (by omega)

/-- What one step of a batch deletion destroys and gives back. -/
theorem ThreadMove.deletion {tm : Tm V} {choice : Choice V} {thread thread' : Thread V}
    {event : Event V} (htable : tm.TableInv)
    (hlinked : Linked EmptySpot.next tm.node tm.emptySpots cells)
    (h : ThreadMove platform tm choice thread event thread') (queued : List (Option SegId)) :
    tm.deletion thread event queued = none ∧ tm.pushed event = none ∨
      ∃ (t : Tx V) (i : Nat) (spot : Int) (g : SegId) (seg : Segment),
        thread = .ending t (.drain i) ∧
        event = .op (.deleteSegment spot) ∧ tm.toFree[i]? = some spot ∧ 0 ≤ spot ∧
        tm.InstalledAt spot.toNat g seg ∧
        tm.deletion thread event queued = some ⟨spot, queued[i]?.join, g⟩ ∧
        tm.pushed event = some spot.toNat := by
  cases h with
  | @finish t pc _ _ h =>
      cases h with
      | @drain i spot g seg hi hspot hseg hg hready =>
          refine Or.inr ⟨t, i, spot, g, seg, rfl, rfl, hi, hspot, ⟨hseg, hg, hready⟩, ?_, ?_⟩
          · simp [Tm.deletion, Tm.segAt, hseg]
          · have hhead : some tm.nodeCount ≠ tm.emptySpots := by
              intro heq
              rw [← heq] at hlinked
              cases hlinked with
              | cons hcell => exact (htable.node_lt _ _ hcell).false
            simp [Tm.pushed, Tm.after, Tm.apply, Tm.deleteSegment, hseg, hhead, headSpot]
      | @drainNull i spot hi hspot hnull =>
          left
          simp [Tm.deletion, Tm.segAt, Tm.pushed, Tm.after, Tm.apply, Tm.deleteSegment, hnull]
      | _ => exact Or.inl ⟨rfl, rfl⟩
  | call h | begin h | read h | roRead h | write h | alloc h | free h =>
      cases h <;> exact Or.inl ⟨rfl, rfl⟩
  | start | cleanup | retIdle | retLive => exact Or.inl ⟨rfl, rfl⟩

end Entries

/-! ### The invariant -/

def EndPc.decided : EndPc → Bool
  | .copy _ _ | .release _ _ | .lockToFree | .push _ => true
  | _ => false

theorem forall₂_getElem? {α β : Type} {R : α → β → Prop} {as : List α} {bs : List β}
    (h : List.Forall₂ R as bs) {i : Nat} {a : α} (ha : as[i]? = some a) :
    ∃ b, bs[i]? = some b ∧ R a b := by
  obtain ⟨hi, rfl⟩ := List.getElem?_eq_some_iff.mp ha
  have hi' : i < bs.length := h.length_eq ▸ hi
  exact ⟨bs[i], List.getElem?_eq_getElem hi', h.get hi hi'⟩

section Invariant

variable [Zero V] {platform : Platform V} {s s' : State Tid V} {l : Label Tid V}
  {r : GenerationRecord Tid}

omit [Zero V] [DecidableEq Tid] in
structure GenerationsInv (s : State Tid V) (r : GenerationRecord Tid) : Prop
    extends GenerationsKept s r where
  asked : ∀ tid t target, s.thread tid = .freeing t target → ∃ g seg, r.asked tid = some g ∧
    s.tm.InstalledAt (indexFromVa target).toNat g seg
  decided : ∀ tid t pc, s.thread tid = .ending t pc → pc.decided = true →
    ∀ g ∈ r.freed tid, g ∈ r.committed
  committed : ∀ g ∈ r.queued, g ∈ r.committed
  reset : ∀ tid t, s.thread tid = .ending t .wrunlock → s.tm.toFree = []
  gone : ∀ d ∈ r.deletions, d.destroyed < s.tm.segmentCount ∧ s.tm.segment d.destroyed = none

theorem mem_committed {g : Option SegId} (h : g ∈ r.committed) :
    g ∈ (recordGenerations s l r).committed := by
  simp only [recordGenerations]
  split
  · exact List.mem_append_left _ h
  · exact h

namespace GenerationsInv

variable (hreach : ((system Tid platform).restrict NoFailure).Reachable s)
  (hstep : (system Tid platform).step s l s') (h : GenerationsInv s r)
include hreach hstep h

theorem own_step (tid : Tid) (t' : Tx V) (hheld : (s'.thread tid).holds = true)
    (htx : (s'.thread tid).tx = some t') :
    List.Forall₂ s'.tm.Refers t'.toFree ((recordGenerations s l r).freed tid) := by
  obtain ⟨hmove, -, hother⟩ := system_step_move hstep
  have hkeep : ∀ {tid : Tid}, (s.thread tid).holds = true → ∀ spot freed, s.tm.Refers spot freed →
      s'.tm.Refers spot freed := by
    rintro tid hheld spot freed ⟨n, g, seg, hspot, hfreed, hinst⟩
    exact ⟨n, g, seg, hspot, hfreed, installed_step hreach hstep hheld hinst⟩
  by_cases heq : tid = l.tid
  · subst heq
    have hbefore : (s.thread l.tid).holds = true := by
      rcases hmove.holds hheld with hbefore | ⟨hnone, -⟩
      · exact hbefore
      · simp [hnone] at htx
    simp only [recordGenerations, Function.update_self]
    cases hmove.freesNext (r.asked l.tid) (r.freed l.tid) htx with
    | opened hafter hfreed =>
        rw [hafter, hfreed]
        exact .nil
    | same htx' hafter hfreed =>
        rw [hafter, hfreed]
        exact (h.own l.tid _ hbefore htx').imp (hkeep hbefore)
    | @freed t target hthread hafter hfreed =>
        rw [hafter, hfreed]
        obtain ⟨g, seg, hasked, hinst⟩ := h.asked l.tid t target hthread
        have hlt := spot_lt hreach.of_restrict _ _ hinst.1
        have hlast := hkeep hbefore _ _ (refers_freeSpot hinst hlt)
        have hrest := (h.own l.tid t hbefore (by rw [hthread]; rfl)).imp (hkeep hbefore)
        rw [← hasked] at hlast
        exact List.rel_append hrest (.cons hlast .nil)
  · rw [hother tid heq] at hheld htx
    simp only [recordGenerations, Function.update_of_ne heq]
    exact (h.own tid t' hheld htx).imp (hkeep hheld)

omit hreach h in
/-- A batch deletion runs until its last step. -/
theorem drains_step {tid : Tid} (hdrains : (s.thread tid).drains = true)
    (hlast : ∀ t, s.thread l.tid ≠ .ending t .wrunlock) : (s'.thread tid).drains = true := by
  obtain ⟨hmove, -, hother⟩ := system_step_move hstep
  by_cases heq : tid = l.tid
  · subst heq
    generalize s.thread l.tid = thread, l.event = event, s'.thread l.tid = thread' at *
    cases hmove with
    | @finish t pc _ _ hmove =>
        cases hmove with
        | drain | drainNull | drained => rfl
        | wrunlock => exact absurd rfl (hlast t)
        | _ => cases hdrains
    | _ => cases hdrains
  · rw [hother tid heq]
    exact hdrains

theorem queued_step : List.Forall₂ (fun spot freed => s'.tm.Refers spot freed ∨
    s'.tm.Emptied spot freed ∧ ∃ tid, (s'.thread tid).drains = true) s'.tm.toFree
    (recordGenerations s l r).queued := by
  obtain ⟨cells, hspots⟩ := spotsInv (fun _ _ hreach _ => pushesAlone_of_noFailure hreach) hreach
  have hsystem := hreach.of_restrict
  obtain ⟨holders, lost, hholds⟩ := holdsInv hsystem
  obtain ⟨hmove, htm, -⟩ := system_step_move hstep
  simp only [recordGenerations]
  -- what becomes of the entries that stay
  have hentries : ¬ (∃ t, s.thread l.tid = .ending t .wrunlock) →
      List.Forall₂ (fun spot freed => s'.tm.Refers spot freed ∨
        s'.tm.Emptied spot freed ∧ ∃ tid, (s'.thread tid).drains = true) s.tm.toFree r.queued := by
    intro hlast
    have hdrained : ∀ tid, (s.thread tid).drains = true → ∃ tid, (s'.thread tid).drains = true :=
      fun tid hdrains => ⟨tid, drains_step hstep hdrains fun t ht => hlast ⟨t, ht⟩⟩
    refine h.queued.imp fun spot freed hentry => ?_
    rcases hentry with hrefers | ⟨hemptied, tid, hdrains⟩
    · rcases hrefers.step hspots (segmentsInv hsystem) (tableInv hsystem) hstep with
        hrefers | ⟨hdrains, hemptied⟩
      · exact Or.inl hrefers
      · exact Or.inr ⟨hemptied, hdrained l.tid hdrains⟩
    · exact Or.inr ⟨hemptied.step hholds hstep hdrains, hdrained tid hdrains⟩
  cases hmove.queueNext (r.freed l.tid) r.queued with
  | same hqueue hqueued =>
      rw [htm, hqueue, hqueued, ← htm]
      by_cases hlast : ∃ t, s.thread l.tid = .ending t .wrunlock
      · obtain ⟨t, ht⟩ := hlast
        have hlength := h.queued.length_eq
        rw [h.reset l.tid t ht] at hlength ⊢
        rw [List.length_eq_zero_iff.mp hlength.symm]
        exact .nil
      · exact hentries hlast
  | @push t i spot hthread hspot hqueue hqueued =>
      rw [htm, hqueue, hqueued, ← htm]
      have hheld : (s.thread l.tid).holds = true := by rw [hthread]; rfl
      obtain ⟨freed, hfreed, n, g, seg, hn, hg, hinst⟩ :=
        forall₂_getElem? (h.own l.tid t hheld (by rw [hthread]; rfl)) hspot
      have hlast : s'.tm.Refers spot freed :=
        ⟨n, g, seg, hn, hg, installed_step hreach hstep hheld hinst⟩
      rw [hfreed]
      refine List.rel_append (hentries ?_) (.cons (Or.inl hlast) .nil)
      rintro ⟨t', ht'⟩
      simp [hthread] at ht'
  | reset hqueue hqueued =>
      rw [htm, hqueue, hqueued]
      exact .nil

omit hreach in
/-- What is behind the queue was freed by committed transactions. -/
theorem committed_step : ∀ g ∈ (recordGenerations s l r).queued,
    g ∈ (recordGenerations s l r).committed := by
  obtain ⟨hmove, -, -⟩ := system_step_move hstep
  intro g hg
  simp only [recordGenerations] at hg
  cases hmove.queueNext (r.freed l.tid) r.queued with
  | same hqueue hqueued => exact mem_committed (h.committed g (hqueued ▸ hg))
  | @push t i spot hthread hspot hqueue hqueued =>
      rw [hqueued, List.mem_append] at hg
      rcases hg with hg | hg
      · exact mem_committed (h.committed g hg)
      · have hmem : g ∈ r.freed l.tid := List.mem_of_getElem? (Option.mem_toList.mp hg)
        exact mem_committed (h.decided l.tid t (.push i) hthread rfl g hmem)
  | reset hqueue hqueued =>
      rw [hqueued] at hg
      cases hg

/-- A deletion destroys what the entry was made for, and that for the first time. -/
theorem deletion_step :
    (∀ d ∈ (recordGenerations s l r).deletions, d.freed = some d.destroyed ∧
      some d.destroyed ∈ (recordGenerations s l r).committed) ∧
    ((recordGenerations s l r).deletions.map Deletion.destroyed).Nodup ∧
    ((recordGenerations s l r).pushed =
      (recordGenerations s l r).deletions.map fun d => d.spot.toNat) ∧
    ∀ d ∈ (recordGenerations s l r).deletions, d.destroyed < s'.tm.segmentCount ∧
      s'.tm.segment d.destroyed = none := by
  obtain ⟨cells, hspots⟩ := spotsInv (fun _ _ hreach _ => pushesAlone_of_noFailure hreach) hreach
  have htable := tableInv hreach.of_restrict
  obtain ⟨hmove, htm, -⟩ := system_step_move hstep
  have hdeleted : ∀ d ∈ r.deletions, d.freed = some d.destroyed ∧
      some d.destroyed ∈ (recordGenerations s l r).committed := fun d hd =>
    ⟨(h.deleted d hd).1, mem_committed (h.deleted d hd).2⟩
  have hgone : ∀ d ∈ r.deletions, d.destroyed < s'.tm.segmentCount ∧
      s'.tm.segment d.destroyed = none := fun d hd =>
    ⟨(h.gone d hd).1.trans_le (segmentCount_le hstep),
      segment_gone hstep (h.gone d hd).1 (h.gone d hd).2⟩
  rcases hmove.deletion htable hspots.linked r.queued with ⟨hnone, hpushed⟩ |
    ⟨t, i, spot, g, seg, hthread, hevent, hi, hspot, hinst, hsome, hpushed⟩
  · have hsame : (recordGenerations s l r).deletions = r.deletions := by
      simp [recordGenerations, hnone]
    have hsame' : (recordGenerations s l r).pushed = r.pushed := by
      simp [recordGenerations, hpushed]
    rw [hsame, hsame']
    exact ⟨hdeleted, h.once, h.pushed, hgone⟩
  · obtain ⟨freed, hfreed, hentry⟩ := forall₂_getElem? h.queued hi
    obtain rfl : freed = some g := by
      rcases hentry with ⟨n, g', seg', rfl, rfl, hinst'⟩ | ⟨⟨n, g', rfl, rfl, -, -, hnull⟩, -⟩
      · have hsame := hinst.1.symm.trans hinst'.1
        rw [VaEntry.segment.injEq] at hsame
        rw [hsame]
      · have hnamed := hinst.1
        rw [Int.toNat_natCast, hnull] at hnamed
        cases hnamed
    have hnew : (recordGenerations s l r).deletions = r.deletions ++ [⟨spot, some g, g⟩] := by
      simp [recordGenerations, hsome, hfreed]
    have hnew' : (recordGenerations s l r).pushed = r.pushed ++ [spot.toNat] := by
      simp [recordGenerations, hpushed]
    rw [hnew, hnew']
    refine ⟨fun d hd => ?_, ?_, by simp [h.pushed], fun d hd => ?_⟩
    · rcases List.mem_append.mp hd with hd | hd
      · exact hdeleted d hd
      · obtain rfl := List.mem_singleton.mp hd
        exact ⟨rfl, mem_committed (h.committed _ (List.mem_of_getElem? hfreed))⟩
    · rw [List.map_append, List.nodup_append]
      refine ⟨h.once, List.nodup_singleton _, fun x hx y hy => ?_⟩
      obtain ⟨d, hd, rfl⟩ := List.mem_map.mp hx
      obtain rfl := List.mem_singleton.mp hy
      rintro rfl
      have hpresent := hinst.2.1
      simp [(h.gone d hd).2] at hpresent
    · rcases List.mem_append.mp hd with hd | hd
      · exact hgone d hd
      · obtain rfl := List.mem_singleton.mp hd
        refine ⟨(htable.segment_lt _ g hinst.1).trans_le (segmentCount_le hstep), ?_⟩
        rw [htm, hevent]
        simp [Tm.after, Tm.apply, Tm.deleteSegment, hinst.1]

omit hreach in
/-- A transaction that is past its point of no return has its frees among the committed ones. -/
theorem decided_step (tid : Tid) (t : Tx V) (pc : EndPc) (hthread : s'.thread tid = .ending t pc)
    (hpc : pc.decided = true) : ∀ g ∈ (recordGenerations s l r).freed tid,
      g ∈ (recordGenerations s l r).committed := by
  obtain ⟨hmove, -, hother⟩ := system_step_move hstep
  intro g hg
  by_cases heq : tid = l.tid
  · subst heq
    have hdecided := h.decided l.tid
    simp only [recordGenerations, Function.update_self] at hg
    -- only the decision itself brings a transaction here from before it
    have hcases : (∃ t pc, s.thread l.tid = .ending t pc ∧ pc.decided = true) ∨
        (∃ t wv, s.thread l.tid = .ending t (.validated wv) ∧
          ∃ writes, l.event = .op (.commit wv writes)) := by
      generalize s.thread l.tid = thread, l.event = event,
        s'.thread l.tid = thread' at hmove hthread ⊢
      cases hmove with
      | @finish t₀ pc₀ _ _ hmove =>
          cases hmove with
          | commit => exact Or.inr ⟨_, _, rfl, _, rfl⟩
          | copy | copied | release | lockToFree | push => exact Or.inl ⟨_, _, rfl, rfl⟩
          | early | rolledBack | undone | noBatch | wrunlock => cases hthread
          | _ =>
              cases hthread
              cases hpc
      | call hmove =>
          cases hmove <;> cases hthread
          cases hpc
      | begin hmove | read hmove | roRead hmove | write hmove | alloc hmove | free hmove =>
          cases hmove <;> cases hthread
      | start | cleanup | retIdle | retLive => cases hthread
    rcases hcases with ⟨t₀, pc₀, hbefore, hpc₀⟩ | ⟨t₀, wv, hbefore, writes, hevent⟩
    · rw [hbefore] at hg
      exact mem_committed (hdecided t₀ pc₀ hbefore hpc₀ g hg)
    · rw [hbefore] at hg
      simp only [recordGenerations, hevent]
      exact List.mem_append_right _ hg
  · rw [hother tid heq] at hthread
    simp only [recordGenerations, Function.update_of_ne heq] at hg
    exact mem_committed (h.decided tid t pc hthread hpc g hg)

theorem asked_step (hfrees : FreesInstalled s l) (tid : Tid) (t : Tx V) (target : Addr)
    (hthread : s'.thread tid = .freeing t target) : ∃ g seg,
      (recordGenerations s l r).asked tid = some g ∧
        s'.tm.InstalledAt (indexFromVa target).toNat g seg := by
  obtain ⟨hmove, htm, hother⟩ := system_step_move hstep
  by_cases heq : tid = l.tid
  · subst heq
    obtain ⟨t₀, hbefore, hevent⟩ : ∃ t₀, s.thread l.tid = .live t₀ ∧
        l.event = .call (.free target) := by
      generalize s.thread l.tid = thread, l.event = event,
        s'.thread l.tid = thread' at hmove hthread ⊢
      cases hmove with
      | call hmove =>
          cases hmove <;> cases hthread
          exact ⟨_, rfl, rfl⟩
      | begin hmove | read hmove | roRead hmove | write hmove | alloc hmove | free hmove
        | finish hmove => cases hmove <;> cases hthread
      | start | cleanup | retIdle | retLive => cases hthread
    obtain ⟨g, seg, hinst⟩ := hfrees target hevent
    refine ⟨g, seg, ?_, ?_⟩
    · simp [recordGenerations, hevent, Tm.segAt, hinst.1]
    · rw [htm, hevent]
      exact hinst
  · rw [hother tid heq] at hthread
    obtain ⟨g, seg, hasked, hinst⟩ := h.asked tid t target hthread
    have hsame : (recordGenerations s l r).asked tid = r.asked tid := by
      unfold recordGenerations
      cases l.event with
      | call c => cases c <;> simp [heq]
      | _ => rfl
    exact ⟨g, seg, hsame.trans hasked, installed_step hreach hstep (by rw [hthread]; rfl) hinst⟩

/-- A batch deletion lets go of the lock with an empty queue. -/
theorem reset_step (tid : Tid) (t : Tx V) (hthread : s'.thread tid = .ending t .wrunlock) :
    s'.tm.toFree = [] := by
  obtain ⟨holders, lost, hholds⟩ := holdsInv hreach.of_restrict
  obtain ⟨hmove, htm, hother⟩ := system_step_move hstep
  by_cases heq : tid = l.tid
  · subst heq
    have hevent : l.event = .op .resetToFree := by
      generalize s.thread l.tid = thread, l.event = event,
        s'.thread l.tid = thread' at hmove hthread ⊢
      cases hmove with
      | @finish t₀ pc₀ _ _ hmove =>
          cases hmove with
          | drained => rfl
          | copied => split at hthread <;> cases hthread
          | _ => cases hthread
      | call hmove | begin hmove | read hmove | roRead hmove | write hmove | alloc hmove
      | free hmove =>
          cases hmove <;> cases hthread
      | start | cleanup | retIdle | retLive => cases hthread
    rw [htm, hevent]
    rfl
  · rw [hother tid heq] at hthread
    cases hmove.queueNext [] [] with
    | same hqueue => rw [htm, hqueue, h.reset tid t hthread]
    | push hpush =>
        have hdrains : (s.thread tid).drains = true := by rw [hthread]; rfl
        have hheld := hholds.not_holds_of_drains hdrains l.tid
        rw [hpush] at hheld
        cases hheld
    | reset hqueue => rw [htm, hqueue]

theorem step (hfrees : FreesInstalled s l) : GenerationsInv s' (recordGenerations s l r) := by
  obtain ⟨hdeleted, honce, hpushed, hgone⟩ := h.deletion_step hreach hstep
  exact ⟨⟨h.own_step hreach hstep, h.queued_step hreach hstep, hdeleted, honce, hpushed⟩,
    h.asked_step hreach hstep hfrees, h.decided_step hstep, h.committed_step hstep,
    h.reset_step hreach hstep, hgone⟩

omit hreach hstep h in
theorem init (h : (system Tid platform).init s) :
    GenerationsInv s ⟨fun _ => none, fun _ => [], [], [], [], []⟩ := by
  have hidle := h.1
  obtain ⟨-, choice, size, align, -, -, -, -, hcreate⟩ := h
  obtain ⟨-, -, htm⟩ := tmCreate_eq hcreate
  have hqueue : s.tm.toFree = [] := by simp [htm, Tm.created, Tm.bare]
  refine ⟨⟨fun tid t hheld => ?_, by rw [hqueue]; exact .nil, by simp, List.nodup_nil, rfl⟩, ?_, ?_,
    by simp, fun _ _ _ => hqueue, by simp⟩
  · simp [hidle tid, Thread.holds] at hheld
  · simp [hidle]
  · simp [hidle]

end GenerationsInv

theorem generationsInv {p : State Tid V × GenerationRecord Tid}
    (h : (generationMachine Tid platform).Reachable p) : GenerationsInv p.1 p.2 := by
  refine h.invariant (P := fun p => GenerationsInv p.1 p.2) (fun p hp => ?_)
    fun p l p' hreach ih hs => ?_
  · rw [hp.2]
    exact GenerationsInv.init (show (system Tid platform).init p.1 from hp.1)
  · have hallowed : ((system Tid platform).restrict NoFailure).Reachable p.1 :=
      hreach.of_observe.restrict_le fun _ _ hok => hok.1
    rw [hs.2]
    exact ih.step hallowed hs.1.2 hs.1.1.2

end Invariant

/-! ### One segment, freed over and over -/

def freesInstalled [Zero V] (s : State Tid V) (l : Label Tid V) : Bool :=
  match l.event with
  | .call (.free target) =>
      ((s.tm.segAt (indexFromVa target).toNat).bind s.tm.segment).any fun seg => seg.state = .ready
  | _ => true

/-- Two transactions free one segment as often as it takes for a batch deletion, the one that has
allocated it and then the one that writes to it. -/
def freedRepeatedly : Schedule Bool Nat :=
  calls true (.begin false) 3 ++ calls true (.write [7] 8 (vaFromIndex 0 0)) 3 ++
    calls true (.alloc 8) 8 ++ calls false (.begin false) 3 ++
    (List.replicate 127 (calls true (.free (vaFromIndex 1 0)) 2)).flatten ++
    calls false (.write [8] 8 (vaFromIndex 1 0)) 3 ++ calls true .finish 141 ++
    calls false (.free (vaFromIndex 1 0)) 2 ++ calls false .finish 147

end TransactionalMemory
