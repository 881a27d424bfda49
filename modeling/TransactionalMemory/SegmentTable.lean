import TransactionalMemory.Proof.Entries
import TransactionalMemory.SpotCirculation

/-!
# The segment table and failing allocations

`segment_init` stores the pointer to its struct before it has anything else, and nobody takes it
back when the data or the locks fail: a later `tm_destroy` frees pointers that were never set. A
failed `tm_alloc` without a node follows a null pointer. Where none of this happens the table has a
finished segment or a null pointer at every index, the free list has only indices with null
pointers, every `tm_alloc` goes on to an answer that is true, and `tm_destroy` frees every block of
the region once.
-/

namespace TransactionalMemory

open Concurrency

variable {V Tid : Type}

/-- At this point of `tm_alloc` the index is inside `va_arr` and no allocation fails that a call
with its struct, or on its way out, cannot do without. A failure at the struct is one of the data
too. -/
def AllocPc.granted (tm : Tm V) (choice : Choice V) (size : Nat) : AllocPc → Bool
  | .initStruct spot =>
      decide (spot < vaSize) && (choice.mallocOk 0 || !posixMemalign tm.align (choice.mallocOk 1))
  | .initData _ _ => posixMemalign tm.align (choice.mallocOk 0)
  | .initLocks _ _ => mallocLocks (toInt (size / tm.align : Nat)) (choice.mallocOk 0)
  | .pushNode _ => choice.mallocOk 0
  | _ => true

def AllocationsGranted (s : State Tid V) (tid : Tid) (choice : Choice V) : Prop :=
  ∀ t size pc, s.thread tid = .allocating t size pc → pc.granted s.tm choice size = true

/-- What an answer of `tm_alloc` says about the index that the call had taken. -/
def AllocResult.Sound (tm : Tm V) (spot size : Nat) : AllocResult → Prop
  | .success target =>
      target = vaFromIndex spot 0 ∧ ∃ g seg, tm.InstalledAt spot g seg ∧ seg.size = size
  | .nomem => tm.vaArr spot = .null

structure TableIntact [Zero V] [DecidableEq Tid] (platform : Platform V) (s : State Tid V) :
    Prop where
  /-- An entry that no `tm_alloc` is working on. -/
  entries : ∀ spot < s.tm.vaN, (∀ tid, (s.thread tid).claim ≠ some spot) →
    s.tm.vaArr spot = .null ∨ ∃ g seg, s.tm.InstalledAt spot g seg
  /-- The free list, which has every node but those in the hands of a call. -/
  free : ∃ cells, Linked EmptySpot.next s.tm.node s.tm.emptySpots cells ∧
    (∀ e ∈ cells, s.tm.vaArr e.2.index = .null) ∧
    ∀ n c, s.tm.node n = some c → (n, c) ∈ cells ∨ ∃ tid, (s.thread tid).node = some n
  /-- A `tm_alloc` that has found no memory has left nothing in the table. -/
  failed : ∀ tid spot, (s.thread tid).failed = some spot → s.tm.vaArr spot = .null
  /-- No segment is allocated but those in the table. -/
  owned : ∀ g seg, s.tm.segment g = some seg → ∃ spot < s.tm.vaN, s.tm.vaArr spot = .segment g
  /-- A `tm_alloc` goes on, or waits for the mutex, whatever it is granted. -/
  goesOn : ∀ tid choice, (s.thread tid).allocPc ≠ none → AllocationsGranted s tid choice →
    s.step platform tid choice ≠ .crash
  answered : ∀ tid choice t size pc spot event s' result t',
    s.thread tid = .allocating t size pc → pc.claim = some spot → AllocationsGranted s tid choice →
    s.step platform tid choice = .next (event, s') →
    s'.thread tid = .returning (.alloc result) t' → result.Sound s'.tm spot size
  /-- With no transaction running, `tm_destroy` frees what is allocated, each block once. -/
  destroyed : (∀ tid, s.thread tid = .idle) → ∃ freed, tmDestroy s.tm = some freed ∧ freed.Nodup ∧
    ∀ b, b ∈ freed ↔ s.tm.allocated b = true

/-! ### What `tm_destroy` frees -/

section Destroy

variable {tm : Tm V} {freed : List Block} {cells : List (NodeId × EmptySpot)}

def entryBlocks (tm : Tm V) (i : Nat) : List Block :=
  match tm.vaArr i with
  | .segment s => [.data s, .locks s, .segment s]
  | _ => []

def regionBlocks (tm : Tm V) (cells : List (NodeId × EmptySpot)) : List Block :=
  (List.range tm.vaN).flatMap (entryBlocks tm) ++ cells.map (fun e => .node e.1) ++ [.vaArr] ++
    (if tm.toFreeNull then [] else [.toFree]) ++ [.shared]

theorem foldlM_cleanupEntry (freed : List Block) {is : List Nat}
    (hentries : ∀ i ∈ is, i < vaSize ∧ tm.vaArr i ≠ .garbage) :
    is.foldlM (cleanupEntry tm) freed =
      releaseAll tm.allocated freed (is.flatMap (entryBlocks tm)) := by
  induction is generalizing freed with
  | nil => rfl
  | cons i is ih =>
      obtain ⟨hlt, hentry⟩ := hentries i List.mem_cons_self
      have hturn : cleanupEntry tm freed i = releaseAll tm.allocated freed (entryBlocks tm i) := by
        rw [cleanupEntry, if_pos hlt, entryBlocks]
        cases hvaArr : tm.vaArr i with
        | garbage => exact absurd hvaArr hentry
        | null => rfl
        | segment s => rfl
      rw [List.foldlM_cons, hturn, List.flatMap_cons, releaseAll_append]
      exact congrArg _ (funext fun freed => ih _ fun i hi => hentries i (List.mem_cons_of_mem _ hi))

theorem cleanupSpots_eq {head : Option NodeId} {fuel : Nat}
    (hlinked : Linked EmptySpot.next tm.node head cells) (hfuel : cells.length ≤ fuel) :
    cleanupSpots tm fuel head freed =
      releaseAll tm.allocated freed (cells.map fun e => .node e.1) := by
  induction hlinked generalizing fuel freed with
  | nil => cases fuel <;> rfl
  | @cons n c rest hcell _ ih =>
      obtain ⟨fuel, rfl⟩ : ∃ k, fuel = k + 1 := ⟨fuel - 1, by simp at hfuel; omega⟩
      rw [cleanupSpots, hcell, Option.bind_some, List.map_cons, releaseAll_cons]
      exact congrArg _ (funext fun freed => ih (by simpa using hfuel))

theorem tmDestroy_eq (hentries : ∀ i < tm.vaN, i < vaSize ∧ tm.vaArr i ≠ .garbage)
    (hlinked : Linked EmptySpot.next tm.node tm.emptySpots cells)
    (hlength : cells.length ≤ tm.nodeCount) :
    tmDestroy tm = releaseAll tm.allocated [] (regionBlocks tm cells) := by
  have hrange : ∀ i ∈ List.range tm.vaN, i < vaSize ∧ tm.vaArr i ≠ .garbage :=
    fun i hi => hentries i (List.mem_range.mp hi)
  have hturns := foldlM_cleanupEntry [] hrange
  simp only [tmDestroy, tmCleanup, hturns, regionBlocks, releaseAll_append, releaseAll_singleton,
    Option.bind_eq_bind, Option.bind_assoc]
  congr 1
  funext freed
  rw [cleanupSpots_eq hlinked hlength]
  congr 1
  funext freed
  congr 1
  funext freed
  cases tm.toFreeNull <;> simp

theorem mem_entryBlocks {i : Nat} {b : Block} (h : b ∈ entryBlocks tm i) :
    ∃ s, tm.vaArr i = .segment s ∧ (b = .data s ∨ b = .locks s ∨ b = .segment s) := by
  unfold entryBlocks at h
  split at h
  · rename_i s hs
    exact ⟨s, hs, by simpa using h⟩
  · cases h

theorem mem_regionBlocks {b : Block} : b ∈ regionBlocks tm cells ↔
    (∃ i < tm.vaN, b ∈ entryBlocks tm i) ∨ (∃ e ∈ cells, b = .node e.1) ∨ b = .vaArr ∨
      (tm.toFreeNull = false ∧ b = .toFree) ∨ b = .shared := by
  cases hnull : tm.toFreeNull <;>
    simp [regionBlocks, hnull, List.mem_flatMap, eq_comm]

theorem regionBlocks_nodup (htable : tm.TableInv) (hnodup : (cells.map fun e => e.1).Nodup) :
    (regionBlocks tm cells).Nodup := by
  have hentries : ((List.range tm.vaN).flatMap (entryBlocks tm)).Nodup := by
    refine List.nodup_flatMap.mpr ⟨fun i _ => ?_, List.nodup_range.imp fun {i j} hne => ?_⟩
    · unfold entryBlocks
      split <;> simp
    · intro b hi hj
      obtain ⟨s, hs, hb⟩ := mem_entryBlocks hi
      obtain ⟨s', hs', hb'⟩ := mem_entryBlocks hj
      have hsame : s = s' := by
        rcases hb with rfl | rfl | rfl <;> rcases hb' with hb' | hb' | hb' <;> cases hb' <;> rfl
      exact hne (htable.segment_inj i j s hs (hsame ▸ hs'))
  have hnodes : (cells.map fun e => Block.node e.1).Nodup := by
    have hmap : cells.map (fun e => Block.node e.1) = (cells.map fun e => e.1).map Block.node := by
      simp
    rw [hmap]
    exact hnodup.map fun _ _ heq => Block.node.inj heq
  have hkinds : ∀ b ∈ (List.range tm.vaN).flatMap (entryBlocks tm),
      ∃ s, b = .data s ∨ b = .locks s ∨ b = .segment s := by
    intro b hb
    obtain ⟨i, -, hi⟩ := List.mem_flatMap.mp hb
    obtain ⟨s, -, hb⟩ := mem_entryBlocks hi
    exact ⟨s, hb⟩
  have hfields : ([.vaArr] ++ (if tm.toFreeNull then [] else [.toFree]) ++ [.shared] :
      List Block).Nodup := by
    cases tm.toFreeNull <;> decide
  rw [regionBlocks, List.append_assoc _ [Block.vaArr], List.append_assoc]
  refine List.nodup_append.mpr ⟨List.nodup_append.mpr ⟨hentries, hnodes, ?_⟩, hfields, ?_⟩
  · rintro b hb _ hnode rfl
    obtain ⟨s, rfl | rfl | rfl⟩ := hkinds b hb <;> simp at hnode
  · rintro b hb _ hfield rfl
    rcases List.mem_append.mp hb with hb | hb
    · obtain ⟨s, rfl | rfl | rfl⟩ := hkinds b hb <;> cases hnull : tm.toFreeNull <;>
        simp [hnull] at hfield
    · obtain ⟨e, -, rfl⟩ := List.mem_map.mp hb
      cases hnull : tm.toFreeNull <;> simp [hnull] at hfield

end Destroy

/-! ### Every run -/

section Runs

variable [Zero V] [DecidableEq Tid] {platform : Platform V} {s : State Tid V}

omit [Zero V] [DecidableEq Tid] in
/-- `tm_destroy` finds every block through the table and the list. -/
theorem destroys_exactly (hentries : EntriesInv s) {cells : List (NodeId × EmptySpot)}
    (hspots : SpotsInv s cells) (htable : s.tm.TableInv) (hidle : ∀ tid, s.thread tid = .idle) :
    ∃ freed, tmDestroy s.tm = some freed ∧ freed.Nodup ∧
      ∀ b, b ∈ freed ↔ s.tm.allocated b = true := by
  have hlive : ∀ i < s.tm.vaN, s.tm.Live i ∨ s.tm.vaArr i = .null := fun i hlt =>
    hentries.settled i hlt fun tid => by simp [hidle tid, Thread.claim, Thread.allocPc]
  have hwritten : ∀ i < s.tm.vaN, i < vaSize ∧ s.tm.vaArr i ≠ .garbage := by
    intro i hlt
    have hne : s.tm.vaArr i ≠ .garbage := by
      rcases hlive i hlt with ⟨g, seg, hg, -⟩ | hnull
      · simp [hg]
      · simp [hnull]
    exact ⟨hentries.spot_lt i hne, hne⟩
  have hnodes := hspots.nodes_nodup
  have hlength : cells.length ≤ s.tm.nodeCount := by
    have hsub : (cells.map fun e => e.1) ⊆ List.range s.tm.nodeCount := by
      intro n hn
      obtain ⟨e, he, rfl⟩ := List.mem_map.mp hn
      exact List.mem_range.mpr (hspots.mem_lt htable he)
    simpa using (hnodes.subperm hsub).length_le
  have hallocated : ∀ b, b ∈ regionBlocks s.tm cells ↔ s.tm.allocated b = true := by
    intro b
    rw [mem_regionBlocks]
    constructor
    · rintro (⟨i, hlt, hi⟩ | ⟨e, he, rfl⟩ | rfl | ⟨hnull, rfl⟩ | rfl)
      · obtain ⟨g, hg, hb⟩ := mem_entryBlocks hi
        obtain ⟨g', seg, hg', hseg, hready⟩ := (hlive i hlt).resolve_right (by simp [hg])
        obtain rfl : g = g' := by simpa [hg] using hg'
        rcases hb with rfl | rfl | rfl <;> simp [Tm.allocated, hseg, hready]
      · simp [Tm.allocated, hspots.linked.cell he]
      · rfl
      · simp [Tm.allocated, hnull]
      · rfl
    · have hsegment : ∀ g seg, s.tm.segment g = some seg →
          ∃ i < s.tm.vaN, s.tm.vaArr i = .segment g := by
        intro g seg hseg
        obtain ⟨i, hi⟩ := hentries.owned g seg hseg
        refine ⟨i, lt_of_not_ge fun hge => ?_, hi⟩
        simp [hentries.beyond i hge] at hi
      intro hb
      cases b with
      | shared | vaArr => simp
      | toFree =>
          have hnull : s.tm.toFreeNull = false := by simpa [Tm.allocated] using hb
          exact Or.inr (Or.inr (Or.inr (Or.inl ⟨hnull, rfl⟩)))
      | node n =>
          obtain ⟨c, hc⟩ := Option.isSome_iff_exists.mp hb
          have hunheld : ¬ ∃ tid, (s.thread tid).node = some n := by
            rintro ⟨tid, htid⟩
            simp [hidle tid, Thread.node, Thread.allocPc] at htid
          have hmem := (hentries.nodes cells hspots.linked n c hc).resolve_right hunheld
          exact Or.inr (Or.inl ⟨(n, c), hmem, rfl⟩)
      | segment g =>
          obtain ⟨seg, hseg⟩ := Option.isSome_iff_exists.mp hb
          obtain ⟨i, hlt, hi⟩ := hsegment g seg hseg
          exact Or.inl ⟨i, hlt, by simp [entryBlocks, hi]⟩
      | data g | locks g =>
          obtain ⟨seg, hseg, -⟩ := (Option.any_eq_true _ _).mp hb
          obtain ⟨i, hlt, hi⟩ := hsegment g seg hseg
          exact Or.inl ⟨i, hlt, by simp [entryBlocks, hi]⟩
  have hnodup := regionBlocks_nodup htable hnodes
  refine ⟨regionBlocks s.tm cells, ?_, hnodup, hallocated⟩
  rw [tmDestroy_eq hwritten hspots.linked hlength]
  simpa using releaseAll_eq [] (fun b hb => (hallocated b).mp hb) (by simpa using hnodup)

omit [Zero V] [DecidableEq Tid] in
theorem ThreadMove.built {l : Label Tid V} {thread' : Thread V}
    (hmove : ThreadMove platform s.tm l.choice (s.thread l.tid) l.event thread')
    (hgranted : AllocationsGranted s l.tid l.choice) : SegmentsBuilt s l := by
  unfold AllocationsGranted at hgranted
  unfold SegmentsBuilt
  generalize s.thread l.tid = thread, l.event = event at hmove hgranted
  cases hmove with
  | @alloc t size pc _ _ hmove =>
      have hpc := hgranted t size pc rfl
      cases hmove with
      | noData hmalloc =>
          rw [AllocPc.granted, hmalloc] at hpc
          cases hpc
      | noLocks hmalloc =>
          rw [AllocPc.granted, hmalloc] at hpc
          cases hpc
      | _ => simp
  | call h | begin h | read h | roRead h | write h | free h | finish h => cases h <;> simp
  | start | cleanup | retIdle | retLive => simp

/-- What `tm_alloc` answers at its end. -/
theorem answered_sound {cells : List (NodeId × EmptySpot)} (hspots : SpotsInv s cells)
    (hsegments : SegmentsInv s) (hentries : EntriesInv s) {tid : Tid} {choice : Choice V} {t : Tx V}
    {size spot : Nat} {pc : AllocPc} {event : Event V} {s' : State Tid V} {result : AllocResult}
    {t' : Option (Tx V)} (hthread : s.thread tid = .allocating t size pc)
    (hclaim : pc.claim = some spot) (hstep : s.step platform tid choice = .next (event, s'))
    (hret : s'.thread tid = .returning (.alloc result) t') : result.Sound s'.tm spot size := by
  obtain ⟨hmove, htm, -⟩ := system_step_move (l := ⟨tid, choice, event⟩) hstep
  have hfacts := hspots.facts_eq hthread
  have hbuilding := hsegments.building tid
  have hfailed := hentries.failed tid
  rw [EntriesInv.failed_eq hthread] at hfailed
  rw [hret, hthread] at hmove
  rw [hthread] at hbuilding
  cases hmove with
  | alloc hmove =>
      cases hmove with
      | @initLocks spot' g =>
          obtain rfl : spot' = spot := Option.some.inj hclaim
          obtain ⟨seg, hseg, -⟩ := hbuilding g .filled rfl
          refine ⟨rfl, g, { seg with size := size, state := .ready }, ⟨?_, ?_, rfl⟩, rfl⟩
          · rw [htm]
            exact hfacts
          · rw [htm]
            simp [Tm.after, Tm.apply, Tm.setSegment, hseg]
      | @pushStore spot' n =>
          obtain rfl : spot' = spot := Option.some.inj hclaim
          have hnull := hfailed spot' rfl
          rw [htm]
          exact hnull

/-- **The table stays intact** in every run in which `tm_alloc` is granted what it cannot do without
and a failed call pushes its spot back alone. -/
theorem table_intact
    (h : ((system Tid platform).restrict fun s l =>
      AllocationsGranted s l.tid l.choice ∧ PushesAlone s l).Reachable s) :
    TableIntact platform s := by
  have hsteps : ∀ s l s',
      ((system Tid platform).restrict fun s l =>
        AllocationsGranted s l.tid l.choice ∧ PushesAlone s l).step s l s' →
      ((system Tid platform).restrict fun s l => SegmentsBuilt s l ∧ PushesAlone s l).step s l s' :=
    fun _ _ _ hs => ⟨⟨(system_step_move hs.2).1.built hs.1.1, hs.1.2⟩, hs.2⟩
  have hbuilt := h.mono hsteps fun _ => id
  have hsystem := h.of_restrict
  have hentries := entriesInv (fun _ _ h => h.1) (fun _ _ _ h => h.2) hbuilt
  obtain ⟨cells, hspots⟩ := spotsInv (fun _ _ _ h => h.2) hbuilt
  refine ⟨fun spot hlt hunclaimed => ?_,
    ⟨cells, hspots.linked, fun e he => hentries.null_of_free hspots he,
      hentries.nodes cells hspots.linked⟩,
    hentries.failed, fun g seg hseg => ?_, fun tid choice halloc hgranted => ?_,
    fun tid choice t size pc spot event s' result t' hthread hclaim _ hstep hret => ?_,
    destroys_exactly hentries hspots (tableInv hsystem)⟩
  · rcases hentries.settled spot hlt hunclaimed with ⟨g, seg, hinst⟩ | hnull
    · exact Or.inr ⟨g, seg, hinst⟩
    · exact Or.inl hnull
  · obtain ⟨spot, hspot⟩ := hentries.owned g seg hseg
    refine ⟨spot, lt_of_not_ge fun hge => ?_, hspot⟩
    simp [hentries.beyond spot hge] at hspot
  · obtain ⟨pc, hpc⟩ := Option.ne_none_iff_exists'.mp halloc
    obtain ⟨t, size, hthread⟩ := Thread.eq_of_allocPc hpc
    have hpcGranted := hgranted t size pc hthread
    have hgoes : tmAllocStep s.tm choice t size pc ≠ .crash := by
      refine hspots.tmAllocStep_ne_crash hthread (fun heq => ?_) (fun spot heq => ?_)
        fun spot heq => ?_
      · exact emptySpots_ne_none hsystem tid (heq ▸ hpc)
      · subst heq
        simpa [AllocPc.granted] using hpcGranted
      · subst heq
        exact hpcGranted
    refine State.step_ne_crash ?_
    rw [hthread]
    exact hgoes
  · exact answered_sound hspots (segmentsInv hsystem) hentries hthread hclaim hstep hret

end Runs

def tableOk (s : State Bool Nat) (l : Label Bool Nat) : Bool :=
  pushesAlone s l &&
    match s.thread l.tid with
    | .allocating _ size pc => pc.granted s.tm l.choice size
    | _ => true

theorem tableOk_sound (s : State Bool Nat) (l : Label Bool Nat) (h : tableOk s l = true) :
    AllocationsGranted s l.tid l.choice ∧ PushesAlone s l := by
  rw [tableOk, Bool.and_eq_true] at h
  refine ⟨fun t size pc hthread => ?_, pushesAlone_sound s l h.1⟩
  have hgranted := h.2
  rw [hthread] at hgranted
  exact hgranted

/-- One call finds no memory for its segment, another one takes over its index, and both
transactions commit. -/
def allocsAndCommits : Schedule Bool Nat :=
  calls true (.begin false) 3 ++ calls false (.begin false) 3 ++ calls true (.alloc 8) 4 ++
    [(true, { mallocs := [false, false] })] ++ steps true 3 ++ calls false (.alloc 8) 12 ++
    calls true .finish 2 ++ calls false .finish 2

theorem table_intact_of_failure : ∃ s : State Bool Nat, s.tm.vaN = 2 ∧ s.tm.vaArr 1 = .segment 1 ∧
    (∀ tid, s.thread tid = .idle) ∧ TableIntact (Platform.x86 Nat) s := by
  let test : State Bool Nat × Unit → Bool := fun p =>
    decide (p.1.tm.vaN = 2) && decide (p.1.tm.vaArr 1 = .segment 1) && (p.1.thread true).isIdle &&
      (p.1.thread false).isIdle
  have hrun : ∃ p, (((system Bool (Platform.x86 Nat)).restrict fun s l =>
      AllocationsGranted s l.tid l.choice ∧ PushesAlone s l).observe ()
      fun _ _ _ => ()).Reachable p ∧ test p = true :=
    exists_of_schedule tableOk tableOk_sound (State.fresh_init_words 1 (by decide) (by decide))
      allocsAndCommits test (by decide +kernel)
  obtain ⟨p, hreach, htest⟩ := hrun
  simp only [test, Bool.and_eq_true, decide_eq_true_eq] at htest
  obtain ⟨⟨⟨hvaN, hentry⟩, htrue⟩, hfalse⟩ := htest
  refine ⟨p.1, hvaN, hentry, fun tid => ?_, table_intact hreach.of_observe⟩
  cases tid with
  | true => exact Thread.eq_of_isIdle htrue
  | false => exact Thread.eq_of_isIdle hfalse

def allocFails : Schedule Unit Nat :=
  calls () (.begin false) 3 ++ calls () (.alloc 8) 5 ++ [((), { mallocs := [false] })] ++
    steps () 3 ++ calls () .finish 2

/-- **A failed allocation** leaves its struct in the table, under a spot of the free list, and
`tm_destroy` frees the data pointer that was never set. -/
theorem table_broken : ¬ ∀ s : State Unit Nat,
    (system Unit (Platform.x86 Nat)).Reachable s → TableIntact (Platform.x86 Nat) s := by
  intro hall
  let test : State Unit Nat × Unit → Bool := fun p =>
    (p.1.thread ()).isIdle && (tmDestroy p.1.tm).isNone
  have hrun : ∃ p, (((system Unit (Platform.x86 Nat)).restrict fun _ _ => True).observe ()
      fun _ _ _ => ()).Reachable p ∧ test p = true :=
    exists_of_schedule (fun _ _ => true) (fun _ _ _ => trivial)
      (State.fresh_init_words 1 (by decide) (by decide)) allocFails test (by decide +kernel)
  obtain ⟨p, hreach, htest⟩ := hrun
  simp only [test, Bool.and_eq_true, Option.isNone_iff_eq_none] at htest
  obtain ⟨hidle, hdestroy⟩ := htest
  have hintact := hall p.1 hreach.of_restrict_observe.of_observe
  obtain ⟨freed, hfreed, -⟩ := hintact.destroyed fun _ => Thread.eq_of_isIdle hidle
  rw [hdestroy] at hfreed
  cases hfreed

end TransactionalMemory
