import TransactionalMemory.Library.Linked
import TransactionalMemory.Proof.Spots

/-!
# The free list under all its users

The list at `tm->empty_spots`, the spots that calls of `tm_alloc` have taken and the spots with a
live segment are together the circulation of the indices below `va_n`, at every step of every run
that pushes on the failure path of `tm_alloc` only while nobody else uses the list.
-/

namespace TransactionalMemory

open Concurrency

variable {V Tid : Type}

/-- A failed `tm_alloc` stores the new head of the list while the list is as it was when the node
was filled in, and while no other `tm_alloc` is taking the head off. -/
def PushesAlone (s : State Tid V) (l : Label Tid V) : Prop :=
  ∀ t size spot n, s.thread l.tid = .allocating t size (.pushStore spot n) →
    (∀ c, s.tm.node n = some c → c.next = s.tm.emptySpots) ∧ ∀ tid, (s.thread tid).popping = false

structure SpotsInv (s : State Tid V) (cells : List (NodeId × EmptySpot)) : Prop where
  linked : Linked EmptySpot.next s.tm.node s.tm.emptySpots cells
  circulation : Circulation s.tm.vaN (cells.map fun e => e.2.index)
    (fun tid => (s.thread tid).claim) s.tm.Live
  facts : ∀ tid pc, (s.thread tid).allocPc = some pc → pc.Facts s.tm
  node_ne : ∀ tid n, (s.thread tid).node = some n → s.tm.node n ≠ none
  unlisted : ∀ tid n c, (s.thread tid).node = some n → (n, c) ∉ cells
  node_inj : ∀ tid tid' n, (s.thread tid).node = some n → (s.thread tid').node = some n → tid = tid'

namespace SpotsInv

variable {s s' : State Tid V} {cells cells' : List (NodeId × EmptySpot)} {u : Tid}

section Transfer

/-- A step after which the mover's spot and node may be others. -/
theorem of_own [DecidableEq Tid] (h : SpotsInv s cells)
    (hother : ∀ tid, tid ≠ u → s'.thread tid = s.thread tid)
    (hlinked : Linked EmptySpot.next s'.tm.node s'.tm.emptySpots cells')
    (hcirculation : Circulation s'.tm.vaN (cells'.map fun e => e.2.index)
      (Function.update (fun tid => (s.thread tid).claim) u (s'.thread u).claim) s'.tm.Live)
    (hfacts : ∀ pc, (s'.thread u).allocPc = some pc → pc.Facts s'.tm)
    (hown : ∀ n, (s'.thread u).node = some n → s'.tm.node n ≠ none ∧ (∀ c, (n, c) ∉ cells') ∧
      ∀ tid, tid ≠ u → (s.thread tid).node ≠ some n)
    (hframe : ∀ tid pc, tid ≠ u → (s.thread tid).allocPc = some pc → pc.Facts s.tm → pc.Facts s'.tm)
    (hkeep : ∀ tid n, tid ≠ u → (s.thread tid).node = some n →
      s'.tm.node n ≠ none ∧ ∀ c, (n, c) ∉ cells') : SpotsInv s' cells' := by
  refine ⟨hlinked, ?_, fun tid pc hpc => ?_, fun tid n hn => ?_, fun tid n c hn => ?_,
    fun tid tid' n hn hn' => ?_⟩
  · have hclaims : (fun tid => (s'.thread tid).claim) =
        Function.update (fun tid => (s.thread tid).claim) u (s'.thread u).claim := by
      funext tid
      by_cases heq : tid = u
      · rw [heq, Function.update_self]
      · rw [Function.update_of_ne heq, hother tid heq]
    rw [hclaims]
    exact hcirculation
  · by_cases heq : tid = u
    · exact hfacts pc (heq ▸ hpc)
    · rw [hother tid heq] at hpc
      exact hframe tid pc heq hpc (h.facts tid pc hpc)
  · by_cases heq : tid = u
    · exact (hown n (heq ▸ hn)).1
    · rw [hother tid heq] at hn
      exact (hkeep tid n heq hn).1
  · by_cases heq : tid = u
    · exact (hown n (heq ▸ hn)).2.1 c
    · rw [hother tid heq] at hn
      exact (hkeep tid n heq hn).2 c
  · by_cases heq : tid = u
    · by_cases heq' : tid' = u
      · rw [heq, heq']
      · rw [hother tid' heq'] at hn'
        exact absurd hn' ((hown n (heq ▸ hn)).2.2 tid' heq')
    · rw [hother tid heq] at hn
      by_cases heq' : tid' = u
      · exact absurd hn ((hown n (heq' ▸ hn')).2.2 tid heq)
      · rw [hother tid' heq'] at hn'
        exact h.node_inj tid tid' n hn hn'

/-- A step that leaves the list, the counter and the live spots alone. -/
theorem of_still [DecidableEq Tid] (h : SpotsInv s cells)
    (hother : ∀ tid, tid ≠ u → s'.thread tid = s.thread tid)
    (hhead : s'.tm.emptySpots = s.tm.emptySpots) (hnode : s'.tm.node = s.tm.node)
    (hvaN : s'.tm.vaN = s.tm.vaN) (hvaArr : s'.tm.vaArr = s.tm.vaArr)
    (hlive : ∀ x, s'.tm.Live x ↔ s.tm.Live x)
    (hclaim : (s'.thread u).claim = (s.thread u).claim)
    (hown : (s'.thread u).node = (s.thread u).node)
    (hfacts : ∀ pc, (s'.thread u).allocPc = some pc → pc.Facts s.tm) : SpotsInv s' cells := by
  have hframe : ∀ pc : AllocPc, pc.Facts s.tm → pc.Facts s'.tm := fun pc hpc =>
    hpc.frame (fun _ => hhead) (fun n _ _ => by rw [hnode]) fun spot _ => by rw [hvaArr]
  refine h.of_own hother ?_ ?_ (fun pc hpc => hframe pc (hfacts pc hpc)) ?_
    (fun tid pc _ _ hpc => hframe pc hpc) ?_
  · rw [hhead, hnode]
    exact h.linked
  · rw [hvaN, hclaim, Function.update_eq_self]
    exact h.circulation.congr hlive
  · intro n hn
    rw [hown] at hn
    rw [hnode]
    exact ⟨h.node_ne u n hn, fun c => h.unlisted u n c hn,
      fun tid hne hn' => hne (h.node_inj tid u n hn' hn)⟩
  · intro tid n _ hn
    rw [hnode]
    exact ⟨h.node_ne tid n hn, fun c => h.unlisted tid n c hn⟩

theorem claim_eq {t : Tx V} {size : Nat} {pc : AllocPc}
    (hthread : s.thread u = .allocating t size pc) : (s.thread u).claim = pc.claim := by
  rw [hthread]
  rfl

theorem node_eq {t : Tx V} {size : Nat} {pc : AllocPc}
    (hthread : s.thread u = .allocating t size pc) : (s.thread u).node = pc.node := by
  rw [hthread]
  rfl

theorem facts_eq {t : Tx V} {size : Nat} {pc : AllocPc} (h : SpotsInv s cells)
    (hthread : s.thread u = .allocating t size pc) : pc.Facts s.tm :=
  h.facts u pc (by rw [hthread]; rfl)

/-- The cells of the list are in the heap. -/
theorem mem_lt (h : SpotsInv s cells) (htable : s.tm.TableInv) {e : NodeId × EmptySpot}
    (he : e ∈ cells) : e.1 < s.tm.nodeCount :=
  htable.node_lt e.1 e.2 (h.linked.cell he)

/-- Taking the head off leaves no second cell at its address. -/
theorem head_not_mem (h : SpotsInv s cells) {n : NodeId} {c : EmptySpot} {rest}
    (hcells : cells = (n, c) :: rest) (c' : EmptySpot) : (n, c') ∉ rest := by
  subst hcells
  intro hmem
  have hc := h.linked.cell List.mem_cons_self
  have hc' := h.linked.cell (List.mem_cons_of_mem _ hmem)
  obtain rfl : c = c' := by simpa [hc] using hc'
  have hnodup := h.circulation.free_nodup
  rw [List.map_cons, List.nodup_cons] at hnodup
  exact hnodup.1 (List.mem_map.mpr ⟨(n, c), hmem, rfl⟩)

end Transfer

/-! ### Steps that move a spot -/

section Steps

variable [Zero V] [DecidableEq Tid] {t : Tx V} {size spot : Nat} {pc' : AllocPc}

/-- The store that takes the head off the list. -/
theorem popStore {tmp : NodeId} {next : Option NodeId} (h : SpotsInv s cells) (hmutex : MutexInv s)
    (hother : ∀ tid, tid ≠ u → s'.thread tid = s.thread tid)
    (hbefore : s.thread u = .allocating t size (.popStore spot tmp next))
    (hafter : s'.thread u = .allocating t size (.popFree spot tmp))
    (htm : s'.tm = s.tm.apply (.storeEmptySpots next)) : ∃ cells', SpotsInv s' cells' := by
  obtain ⟨hhead, hcell⟩ : s.tm.emptySpots = some tmp ∧ s.tm.node tmp = some ⟨next, spot⟩ :=
    h.facts_eq hbefore
  obtain ⟨rest, hcells, hrest⟩ := h.linked.head_cell hhead hcell
  have hnode : s'.tm.node = s.tm.node := by rw [htm]; rfl
  refine ⟨rest, h.of_own hother ?_ ?_ ?_ ?_ ?_ ?_⟩
  · rw [hnode, htm]
    exact hrest
  · rw [claim_eq hafter]
    have hidle : (s.thread u).claim = none := claim_eq hbefore
    have hcirculation := h.circulation
    rw [hcells, List.map_cons] at hcirculation
    rw [htm]
    exact hcirculation.take hidle
  · intro pc hpc
    rw [hafter] at hpc
    obtain rfl := Option.some.inj hpc
    trivial
  · intro n hn
    rw [node_eq hafter] at hn
    obtain rfl := Option.some.inj hn
    rw [hnode]
    refine ⟨by simp [hcell], h.head_not_mem hcells, fun tid _ hn => ?_⟩
    exact h.unlisted tid tmp ⟨next, spot⟩ hn (hcells ▸ List.mem_cons_self)
  · intro tid pc hne hpc hfacts
    refine hfacts.frame (fun hpop => ?_) (fun n _ _ => by rw [hnode]) fun x _ => by rw [htm]; rfl
    simp [hmutex.not_popping (by rw [hbefore]; rfl) hne hpc] at hpop
  · intro tid n _ hn
    rw [hnode]
    refine ⟨h.node_ne tid n hn, fun c hmem => h.unlisted tid n c hn ?_⟩
    exact hcells ▸ List.mem_cons_of_mem _ hmem

/-- The node that was taken off is freed. -/
theorem popFree {tmp : NodeId} (h : SpotsInv s cells) (hmutex : MutexInv s)
    (hother : ∀ tid, tid ≠ u → s'.thread tid = s.thread tid)
    (hbefore : s.thread u = .allocating t size (.popFree spot tmp))
    (hafter : s'.thread u = .allocating t size (.unlock spot))
    (htm : s'.tm = s.tm.apply (.freeNode tmp)) : SpotsInv s' cells := by
  have hown : (s.thread u).node = some tmp := node_eq hbefore
  have hnode : ∀ n, n ≠ tmp → s'.tm.node n = s.tm.node n := by
    intro n hne
    simp [htm, Tm.apply, hne]
  have hunlisted : ∀ e ∈ cells, e.1 ≠ tmp := by
    rintro ⟨n, c⟩ hmem rfl
    exact h.unlisted u n c hown hmem
  have hne_of : ∀ tid n, tid ≠ u → (s.thread tid).node = some n → n ≠ tmp := by
    rintro tid n hne hn rfl
    exact hne (h.node_inj tid u n hn hown)
  refine h.of_own hother ?_ ?_ ?_ ?_ ?_ ?_
  · have hhead : s'.tm.emptySpots = s.tm.emptySpots := by rw [htm]; rfl
    rw [hhead]
    exact h.linked.frame fun e he => hnode e.1 (hunlisted e he)
  · have hsame : (s'.thread u).claim = (s.thread u).claim := by
      rw [claim_eq hafter, claim_eq hbefore]
      rfl
    rw [hsame, Function.update_eq_self, htm]
    exact h.circulation
  · intro pc hpc
    rw [hafter] at hpc
    obtain rfl := Option.some.inj hpc
    trivial
  · intro n hn
    rw [node_eq hafter] at hn
    cases hn
  · intro tid pc hne hpc hfacts
    refine hfacts.frame (fun _ => by rw [htm]; rfl) (fun n _ hn => ?_) fun x _ => by rw [htm]; rfl
    rcases hn with hn | hpop
    · exact hnode n (hne_of tid n hne (by simp [Thread.node, hpc, hn]))
    · simp [hmutex.not_popping (by rw [hbefore]; rfl) hne hpc] at hpop
  · intro tid n hne hn
    rw [hnode n (hne_of tid n hne hn)]
    exact ⟨h.node_ne tid n hn, fun c => h.unlisted tid n c hn⟩

/-- A spot from the counter. -/
theorem counter (h : SpotsInv s cells) (hother : ∀ tid, tid ≠ u → s'.thread tid = s.thread tid)
    (hbefore : s.thread u = .allocating t size .counter)
    (hafter : s'.thread u = .allocating t size (.unlock s.tm.vaN))
    (htm : s'.tm = s.tm.apply .nextSpot) : SpotsInv s' cells := by
  have hidle : (s.thread u).claim = none := claim_eq hbefore
  refine h.of_own hother ?_ ?_ ?_ ?_ ?_ ?_
  · rw [htm]
    exact h.linked
  · rw [claim_eq hafter, htm]
    exact h.circulation.grow hidle
  · intro pc hpc
    rw [hafter] at hpc
    obtain rfl := Option.some.inj hpc
    trivial
  · intro n hn
    rw [node_eq hafter] at hn
    cases hn
  · intro tid pc _ _ hfacts
    rw [htm]
    exact hfacts.frame (fun _ => rfl) (fun _ _ _ => rfl) fun _ _ => rfl
  · intro tid n _ hn
    rw [htm]
    exact ⟨h.node_ne tid n hn, fun c => h.unlisted tid n c hn⟩

/-- A segment is started at the call's own spot. -/
theorem newSegment (h : SpotsInv s cells) (htable : s.tm.TableInv)
    (hother : ∀ tid, tid ≠ u → s'.thread tid = s.thread tid)
    (hbefore : s.thread u = .allocating t size (.initStruct spot))
    (hafter : s'.thread u = .allocating t size (.initData spot s.tm.segmentCount))
    (htm : s'.tm = s.tm.apply (.newSegment spot)) : SpotsInv s' cells := by
  have hown : (s.thread u).claim = some spot := claim_eq hbefore
  have hvaArr : s'.tm.vaArr = Function.update s.tm.vaArr spot (.segment s.tm.segmentCount) := by
    rw [htm]
    rfl
  refine h.of_own hother ?_ ?_ ?_ ?_ ?_ ?_
  · rw [htm]
    exact h.linked
  · have hsame : (s'.thread u).claim = (s.thread u).claim := by
      rw [claim_eq hafter, claim_eq hbefore]
      rfl
    have hvaN : s'.tm.vaN = s.tm.vaN := by rw [htm]; rfl
    rw [hsame, Function.update_eq_self, hvaN]
    exact h.circulation.congr
      (htable.live_newSegment (h.circulation.claim_unused u spot hown) hvaArr (by rw [htm]; rfl))
  · intro pc hpc
    rw [hafter] at hpc
    obtain rfl := Option.some.inj hpc
    change s'.tm.vaArr spot = _
    rw [hvaArr, Function.update_self]
  · intro n hn
    rw [node_eq hafter] at hn
    cases hn
  · intro tid pc hne hpc hfacts
    refine hfacts.frame (fun _ => by rw [htm]; rfl) (fun _ _ _ => by rw [htm]; rfl) fun x hx => ?_
    have hspot : x ≠ spot := by
      rintro rfl
      exact hne (h.circulation.claim_inj tid u x (by simp [Thread.claim, hpc, hx]) hown)
    rw [hvaArr, Function.update_of_ne hspot]
  · intro tid n _ hn
    rw [htm]
    exact ⟨h.node_ne tid n hn, fun c => h.unlisted tid n c hn⟩

/-- The entry of the call's own spot is cleared. -/
theorem noSegment (h : SpotsInv s cells) (hother : ∀ tid, tid ≠ u → s'.thread tid = s.thread tid)
    (hbefore : s.thread u = .allocating t size (.initStruct spot))
    (hafter : s'.thread u = .allocating t size (.pushNode spot))
    (htm : s'.tm = s.tm.apply (.noSegment spot)) : SpotsInv s' cells := by
  have hown : (s.thread u).claim = some spot := claim_eq hbefore
  have hvaArr : s'.tm.vaArr = Function.update s.tm.vaArr spot .null := by
    rw [htm]
    rfl
  refine h.of_own hother ?_ ?_ ?_ ?_ ?_ ?_
  · rw [htm]
    exact h.linked
  · have hsame : (s'.thread u).claim = (s.thread u).claim := by
      rw [claim_eq hafter, claim_eq hbefore]
      rfl
    have hvaN : s'.tm.vaN = s.tm.vaN := by rw [htm]; rfl
    rw [hsame, Function.update_eq_self, hvaN]
    exact h.circulation.congr
      (Tm.TableInv.live_noSegment (h.circulation.claim_unused u spot hown) hvaArr
        (by rw [htm]; rfl))
  · intro pc hpc
    rw [hafter] at hpc
    obtain rfl := Option.some.inj hpc
    trivial
  · intro n hn
    rw [node_eq hafter] at hn
    cases hn
  · intro tid pc hne hpc hfacts
    refine hfacts.frame (fun _ => by rw [htm]; rfl) (fun _ _ _ => by rw [htm]; rfl) fun x hx => ?_
    have hspot : x ≠ spot := by
      rintro rfl
      exact hne (h.circulation.claim_inj tid u x (by simp [Thread.claim, hpc, hx]) hown)
    rw [hvaArr, Function.update_of_ne hspot]
  · intro tid n _ hn
    rw [htm]
    exact ⟨h.node_ne tid n hn, fun c => h.unlisted tid n c hn⟩

/-- A finished segment puts the call's spot to use. -/
theorem readySegment {g : SegId} {seg : Segment} (h : SpotsInv s cells) (htable : s.tm.TableInv)
    (hother : ∀ tid, tid ≠ u → s'.thread tid = s.thread tid)
    (hbefore : s.thread u = .allocating t size (.initLocks spot g))
    (hafter : (s'.thread u).allocPc = none) (hseg : s.tm.segment g = some seg)
    (htm : s'.tm = s.tm.apply (.readySegment g size)) : SpotsInv s' cells := by
  have hown : (s.thread u).claim = some spot := claim_eq hbefore
  refine h.of_own hother ?_ ?_ ?_ ?_ ?_ ?_
  · rw [htm]
    exact h.linked
  · have hnone : (s'.thread u).claim = none := by simp [Thread.claim, hafter]
    have hvaN : s'.tm.vaN = s.tm.vaN := by rw [htm]; rfl
    rw [hnone, hvaN]
    exact (h.circulation.use hown).congr
      (htable.live_finished (f := fun g => { g with size := size, state := .ready })
        (h.facts_eq hbefore) hseg rfl (by rw [htm]; rfl) (by rw [htm]; rfl))
  · intro pc hpc
    simp [hafter] at hpc
  · intro n hn
    simp [Thread.node, hafter] at hn
  · intro tid pc _ _ hfacts
    rw [htm]
    exact hfacts.frame (fun _ => rfl) (fun _ _ _ => rfl) fun _ _ => rfl
  · intro tid n _ hn
    rw [htm]
    exact ⟨h.node_ne tid n hn, fun c => h.unlisted tid n c hn⟩

/-- A node is made for the spot of a failed call. -/
theorem pushNode (h : SpotsInv s cells) (htable : s.tm.TableInv)
    (hother : ∀ tid, tid ≠ u → s'.thread tid = s.thread tid)
    (hbefore : s.thread u = .allocating t size (.pushNode spot))
    (hafter : s'.thread u = .allocating t size (.pushStore spot s.tm.nodeCount))
    (htm : s'.tm = s.tm.apply (.newNode ⟨s.tm.emptySpots, spot⟩)) : SpotsInv s' cells := by
  have hfresh : ∀ n, s.tm.node n ≠ none → n ≠ s.tm.nodeCount := by
    rintro n hn rfl
    obtain ⟨c, hc⟩ := Option.ne_none_iff_exists'.mp hn
    exact Nat.lt_irrefl _ (htable.node_lt _ c hc)
  have hnode : ∀ n, s.tm.node n ≠ none → s'.tm.node n = s.tm.node n := by
    intro n hn
    simp [htm, Tm.apply, hfresh n hn]
  have hnew : s'.tm.node s.tm.nodeCount = some ⟨s.tm.emptySpots, spot⟩ := by
    simp [htm, Tm.apply]
  have hunlisted : ∀ c, (s.tm.nodeCount, c) ∉ cells := fun c hmem =>
    Nat.lt_irrefl _ (htable.node_lt _ c (h.linked.cell hmem))
  refine h.of_own hother ?_ ?_ ?_ ?_ ?_ ?_
  · have hhead : s'.tm.emptySpots = s.tm.emptySpots := by rw [htm]; rfl
    rw [hhead]
    exact h.linked.frame fun e he => hnode e.1 (by simp [h.linked.cell he])
  · have hsame : (s'.thread u).claim = (s.thread u).claim := by
      rw [claim_eq hafter, claim_eq hbefore]
      rfl
    rw [hsame, Function.update_eq_self, htm]
    exact h.circulation
  · intro pc hpc
    rw [hafter] at hpc
    obtain rfl := Option.some.inj hpc
    exact ⟨s.tm.emptySpots, hnew⟩
  · intro n hn
    rw [node_eq hafter] at hn
    obtain rfl := Option.some.inj hn
    refine ⟨by simp [hnew], hunlisted, fun tid _ hn => ?_⟩
    exact hfresh _ (h.node_ne tid _ hn) rfl
  · intro tid pc _ _ hfacts
    exact hfacts.frame (fun _ => by rw [htm]; rfl) (fun n hn _ => hnode n hn)
      fun _ _ => by rw [htm]; rfl
  · intro tid n _ hn
    rw [hnode n (h.node_ne tid n hn)]
    exact ⟨h.node_ne tid n hn, fun c => h.unlisted tid n c hn⟩

/-- A failed call gives its spot back, alone. -/
theorem pushStore {n : NodeId} (h : SpotsInv s cells)
    (hother : ∀ tid, tid ≠ u → s'.thread tid = s.thread tid)
    (hbefore : s.thread u = .allocating t size (.pushStore spot n))
    (hafter : (s'.thread u).allocPc = none) (hnext : ∀ c, s.tm.node n = some c →
      c.next = s.tm.emptySpots) (hquiet : ∀ tid, (s.thread tid).popping = false)
    (htm : s'.tm = s.tm.apply (.storeEmptySpots (some n))) : ∃ cells', SpotsInv s' cells' := by
  have hown : (s.thread u).claim = some spot := claim_eq hbefore
  have hnode_own : (s.thread u).node = some n := node_eq hbefore
  obtain ⟨next, hcell⟩ : ∃ next, s.tm.node n = some ⟨next, spot⟩ := h.facts_eq hbefore
  obtain rfl : next = s.tm.emptySpots := hnext _ hcell
  have hnode : s'.tm.node = s.tm.node := by rw [htm]; rfl
  refine ⟨(n, ⟨s.tm.emptySpots, spot⟩) :: cells, h.of_own hother ?_ ?_ ?_ ?_ ?_ ?_⟩
  · have hhead : s'.tm.emptySpots = some n := by rw [htm]; rfl
    rw [hhead, hnode]
    exact .cons hcell h.linked
  · have hnone : (s'.thread u).claim = none := by simp [Thread.claim, hafter]
    rw [hnone, htm]
    exact h.circulation.give hown
  · intro pc hpc
    simp [hafter] at hpc
  · intro m hm
    simp [Thread.node, hafter] at hm
  · intro tid pc _ hpc hfacts
    refine hfacts.frame (fun hpop => ?_) (fun m _ _ => by rw [hnode]) fun x _ => by rw [htm]; rfl
    have := hquiet tid
    simp [Thread.popping, hpc, hpop] at this
  · intro tid m hne hm
    rw [hnode]
    refine ⟨h.node_ne tid m hm, fun c hmem => ?_⟩
    rcases List.mem_cons.mp hmem with heq | hmem
    · obtain ⟨rfl, -⟩ := Prod.mk.inj heq
      exact hne (h.node_inj tid u m hm hnode_own)
    · exact h.unlisted tid m c hm hmem

omit [Zero V] in
/-- A batch deletion retires a live spot while nobody is in `tm_alloc`. -/
theorem deleteSegment {index : Int} {g : SegId} {seg : Segment} (h : SpotsInv s cells)
    (htable : s.tm.TableInv) (hother : ∀ tid, tid ≠ u → s'.thread tid = s.thread tid)
    (hbefore : ∀ tid, (s.thread tid).allocPc = none) (hafter : (s'.thread u).allocPc = none)
    (hspot : s.tm.vaArr index.toNat = .segment g) (hseg : s.tm.segment g = some seg)
    (hready : seg.state = .ready) (htm : s'.tm = s.tm.deleteSegment index) :
    ∃ cells', SpotsInv s' cells' := by
  have hdelete : s.tm.deleteSegment index = { s.tm with
      segment := Function.update s.tm.segment g none
      vaArr := Function.update s.tm.vaArr index.toNat .null
      node := Function.update s.tm.node s.tm.nodeCount (some ⟨s.tm.emptySpots, index.toNat⟩)
      nodeCount := s.tm.nodeCount + 1
      emptySpots := some s.tm.nodeCount } := by
    simp [Tm.deleteSegment, hspot]
  rw [hdelete] at htm
  have hnone : ∀ tid, (s'.thread tid).allocPc = none := by
    intro tid
    by_cases heq : tid = u
    · rw [heq, hafter]
    · rw [hother tid heq, hbefore tid]
  refine ⟨(s.tm.nodeCount, ⟨s.tm.emptySpots, index.toNat⟩) :: cells,
    h.of_own hother ?_ ?_ ?_ ?_ ?_ ?_⟩
  · rw [htm]
    refine .cons (Function.update_self _ _ _) (h.linked.frame fun e he => ?_)
    exact Function.update_of_ne (h.mem_lt htable he).ne _ _
  · have hsame : (s'.thread u).claim = (s.thread u).claim := by
      simp [Thread.claim, hafter, hbefore u]
    have hvaN : s'.tm.vaN = s.tm.vaN := by rw [htm]
    rw [hsame, Function.update_eq_self, hvaN]
    exact (h.circulation.retire ⟨g, seg, hspot, hseg, hready⟩).congr
      (htable.live_deleted hspot (by rw [htm]) (by rw [htm]))
  · intro pc hpc
    simp [hafter] at hpc
  · intro n hn
    simp [Thread.node, hafter] at hn
  · intro tid pc _ hpc
    simp [hbefore tid] at hpc
  · intro tid n _ hn
    simp [Thread.node, hbefore tid] at hn

/-! ### Every step -/

variable {platform : Platform V} {l : Label Tid V}

omit [Zero V] [DecidableEq Tid] in
/-- A segment that is under construction is not finished. -/
theorem live_of_building {g : SegId} {state : SegState} {f : Segment → Segment}
    (hsegments : SegmentsInv s) (hbuilding : (s.thread u).building = some (g, state))
    (hafter : ∀ seg, (f seg).state ≠ .ready) (hvaArr : s'.tm.vaArr = s.tm.vaArr)
    (hsegment : s'.tm.segment = Function.update s.tm.segment g ((s.tm.segment g).map f)) (x : Nat) :
    s'.tm.Live x ↔ s.tm.Live x := by
  obtain ⟨seg, hseg, rfl⟩ := hsegments.building u g state hbuilding
  refine Tm.TableInv.live_unfinished hseg ?_ (hafter seg) hvaArr hsegment x
  intro hready
  exact (s.thread u).building_ne_ready g (hready ▸ hbuilding)

theorem alloc_step (h : SpotsInv s cells) (hmutex : MutexInv s) (htable : s.tm.TableInv)
    (hsegments : SegmentsInv s) (hok : PushesAlone s l) {pc : AllocPc} {event : Event V}
    (hother : ∀ tid, tid ≠ l.tid → s'.thread tid = s.thread tid)
    (hbefore : s.thread l.tid = .allocating t size pc)
    (hmove : TmAllocMove s.tm l.choice t size pc event (s'.thread l.tid))
    (htm : s'.tm = s.tm.after event) : ∃ cells', SpotsInv s' cells' := by
  generalize hafter : s'.thread l.tid = thread' at hmove
  -- the mover keeps its spot and its node, and the list is not touched
  have hstill : ∀ {pc'}, thread' = .allocating t size pc' → pc'.claim = pc.claim →
      pc'.node = pc.node → pc'.Facts s.tm → (s'.tm.emptySpots, s'.tm.node, s'.tm.vaN, s'.tm.vaArr) =
        (s.tm.emptySpots, s.tm.node, s.tm.vaN, s.tm.vaArr) →
      (∀ x, s'.tm.Live x ↔ s.tm.Live x) → ∃ cells', SpotsInv s' cells' := by
    intro pc' hpc' hclaim hown hfacts hfields hlive
    simp only [Prod.mk.injEq] at hfields
    obtain ⟨hhead, hnode, hvaN, hvaArr⟩ := hfields
    rw [hpc'] at hafter
    refine ⟨cells, h.of_still hother hhead hnode hvaN hvaArr hlive ?_ ?_ fun pc hpc => ?_⟩
    · rw [claim_eq hafter, claim_eq hbefore, hclaim]
    · rw [node_eq hafter, node_eq hbefore, hown]
    · rw [hafter] at hpc
      obtain rfl := Option.some.inj hpc
      exact hfacts
  have hfacts := h.facts_eq hbefore
  cases hmove with
  | lock | empty | nonempty | unlock =>
      exact hstill rfl rfl rfl trivial (by rw [htm]; rfl) fun x => by rw [htm]; rfl
  | popIndex hhead hn =>
      refine hstill rfl rfl rfl ⟨_, _, hhead, hn, rfl⟩ ?_ fun x => ?_
      · rw [htm]; rfl
      · rw [htm]; rfl
  | @popTmp spot n hhead =>
      obtain ⟨n', c, hhead', hn, hindex⟩ := hfacts
      obtain rfl : n = n' := by simpa [hhead] using hhead'
      refine hstill rfl rfl rfl ⟨hhead, c, hn, hindex⟩ ?_ fun x => ?_
      · rw [htm]; rfl
      · rw [htm]; rfl
  | @popNext spot tmp n head hhead hn =>
      obtain ⟨hhead', c, hc, hindex⟩ := hfacts
      obtain rfl : n = tmp := by simpa [hhead] using hhead'
      obtain rfl : c = head := by simpa [hc] using hn
      refine hstill rfl rfl rfl ⟨hhead, by rw [hn, ← hindex]⟩ ?_ fun x => ?_
      · rw [htm]; rfl
      · rw [htm]; rfl
  | popStore => exact h.popStore hmutex hother hbefore hafter htm
  | popFree => exact ⟨cells, h.popFree hmutex hother hbefore hafter htm⟩
  | counter => exact ⟨cells, h.counter hother hbefore hafter htm⟩
  | initStruct => exact ⟨cells, h.newSegment htable hother hbefore hafter htm⟩
  | noStruct => exact ⟨cells, h.noSegment hother hbefore hafter htm⟩
  | initData =>
      refine hstill rfl rfl rfl hfacts (by rw [htm]; rfl) ?_
      exact live_of_building (f := fun seg => { seg with numWords := _, state := .filled })
        hsegments (by rw [hbefore]; rfl) (fun _ => by simp) (by rw [htm]; rfl) (by rw [htm]; rfl)
  | noData | noLocks =>
      refine hstill rfl rfl rfl trivial (by rw [htm]; rfl) ?_
      exact live_of_building (f := fun seg => { seg with state := .broken })
        hsegments (by rw [hbefore]; rfl) (fun _ => by simp) (by rw [htm]; rfl) (by rw [htm]; rfl)
  | @initLocks spot g =>
      obtain ⟨seg, hseg, -⟩ := hsegments.building l.tid g .filled (by rw [hbefore]; rfl)
      exact ⟨cells, h.readySegment htable hother hbefore (by rw [hafter]; rfl) hseg htm⟩
  | pushNode => exact ⟨cells, h.pushNode htable hother hbefore hafter htm⟩
  | @pushStore spot n =>
      obtain ⟨hnext, hquiet⟩ := hok t size spot n hbefore
      exact h.pushStore hother hbefore (by rw [hafter]; rfl) hnext hquiet htm

theorem step {holders : Finset Tid} {lost : Nat} (h : SpotsInv s cells) (hmutex : MutexInv s)
    (htable : s.tm.TableInv) (hsegments : SegmentsInv s) (hholds : HoldsInv s holders lost)
    (hok : PushesAlone s l) (hstep : (system Tid platform).step s l s') :
    ∃ cells', SpotsInv s' cells' := by
  obtain ⟨hmove, htm, hother⟩ := system_step_move hstep
  cases hmove.spotMove with
  | quiet hlock hhead hnode hvaN hvaArr hsegment hbefore hafter =>
      rw [← htm] at hhead hnode hvaN hvaArr hsegment
      have hclaim : (s'.thread l.tid).claim = (s.thread l.tid).claim ∧
          (s'.thread l.tid).node = (s.thread l.tid).node := by
        rcases hafter with hafter | hafter <;>
          simp [Thread.claim, Thread.node, hbefore, hafter, AllocPc.claim, AllocPc.node]
      refine ⟨cells, h.of_still hother hhead hnode hvaN hvaArr
        (Tm.TableInv.live_congr hvaArr hsegment) hclaim.1 hclaim.2 fun pc hpc => ?_⟩
      rcases hafter with hafter | hafter
      · simp [hafter] at hpc
      · obtain rfl : AllocPc.lock = pc := by simpa [hafter] using hpc
        trivial
  | alloc hbefore hmove => exact h.alloc_step hmutex htable hsegments hok hother hbefore hmove htm
  | deleted hevent hdrains hafter hspot hseg hready =>
      have hnone : ∀ tid, (s.thread tid).allocPc = none := by
        intro tid
        by_contra hsome
        obtain ⟨pc, hpc⟩ := Option.ne_none_iff_exists'.mp hsome
        have := hholds.not_holds_of_drains hdrains tid
        simp [Thread.holds_of_allocPc hpc] at this
      rw [hevent] at htm
      exact h.deleteSegment htable hother hnone hafter hspot hseg hready htm

end Steps

theorem init [Zero V] [DecidableEq Tid] {platform : Platform V}
    (h : (system Tid platform).init s) : SpotsInv s [] := by
  obtain ⟨hidle, choice, size, align, -, -, -, -, hcreate⟩ := h
  obtain ⟨-, -, htm⟩ := tmCreate_eq hcreate
  have hnone : ∀ tid, (s.thread tid).allocPc = none := fun tid => by rw [hidle tid]; rfl
  have hclaim : ∀ tid, (s.thread tid).claim = none := fun tid => by simp [Thread.claim, hnone tid]
  have hlive : ∀ x, s.tm.Live x ↔ x = 0 := by
    intro x
    by_cases heq : x = 0 <;> simp [htm, Tm.Live, Tm.created, heq]
  refine ⟨?_, ?_, fun tid pc hpc => ?_, fun tid n hn => ?_, fun tid n c hn => ?_,
    fun tid _ n hn => ?_⟩
  · rw [htm]
    exact .nil
  · have hvaN : s.tm.vaN = 1 := by rw [htm]; rfl
    refine ⟨List.nodup_nil, by simp, by simp [hclaim], fun x hx => ?_, by simp [hclaim], by simp,
      by simp, by simp [hclaim], fun x hlt => ?_⟩
    · rw [(hlive x).mp hx, hvaN]
      exact Nat.zero_lt_one
    · exact Or.inr (Or.inr ((hlive x).mpr (by omega)))
  · simp [hnone tid] at hpc
  · simp [Thread.node, hnone tid] at hn
  · simp [Thread.node, hnone tid] at hn
  · simp [Thread.node, hnone tid] at hn

end SpotsInv

/-- **The spots circulate** in every run that pushes alone. -/
theorem spotsInv [Zero V] [DecidableEq Tid] {platform : Platform V} {s : State Tid V}
    {ok : State Tid V → Label Tid V → Prop}
    (hok : ∀ s l, ((system Tid platform).restrict ok).Reachable s → ok s l → PushesAlone s l)
    (h : ((system Tid platform).restrict ok).Reachable s) : ∃ cells, SpotsInv s cells := by
  refine Machine.Reachable.invariant (M := (system Tid platform).restrict ok)
    (P := fun s => ∃ cells, SpotsInv s cells) (fun s hs => ?_)
    (fun s l s' hreach ih hstep => ?_) h
  · have hinit : (system Tid platform).init s := hs
    exact ⟨[], SpotsInv.init hinit⟩
  · obtain ⟨cells, hinv⟩ := ih
    have hsystem := hreach.of_restrict
    obtain ⟨holders, lost, hholds⟩ := holdsInv hsystem
    exact hinv.step (mutexInv hsystem) (tableInv hsystem) (segmentsInv hsystem) hholds
      (hok s l hreach hstep.1) hstep.2

/-- A call that has found the list not empty still finds a head: only a holder of the mutex takes
one off. -/
theorem emptySpots_ne_none [Zero V] [DecidableEq Tid] {platform : Platform V} {s : State Tid V}
    (h : (system Tid platform).Reachable s) :
    ∀ tid, (s.thread tid).allocPc = some .popIndex → s.tm.emptySpots ≠ none := by
  refine h.invariant
    (P := fun s => ∀ tid, (s.thread tid).allocPc = some .popIndex → s.tm.emptySpots ≠ none)
    (fun s hs tid hpc => ?_) fun s l s' hreach ih hstep tid hpc => ?_
  · rw [hs.1 tid] at hpc
    cases hpc
  · obtain ⟨hmove, htm, hother⟩ := system_step_move hstep
    have hmutex := mutexInv hreach
    rw [htm]
    cases hmove.spotMove with
    | quiet hlock hhead _ _ _ _ _ hafter =>
        by_cases heq : tid = l.tid
        · rcases hafter with hafter | hafter <;> rw [heq, hafter] at hpc <;> cases hpc
        · rw [hother tid heq] at hpc
          rw [hhead]
          exact ih tid hpc
    | @alloc t size pc hbefore hmove =>
        by_cases heq : tid = l.tid
        · rw [heq] at hpc
          generalize l.event = event, s'.thread l.tid = thread' at hmove hpc
          cases hmove with
          | nonempty hempty => exact hempty
          | _ => cases hpc
        · rw [hother tid heq] at hpc
          have hin : (s.thread tid).inMutex = true := by rw [Thread.inMutex, hpc]; rfl
          have hpopping := hmutex.not_popping hin (Ne.symm heq) (by rw [hbefore]; rfl)
          generalize l.event = event, s'.thread l.tid = thread' at hmove
          cases hmove with
          | popStore => cases hpopping
          | pushStore => exact Option.some_ne_none _
          | _ => exact ih tid hpc
    | @deleted spot g seg hevent hdrains hafter hspot =>
        rw [hevent]
        simp [Tm.after, Tm.apply, Tm.deleteSegment, hspot]

/-- `tm_alloc` follows no pointer that is not set, and crashes at its allocations only: without room
in `va_arr`, with a data block and no struct, or without a node. -/
theorem SpotsInv.tmAllocStep_ne_crash [Zero V] {s : State Tid V} {cells : List (NodeId × EmptySpot)}
    {tid : Tid} {t : Tx V} {size : Nat} {pc : AllocPc} {choice : Choice V} (h : SpotsInv s cells)
    (hthread : s.thread tid = .allocating t size pc)
    (hhead : pc = .popIndex → s.tm.emptySpots ≠ none)
    (hstruct : ∀ spot, pc = .initStruct spot → spot < vaSize ∧
      (choice.mallocOk 0 = true ∨ posixMemalign s.tm.align (choice.mallocOk 1) = false))
    (hnode : ∀ spot, pc = .pushNode spot → choice.mallocOk 0 = true) :
    tmAllocStep s.tm choice t size pc ≠ .crash := by
  have hfacts := h.facts_eq hthread
  cases pc with
  | lock =>
      simp only [tmAllocStep]
      split <;> simp
  | check =>
      simp only [tmAllocStep]
      split <;> simp
  | popIndex =>
      obtain ⟨n, hn⟩ := Option.ne_none_iff_exists'.mp (hhead rfl)
      have hlinked := h.linked
      rw [hn] at hlinked
      cases hlinked with
      | cons hcell => simp [tmAllocStep, headSpot, hn, hcell]
  | popTmp spot =>
      obtain ⟨n, c, hn, -, -⟩ := hfacts
      simp [tmAllocStep, hn]
  | popNext spot tmp =>
      obtain ⟨hn, c, hc, -⟩ := hfacts
      simp [tmAllocStep, headSpot, hn, hc]
  | popFree spot tmp =>
      have hcell := h.node_ne tid tmp (node_eq hthread)
      simp [tmAllocStep, hcell]
  | initStruct spot =>
      obtain ⟨hspot, hmalloc⟩ := hstruct spot rfl
      rw [tmAllocStep, if_pos hspot]
      rcases hmalloc with hmalloc | hdata
      · simp [hmalloc]
      · rw [if_neg (by simp [hdata] : ¬ posixMemalign s.tm.align (choice.mallocOk 1) = true)]
        split <;> simp
  | initData spot g =>
      simp only [tmAllocStep]
      split <;> simp
  | initLocks spot g =>
      simp only [tmAllocStep]
      split <;> simp
  | pushNode spot => simp [tmAllocStep, hnode spot rfl]
  | popStore | counter | unlock | pushStore => simp [tmAllocStep]

end TransactionalMemory
