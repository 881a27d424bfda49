import TransactionalMemory.Model.Destroy
import TransactionalMemory.Proof.Installed

/-!
# The entries of `va_arr`

While every segment that is started gets its arrays, an entry that no `tm_alloc` is working on is
null or has a finished segment, the entry of a call that has failed is null, every segment is at its
entry and every node of the free list is in the list or with the call that takes it off or is about
to put it on. So the table and the list lead to all that the region has on the heap.
-/

namespace TransactionalMemory

open Concurrency

variable {V Tid : Type}

def AllocPc.vacant : AllocPc → Option Nat
  | .popFree spot _ | .unlock spot | .initStruct spot => some spot
  | _ => none

def AllocPc.failed : AllocPc → Option Nat
  | .pushNode spot | .pushStore spot _ => some spot
  | _ => none

/-- No node is on the list twice. -/
theorem SpotsInv.nodes_nodup {s : State Tid V} {cells : List (NodeId × EmptySpot)}
    (h : SpotsInv s cells) : (cells.map fun e => e.1).Nodup := by
  have hindex : (cells.map fun e => e.2.index) =
      (cells.map fun e => e.1).map fun n => (s.tm.node n).elim 0 EmptySpot.index := by
    rw [List.map_map]
    refine List.map_congr_left fun e he => ?_
    simp [h.linked.cell he]
  have hnodup := h.circulation.free_nodup
  rw [hindex] at hnodup
  exact hnodup.of_map _

def Thread.vacant (thread : Thread V) : Option Nat := thread.allocPc.bind AllocPc.vacant

def Thread.failed (thread : Thread V) : Option Nat := thread.allocPc.bind AllocPc.failed

structure EntriesInv (s : State Tid V) : Prop where
  spot_lt : ∀ spot, s.tm.vaArr spot ≠ .garbage → spot < vaSize
  beyond : ∀ spot, s.tm.vaN ≤ spot → s.tm.vaArr spot = .garbage
  settled : ∀ spot < s.tm.vaN, (∀ tid, (s.thread tid).claim ≠ some spot) →
    s.tm.Live spot ∨ s.tm.vaArr spot = .null
  vacant : ∀ tid spot, (s.thread tid).vacant = some spot → ∀ g, s.tm.vaArr spot ≠ .segment g
  failed : ∀ tid spot, (s.thread tid).failed = some spot → s.tm.vaArr spot = .null
  owned : ∀ g seg, s.tm.segment g = some seg → ∃ spot, s.tm.vaArr spot = .segment g
  nodes : ∀ cells, Linked EmptySpot.next s.tm.node s.tm.emptySpots cells →
    ∀ n c, s.tm.node n = some c → (n, c) ∈ cells ∨ ∃ tid, (s.thread tid).node = some n

namespace EntriesInv

variable {s s' : State Tid V} {u : Tid}

/-- A free spot has a null entry. -/
theorem null_of_free (h : EntriesInv s) {cells : List (NodeId × EmptySpot)}
    (hspots : SpotsInv s cells) {e : NodeId × EmptySpot} (he : e ∈ cells) :
    s.tm.vaArr e.2.index = .null := by
  have hfree : e.2.index ∈ cells.map fun e => e.2.index := List.mem_map_of_mem he
  have hcirculation := hspots.circulation
  refine (h.settled e.2.index (hcirculation.free_lt _ hfree) ?_).resolve_left ?_
  · exact hcirculation.free_unclaimed _ hfree
  · exact hcirculation.free_unused _ hfree

theorem vacant_eq {t : Tx V} {size : Nat} {pc : AllocPc}
    (hthread : s.thread u = .allocating t size pc) : (s.thread u).vacant = pc.vacant := by
  rw [hthread]
  rfl

theorem failed_eq {t : Tx V} {size : Nat} {pc : AllocPc}
    (hthread : s.thread u = .allocating t size pc) : (s.thread u).failed = pc.failed := by
  rw [hthread]
  rfl

theorem claim_of_failed {tid : Tid} {spot : Nat} (h : (s.thread tid).failed = some spot) :
    (s.thread tid).claim = some spot := by
  unfold Thread.failed at h
  unfold Thread.claim
  cases hpc : (s.thread tid).allocPc with
  | none => simp [hpc] at h
  | some pc =>
      rw [hpc] at h
      cases pc <;> first | exact h | cases h

theorem claim_of_vacant {tid : Tid} {spot : Nat} (h : (s.thread tid).vacant = some spot) :
    (s.thread tid).claim = some spot := by
  unfold Thread.vacant at h
  unfold Thread.claim
  cases hpc : (s.thread tid).allocPc with
  | none => simp [hpc] at h
  | some pc =>
      rw [hpc] at h
      cases pc <;> first | exact h | cases h

section Transfer

section Others

variable (hother : ∀ tid, tid ≠ u → s'.thread tid = s.thread tid)
include hother

/-- Who holds a node that the mover does not hold keeps it. -/
theorem node_kept {n : NodeId} (hmover : (s.thread u).node ≠ some n)
    (h : ∃ tid, (s.thread tid).node = some n) : ∃ tid, (s'.thread tid).node = some n := by
  obtain ⟨tid, htid⟩ := h
  have hne : tid ≠ u := by
    rintro rfl
    exact hmover htid
  exact ⟨tid, by rw [hother tid hne, htid]⟩

/-- A call that had failed before a step of another thread, or none. -/
theorem failed_before [DecidableEq Tid] (hmover : (s'.thread u).failed = none) {tid : Tid}
    {spot : Nat} (h : (s'.thread tid).failed = some spot) :
    tid ≠ u ∧ (s.thread tid).failed = some spot := by
  have hne : tid ≠ u := by
    rintro rfl
    rw [hmover] at h
    cases h
  exact ⟨hne, by rw [← hother tid hne, h]⟩

variable [DecidableEq Tid]

/-- A mover without a spot gives none up. -/
theorem unclaimed_before (hidle : (s.thread u).claim = none) {spot : Nat}
    (h : ∀ tid, (s'.thread tid).claim ≠ some spot) (tid : Tid) :
    (s.thread tid).claim ≠ some spot := by
  by_cases heq : tid = u
  · simp [heq, hidle]
  · rw [← hother tid heq]
    exact h tid

end Others

variable [DecidableEq Tid]

/-- A step that moves no spot and no node. -/
theorem of_still (h : EntriesInv s) (hother : ∀ tid, tid ≠ u → s'.thread tid = s.thread tid)
    (hhead : s'.tm.emptySpots = s.tm.emptySpots) (hnode : s'.tm.node = s.tm.node)
    (hvaN : s'.tm.vaN = s.tm.vaN) (hvaArr : s'.tm.vaArr = s.tm.vaArr)
    (hlive : ∀ x, s.tm.Live x → s'.tm.Live x)
    (hsegment : ∀ g seg, s'.tm.segment g = some seg → ∃ seg, s.tm.segment g = some seg)
    (hclaim : ∀ spot, (s.thread u).claim = some spot →
      (s'.thread u).claim = some spot ∨ s'.tm.Live spot)
    (hvacant : ∀ spot, (s'.thread u).vacant = some spot → (s.thread u).vacant = some spot)
    (hfailed : ∀ spot, (s'.thread u).failed = some spot → (s.thread u).failed = some spot)
    (hown : (s'.thread u).node = (s.thread u).node) : EntriesInv s' := by
  refine ⟨?_, ?_, fun spot hlt hunclaimed => ?_, fun tid spot hspot => ?_, fun tid spot hspot => ?_,
    fun g seg hseg => ?_, ?_⟩
  · rw [hvaArr]
    exact h.spot_lt
  · rw [hvaArr, hvaN]
    exact h.beyond
  · rw [hvaN] at hlt
    rw [hvaArr]
    by_cases hclaimed : (s.thread u).claim = some spot
    · exact Or.inl ((hclaim spot hclaimed).resolve_left (hunclaimed u))
    · refine (h.settled spot hlt fun tid => ?_).imp_left (hlive spot)
      by_cases heq : tid = u
      · rw [heq]
        exact hclaimed
      · rw [← hother tid heq]
        exact hunclaimed tid
  · rw [hvaArr]
    by_cases heq : tid = u
    · subst heq
      exact h.vacant tid spot (hvacant spot hspot)
    · rw [hother tid heq] at hspot
      exact h.vacant tid spot hspot
  · rw [hvaArr]
    by_cases heq : tid = u
    · subst heq
      exact h.failed tid spot (hfailed spot hspot)
    · rw [hother tid heq] at hspot
      exact h.failed tid spot hspot
  · rw [hvaArr]
    obtain ⟨seg', hseg'⟩ := hsegment g seg hseg
    exact h.owned g seg' hseg'
  · rw [hhead, hnode]
    intro cells hlinked n c hn
    refine (h.nodes cells hlinked n c hn).imp_right ?_
    rintro ⟨tid, htid⟩
    refine ⟨tid, ?_⟩
    by_cases heq : tid = u
    · rw [heq, hown, ← heq, htid]
    · rw [hother tid heq, htid]

variable [Zero V] {t : Tx V} {size spot : Nat} {cells : List (NodeId × EmptySpot)}

/-- The head of the list goes to the call that takes it off. -/
theorem popStore {tmp : NodeId} {next : Option NodeId} (h : EntriesInv s)
    (hspots : SpotsInv s cells) (hother : ∀ tid, tid ≠ u → s'.thread tid = s.thread tid)
    (hbefore : s.thread u = .allocating t size (.popStore spot tmp next))
    (hafter : s'.thread u = .allocating t size (.popFree spot tmp))
    (htm : s'.tm = s.tm.apply (.storeEmptySpots next)) : EntriesInv s' := by
  obtain ⟨hhead, hcell⟩ : s.tm.emptySpots = some tmp ∧ s.tm.node tmp = some ⟨next, spot⟩ :=
    hspots.facts_eq hbefore
  obtain ⟨rest, hcells, hrest⟩ := hspots.linked.head_cell hhead hcell
  have hidle : (s.thread u).claim = none := SpotsInv.claim_eq hbefore
  refine ⟨?_, ?_, fun x hlt hunclaimed => ?_, fun tid x hx => ?_, fun tid x hx => ?_, ?_,
    fun cells' hlinked n c hn => ?_⟩
  · rw [htm]
    exact h.spot_lt
  · rw [htm]
    exact h.beyond
  · rw [htm] at hlt ⊢
    exact h.settled x hlt (unclaimed_before hother hidle hunclaimed)
  · have hvaArr : s'.tm.vaArr = s.tm.vaArr := by rw [htm]; rfl
    rw [hvaArr]
    by_cases heq : tid = u
    · subst heq
      rw [vacant_eq hafter] at hx
      obtain rfl : spot = x := Option.some.inj hx
      have hnull := h.null_of_free hspots (e := (tmp, ⟨next, spot⟩)) (by simp [hcells])
      intro g hg
      rw [hnull] at hg
      cases hg
    · rw [hother tid heq] at hx
      exact h.vacant tid x hx
  · obtain ⟨-, hx⟩ := failed_before hother (failed_eq hafter) hx
    rw [htm]
    exact h.failed tid x hx
  · rw [htm]
    exact h.owned
  · rw [htm] at hlinked hn
    obtain rfl : rest = cells' := hrest.unique hlinked
    rcases h.nodes cells hspots.linked n c hn with hmem | hheld
    · rw [hcells] at hmem
      rcases List.mem_cons.mp hmem with heq | hmem
      · obtain ⟨rfl, -⟩ := Prod.mk.inj heq
        exact Or.inr ⟨u, SpotsInv.node_eq hafter⟩
      · exact Or.inl hmem
    · exact Or.inr (node_kept hother (by rw [SpotsInv.node_eq hbefore]; rintro ⟨⟩) hheld)

/-- The node is freed. -/
theorem popFree {tmp : NodeId} (h : EntriesInv s)
    (hother : ∀ tid, tid ≠ u → s'.thread tid = s.thread tid)
    (hbefore : s.thread u = .allocating t size (.popFree spot tmp))
    (hafter : s'.thread u = .allocating t size (.unlock spot))
    (htm : s'.tm = s.tm.apply (.freeNode tmp)) : EntriesInv s' := by
  have hclaim : ∀ tid, (s'.thread tid).claim = (s.thread tid).claim := by
    refine thread_keep hother ?_
    rw [SpotsInv.claim_eq hafter, SpotsInv.claim_eq hbefore]
    rfl
  have hvacant : ∀ tid, (s'.thread tid).vacant = (s.thread tid).vacant := by
    refine thread_keep hother ?_
    rw [vacant_eq hafter, vacant_eq hbefore]
    rfl
  have hnode : ∀ n c, s'.tm.node n = some c → n ≠ tmp ∧ s.tm.node n = some c := by
    intro n c hn
    have hne : n ≠ tmp := by
      rintro rfl
      simp [htm, Tm.apply] at hn
    exact ⟨hne, by simpa [htm, Tm.apply, hne] using hn⟩
  refine ⟨?_, ?_, ?_, ?_, fun tid x hx => ?_, ?_, fun cells hlinked n c hn => ?_⟩
  · rw [htm]
    exact h.spot_lt
  · rw [htm]
    exact h.beyond
  · simp only [hclaim, htm]
    exact h.settled
  · simp only [hvacant, htm]
    exact h.vacant
  · obtain ⟨-, hx⟩ := failed_before hother (failed_eq hafter) hx
    rw [htm]
    exact h.failed tid x hx
  · rw [htm]
    exact h.owned
  · obtain ⟨hne, hn⟩ := hnode n c hn
    have hbefore' : Linked EmptySpot.next s.tm.node s.tm.emptySpots cells := by
      have hhead : s'.tm.emptySpots = s.tm.emptySpots := by rw [htm]; rfl
      rw [hhead] at hlinked
      refine hlinked.frame fun e he => ?_
      have hcell := hlinked.cell he
      rw [hcell]
      exact (hnode e.1 e.2 hcell).2
    refine (h.nodes cells hbefore' n c hn).imp_right (node_kept hother ?_)
    rw [SpotsInv.node_eq hbefore]
    exact fun htmp => hne (Option.some.inj htmp).symm

/-- A spot from the counter. -/
theorem counter (h : EntriesInv s) (hother : ∀ tid, tid ≠ u → s'.thread tid = s.thread tid)
    (hbefore : s.thread u = .allocating t size .counter)
    (hafter : s'.thread u = .allocating t size (.unlock s.tm.vaN))
    (htm : s'.tm = s.tm.apply .nextSpot) : EntriesInv s' := by
  have hidle : (s.thread u).claim = none := SpotsInv.claim_eq hbefore
  refine ⟨?_, fun x hge => ?_, fun x hlt hunclaimed => ?_, fun tid x hx => ?_,
    fun tid x hx => ?_, ?_, fun cells hlinked n c hn => ?_⟩
  · rw [htm]
    exact h.spot_lt
  · rw [htm] at hge ⊢
    exact h.beyond x (Nat.le_of_succ_le hge)
  · have hne : x ≠ s.tm.vaN := by
      rintro rfl
      exact hunclaimed u (SpotsInv.claim_eq hafter)
    rw [htm] at hlt ⊢
    exact h.settled x (lt_of_le_of_ne (Nat.le_of_lt_succ hlt) hne)
      (unclaimed_before hother hidle hunclaimed)
  · by_cases heq : tid = u
    · subst heq
      rw [vacant_eq hafter] at hx
      obtain rfl : s.tm.vaN = x := Option.some.inj hx
      intro g hg
      rw [htm] at hg
      exact absurd (hg.symm.trans (h.beyond _ le_rfl)) (by simp)
    · rw [hother tid heq] at hx
      rw [htm]
      exact h.vacant tid x hx
  · obtain ⟨-, hx⟩ := failed_before hother (failed_eq hafter) hx
    rw [htm]
    exact h.failed tid x hx
  · rw [htm]
    exact h.owned
  · rw [htm] at hlinked hn
    refine (h.nodes cells hlinked n c hn).imp_right (node_kept hother ?_)
    rw [SpotsInv.node_eq hbefore]
    rintro ⟨⟩

/-- A segment is started at the call's own spot, where there was none. -/
theorem newSegment (h : EntriesInv s) (hspots : SpotsInv s cells) (hfits : spot < vaSize)
    (hlive : ∀ x, s.tm.Live x → s'.tm.Live x)
    (hother : ∀ tid, tid ≠ u → s'.thread tid = s.thread tid)
    (hbefore : s.thread u = .allocating t size (.initStruct spot))
    (hafter : s'.thread u = .allocating t size (.initData spot s.tm.segmentCount))
    (htm : s'.tm = s.tm.apply (.newSegment spot)) : EntriesInv s' := by
  have hown : (s.thread u).claim = some spot := SpotsInv.claim_eq hbefore
  have hcirculation := hspots.circulation
  have hvaArr : s'.tm.vaArr = Function.update s.tm.vaArr spot (.segment s.tm.segmentCount) := by
    rw [htm]
    rfl
  have hvaN : s'.tm.vaN = s.tm.vaN := by rw [htm]; rfl
  have hclaim : ∀ tid, (s'.thread tid).claim = (s.thread tid).claim := by
    refine thread_keep hother ?_
    rw [SpotsInv.claim_eq hafter, SpotsInv.claim_eq hbefore]
    rfl
  refine ⟨fun x hx => ?_, fun x hge => ?_, fun x hlt hunclaimed => ?_, fun tid x hx => ?_,
    fun tid x hx => ?_, fun g seg hseg => ?_, fun cells hlinked n c hn => ?_⟩
  · by_cases heq : x = spot
    · rw [heq]
      exact hfits
    · exact h.spot_lt x (by simpa [hvaArr, heq] using hx)
  · have hne : x ≠ spot := by
      rintro rfl
      have := hcirculation.claim_lt u x hown
      omega
    rw [hvaArr, Function.update_of_ne hne]
    exact h.beyond x (hvaN ▸ hge)
  · have hne : x ≠ spot := by
      rintro rfl
      exact hunclaimed u ((hclaim u).trans hown)
    simp only [hclaim] at hunclaimed
    rw [hvaArr, Function.update_of_ne hne]
    exact (h.settled x (hvaN ▸ hlt) hunclaimed).imp_left (hlive x)
  · have hne : tid ≠ u := by
      rintro rfl
      rw [vacant_eq hafter] at hx
      cases hx
    rw [hother tid hne] at hx
    have hspot : x ≠ spot := by
      rintro rfl
      exact hne (hcirculation.claim_inj tid u x (claim_of_vacant hx) hown)
    rw [hvaArr, Function.update_of_ne hspot]
    exact h.vacant tid x hx
  · obtain ⟨hne, hx⟩ := failed_before hother (failed_eq hafter) hx
    have hspot : x ≠ spot := by
      rintro rfl
      exact hne (hcirculation.claim_inj tid u x (claim_of_failed hx) hown)
    rw [hvaArr, Function.update_of_ne hspot]
    exact h.failed tid x hx
  · by_cases heq : g = s.tm.segmentCount
    · exact ⟨spot, by rw [hvaArr, heq, Function.update_self]⟩
    · have hseg' : s.tm.segment g = some seg := by simpa [htm, Tm.apply, heq] using hseg
      obtain ⟨x, hx⟩ := h.owned g seg hseg'
      have hne : x ≠ spot := by
        rintro rfl
        exact h.vacant u x (vacant_eq hbefore) g hx
      exact ⟨x, by rw [hvaArr, Function.update_of_ne hne, hx]⟩
  · rw [htm] at hlinked hn
    refine (h.nodes cells hlinked n c hn).imp_right (node_kept hother ?_)
    rw [SpotsInv.node_eq hbefore]
    rintro ⟨⟩

/-- The entry of a call that gets no segment is cleared. -/
theorem noSegment (h : EntriesInv s) (hspots : SpotsInv s cells) (hfits : spot < vaSize)
    (hlive : ∀ x, s.tm.Live x → s'.tm.Live x)
    (hother : ∀ tid, tid ≠ u → s'.thread tid = s.thread tid)
    (hbefore : s.thread u = .allocating t size (.initStruct spot))
    (hafter : s'.thread u = .allocating t size (.pushNode spot))
    (htm : s'.tm = s.tm.apply (.noSegment spot)) : EntriesInv s' := by
  have hown : (s.thread u).claim = some spot := SpotsInv.claim_eq hbefore
  have hcirculation := hspots.circulation
  have hvaArr : s'.tm.vaArr = Function.update s.tm.vaArr spot .null := by
    rw [htm]
    rfl
  have hvaN : s'.tm.vaN = s.tm.vaN := by rw [htm]; rfl
  have hclaim : ∀ tid, (s'.thread tid).claim = (s.thread tid).claim := by
    refine thread_keep hother ?_
    rw [SpotsInv.claim_eq hafter, SpotsInv.claim_eq hbefore]
    rfl
  -- the spots of the other calls are other ones
  have hspot : ∀ {tid x}, tid ≠ u → (s.thread tid).claim = some x → x ≠ spot := by
    rintro tid x hne hx rfl
    exact hne (hcirculation.claim_inj tid u x hx hown)
  refine ⟨fun x hx => ?_, fun x hge => ?_, fun x hlt hunclaimed => ?_, fun tid x hx => ?_,
    fun tid x hx => ?_, fun g seg hseg => ?_, fun cells hlinked n c hn => ?_⟩
  · by_cases heq : x = spot
    · rw [heq]
      exact hfits
    · exact h.spot_lt x (by simpa [hvaArr, heq] using hx)
  · have hne : x ≠ spot := by
      rintro rfl
      have := hcirculation.claim_lt u x hown
      omega
    rw [hvaArr, Function.update_of_ne hne]
    exact h.beyond x (hvaN ▸ hge)
  · have hne : x ≠ spot := by
      rintro rfl
      exact hunclaimed u ((hclaim u).trans hown)
    simp only [hclaim] at hunclaimed
    rw [hvaArr, Function.update_of_ne hne]
    exact (h.settled x (hvaN ▸ hlt) hunclaimed).imp_left (hlive x)
  · have hne : tid ≠ u := by
      rintro rfl
      rw [vacant_eq hafter] at hx
      cases hx
    rw [hother tid hne] at hx
    rw [hvaArr, Function.update_of_ne (hspot hne (claim_of_vacant hx))]
    exact h.vacant tid x hx
  · by_cases heq : tid = u
    · subst heq
      rw [failed_eq hafter] at hx
      obtain rfl := Option.some.inj hx
      rw [hvaArr, Function.update_self]
    · rw [hother tid heq] at hx
      rw [hvaArr, Function.update_of_ne (hspot heq (claim_of_failed hx))]
      exact h.failed tid x hx
  · obtain ⟨x, hx⟩ := h.owned g seg (by rw [htm] at hseg; exact hseg)
    have hne : x ≠ spot := by
      rintro rfl
      exact h.vacant u x (vacant_eq hbefore) g hx
    exact ⟨x, by rw [hvaArr, Function.update_of_ne hne, hx]⟩
  · rw [htm] at hlinked hn
    refine (h.nodes cells hlinked n c hn).imp_right (node_kept hother ?_)
    rw [SpotsInv.node_eq hbefore]
    rintro ⟨⟩

/-- The node for the spot of a failed call is the call's own. -/
theorem pushNode (h : EntriesInv s) (htable : s.tm.TableInv) (hspots : SpotsInv s cells)
    (hother : ∀ tid, tid ≠ u → s'.thread tid = s.thread tid)
    (hbefore : s.thread u = .allocating t size (.pushNode spot))
    (hafter : s'.thread u = .allocating t size (.pushStore spot s.tm.nodeCount))
    (htm : s'.tm = s.tm.apply (.newNode ⟨s.tm.emptySpots, spot⟩)) : EntriesInv s' := by
  have hclaim : ∀ tid, (s'.thread tid).claim = (s.thread tid).claim := by
    refine thread_keep hother ?_
    rw [SpotsInv.claim_eq hafter, SpotsInv.claim_eq hbefore]
    rfl
  have hvaArr : s'.tm.vaArr = s.tm.vaArr := by rw [htm]; rfl
  refine ⟨?_, ?_, ?_, fun tid x hx => ?_, fun tid x hx => ?_, ?_, fun cells' hlinked n c hn => ?_⟩
  · rw [htm]
    exact h.spot_lt
  · rw [htm]
    exact h.beyond
  · simp only [hclaim, htm]
    exact h.settled
  · have hne : tid ≠ u := by
      rintro rfl
      rw [vacant_eq hafter] at hx
      cases hx
    rw [hother tid hne] at hx
    rw [hvaArr]
    exact h.vacant tid x hx
  · rw [hvaArr]
    by_cases heq : tid = u
    · subst heq
      rw [failed_eq hafter] at hx
      exact h.failed tid x ((failed_eq hbefore).trans hx)
    · rw [hother tid heq] at hx
      exact h.failed tid x hx
  · rw [htm]
    exact h.owned
  · have hold : Linked EmptySpot.next s'.tm.node s'.tm.emptySpots cells := by
      rw [htm]
      refine hspots.linked.frame fun e he => ?_
      exact Function.update_of_ne (hspots.mem_lt htable he).ne _ _
    obtain rfl := hold.unique hlinked
    by_cases heq : n = s.tm.nodeCount
    · exact Or.inr ⟨u, by rw [SpotsInv.node_eq hafter, heq]; rfl⟩
    · have hn' : s.tm.node n = some c := by simpa [htm, Tm.apply, heq] using hn
      refine (h.nodes cells hspots.linked n c hn').imp_right (node_kept hother ?_)
      rw [SpotsInv.node_eq hbefore]
      rintro ⟨⟩

/-- A failed call gives back a spot with a null entry. -/
theorem pushStore {n : NodeId} (h : EntriesInv s) (hspots : SpotsInv s cells)
    (hother : ∀ tid, tid ≠ u → s'.thread tid = s.thread tid)
    (hbefore : s.thread u = .allocating t size (.pushStore spot n))
    (hafter : (s'.thread u).allocPc = none)
    (hnext : ∀ c, s.tm.node n = some c → c.next = s.tm.emptySpots)
    (htm : s'.tm = s.tm.apply (.storeEmptySpots (some n))) : EntriesInv s' := by
  have hvaArr : s'.tm.vaArr = s.tm.vaArr := by rw [htm]; rfl
  obtain ⟨next, hcell⟩ : ∃ next, s.tm.node n = some ⟨next, spot⟩ := hspots.facts_eq hbefore
  obtain rfl : next = s.tm.emptySpots := hnext _ hcell
  refine ⟨?_, ?_, fun x hlt hunclaimed => ?_, fun tid x hx => ?_, fun tid x hx => ?_, ?_,
    fun cells' hlinked m c hm => ?_⟩
  · rw [htm]
    exact h.spot_lt
  · rw [htm]
    exact h.beyond
  · rw [hvaArr]
    by_cases heq : x = spot
    · exact Or.inr (heq ▸ h.failed u spot (failed_eq hbefore))
    · rw [htm] at hlt ⊢
      refine h.settled x hlt fun tid hx => ?_
      by_cases hmover : tid = u
      · rw [hmover, SpotsInv.claim_eq hbefore] at hx
        exact heq (Option.some.inj hx).symm
      · exact hunclaimed tid (by rw [hother tid hmover, hx])
  · have hne : tid ≠ u := by
      rintro rfl
      simp [Thread.vacant, hafter] at hx
    rw [hother tid hne] at hx
    rw [hvaArr]
    exact h.vacant tid x hx
  · obtain ⟨-, hx⟩ := failed_before hother (by simp [Thread.failed, hafter]) hx
    rw [hvaArr]
    exact h.failed tid x hx
  · rw [htm]
    exact h.owned
  · have hnode : s'.tm.node = s.tm.node := by rw [htm]; rfl
    have hnew : Linked EmptySpot.next s'.tm.node s'.tm.emptySpots
        ((n, ⟨s.tm.emptySpots, spot⟩) :: cells) := by
      have hhead : s'.tm.emptySpots = some n := by rw [htm]; rfl
      rw [hhead, hnode]
      exact .cons hcell hspots.linked
    obtain rfl := hnew.unique hlinked
    rw [hnode] at hm
    by_cases heq : m = n
    · obtain rfl : (⟨s.tm.emptySpots, spot⟩ : EmptySpot) = c := by
        simpa [heq, hcell] using hm
      exact Or.inl (heq ▸ List.mem_cons_self)
    · rcases h.nodes cells hspots.linked m c hm with hmem | hheld
      · exact Or.inl (List.mem_cons_of_mem _ hmem)
      · refine Or.inr (node_kept hother ?_ hheld)
        rw [SpotsInv.node_eq hbefore]
        exact fun htmp => heq (Option.some.inj htmp).symm

omit [DecidableEq Tid] [Zero V] in
/-- A batch deletion clears the entry and pushes its spot, while nobody is in `tm_alloc`. -/
theorem deleteSegment {index : Int} {g : SegId} {seg : Segment} (h : EntriesInv s)
    (htable : s.tm.TableInv) (hspots : SpotsInv s cells)
    (hbefore : ∀ tid, (s.thread tid).allocPc = none)
    (hafter : ∀ tid, (s'.thread tid).allocPc = none)
    (hspot : s.tm.vaArr index.toNat = .segment g) (hseg : s.tm.segment g = some seg)
    (hready : seg.state = .ready) (htm : s'.tm = s.tm.deleteSegment index) : EntriesInv s' := by
  have hlive : s.tm.Live index.toNat := ⟨g, seg, hspot, hseg, hready⟩
  simp only [Tm.deleteSegment, hspot] at htm
  have hvaArr : s'.tm.vaArr = Function.update s.tm.vaArr index.toNat .null := by rw [htm]
  have hvaN : s'.tm.vaN = s.tm.vaN := by rw [htm]
  refine ⟨fun x hx => ?_, fun x hge => ?_, fun x hlt _ => ?_, fun tid x hx => ?_,
    fun tid x hx => ?_, fun g' seg' hseg' => ?_, fun cells' hlinked n c hn => ?_⟩
  · by_cases heq : x = index.toNat
    · rw [heq]
      exact h.spot_lt _ (by simp [hspot])
    · exact h.spot_lt x (by simpa [hvaArr, heq] using hx)
  · have hne : x ≠ index.toNat := by
      rintro rfl
      have := hspots.circulation.used_lt _ hlive
      omega
    rw [hvaArr, Function.update_of_ne hne]
    exact h.beyond x (hvaN ▸ hge)
  · by_cases heq : x = index.toNat
    · exact Or.inr (by rw [hvaArr, heq, Function.update_self])
    · rw [hvaArr, Function.update_of_ne heq]
      have hsettled := h.settled x (hvaN ▸ hlt) fun tid => by simp [Thread.claim, hbefore tid]
      refine hsettled.imp_left fun hx => ?_
      exact (htable.live_deleted hspot hvaArr (by rw [htm]) x).mpr ⟨hx, heq⟩
  · simp [Thread.vacant, hafter tid] at hx
  · simp [Thread.failed, hafter tid] at hx
  · have hne : g' ≠ g := by
      rintro rfl
      simp [htm] at hseg'
    obtain ⟨x, hx⟩ := h.owned g' seg' (by simpa [htm, hne] using hseg')
    have hx_ne : x ≠ index.toNat := by
      rintro rfl
      exact hne (VaEntry.segment.inj (hx.symm.trans hspot))
    exact ⟨x, by rw [hvaArr, Function.update_of_ne hx_ne, hx]⟩
  · left
    have hnew : Linked EmptySpot.next s'.tm.node s'.tm.emptySpots
        ((s.tm.nodeCount, ⟨s.tm.emptySpots, index.toNat⟩) :: cells) := by
      rw [htm]
      refine .cons (Function.update_self _ _ _) (hspots.linked.frame fun e he => ?_)
      exact Function.update_of_ne (hspots.mem_lt htable he).ne _ _
    obtain rfl := hnew.unique hlinked
    by_cases heq : n = s.tm.nodeCount
    · have hcell : (⟨s.tm.emptySpots, index.toNat⟩ : EmptySpot) = c := by simpa [htm, heq] using hn
      rw [heq, hcell]
      exact List.mem_cons_self
    · refine List.mem_cons_of_mem _ ?_
      have hold : s.tm.node n = some c := by simpa [htm, heq] using hn
      refine (h.nodes cells hspots.linked n c hold).resolve_right ?_
      rintro ⟨tid, htid⟩
      simp [Thread.node, hbefore tid] at htid

end Transfer

variable [Zero V] [DecidableEq Tid] {platform : Platform V}

theorem init (h : (system Tid platform).init s) : EntriesInv s := by
  obtain ⟨hidle, choice, size, align, -, -, -, -, hcreate⟩ := h
  obtain ⟨-, -, htm⟩ := tmCreate_eq hcreate
  have hvacant : ∀ tid, (s.thread tid).vacant = none := fun tid => by rw [hidle tid]; rfl
  have hvaArr : ∀ spot, s.tm.vaArr spot = if spot = 0 then .segment 0 else .garbage := by
    intro spot
    rw [htm]
    simp [Tm.created, Function.update_apply]
  have hvaN : s.tm.vaN = 1 := by rw [htm]; rfl
  refine ⟨fun spot hspot => ?_, fun spot hge => ?_, fun spot hlt _ => ?_, fun tid spot hspot => ?_,
    fun tid spot hspot => ?_, fun g seg hseg => ⟨0, ?_⟩, fun _ _ n c hn => ?_⟩
  · by_cases heq : spot = 0
    · rw [heq]
      decide
    · simp [hvaArr, heq] at hspot
  · rw [hvaArr, if_neg (by omega)]
  · obtain rfl : spot = 0 := by omega
    left
    rw [htm]
    simp [Tm.Live, Tm.created]
  · simp [hvacant tid] at hspot
  · simp [Thread.failed, Thread.allocPc, hidle tid] at hspot
  · have hzero : g = 0 := by
      by_contra hne
      rw [htm] at hseg
      simp [Tm.created, hne] at hseg
    simp [hvaArr, hzero]
  · rw [htm] at hn
    simp [Tm.created, Tm.bare] at hn

variable {l : Label Tid V} {t : Tx V} {size : Nat} {cells : List (NodeId × EmptySpot)}

theorem alloc_step (h : EntriesInv s) (htable : s.tm.TableInv) (hspots : SpotsInv s cells)
    (hsegments : SegmentsInv s) (hpush : PushesAlone s l) {pc : AllocPc} {event : Event V}
    (hok : ∀ g, event ≠ .op (.failData g) ∧ event ≠ .op (.failLocks g))
    (hlive : ∀ x, s.tm.Live x → s'.tm.Live x)
    (hother : ∀ tid, tid ≠ l.tid → s'.thread tid = s.thread tid)
    (hbefore : s.thread l.tid = .allocating t size pc)
    (hmove : TmAllocMove s.tm l.choice t size pc event (s'.thread l.tid))
    (htm : s'.tm = s.tm.after event) : EntriesInv s' := by
  generalize hafter : s'.thread l.tid = thread' at hmove
  -- the mover keeps its spot and its node
  have hstill : ∀ {pc'}, thread' = .allocating t size pc' → pc'.claim = pc.claim →
      (∀ spot, pc'.vacant = some spot → pc.vacant = some spot) → pc'.failed = none →
      pc'.node = pc.node →
      (s'.tm.emptySpots, s'.tm.node, s'.tm.vaN, s'.tm.vaArr) =
        (s.tm.emptySpots, s.tm.node, s.tm.vaN, s.tm.vaArr) →
      (∀ g seg, s'.tm.segment g = some seg → ∃ seg, s.tm.segment g = some seg) → EntriesInv s' := by
    intro pc' hpc' hclaim hvacant hfailed hown hfields hsegment
    simp only [Prod.mk.injEq] at hfields
    obtain ⟨hhead, hnode, hvaN, hvaArr⟩ := hfields
    rw [hpc'] at hafter
    refine h.of_still hother hhead hnode hvaN hvaArr hlive hsegment (fun spot hspot => Or.inl ?_)
      (fun spot hspot => ?_) (fun spot hspot => ?_) ?_
    · rw [SpotsInv.claim_eq hbefore] at hspot
      rw [SpotsInv.claim_eq hafter, hclaim, hspot]
    · rw [vacant_eq hafter] at hspot
      rw [vacant_eq hbefore, hvacant spot hspot]
    · rw [failed_eq hafter, hfailed] at hspot
      cases hspot
    · rw [SpotsInv.node_eq hafter, SpotsInv.node_eq hbefore, hown]
  have hsame : s'.tm.segment = s.tm.segment →
      ∀ g seg, s'.tm.segment g = some seg → ∃ seg, s.tm.segment g = some seg :=
    fun hsegment g seg hseg => ⟨seg, hsegment ▸ hseg⟩
  have hset : ∀ (g : SegId) (f : Segment → Segment),
      s'.tm.segment = Function.update s.tm.segment g ((s.tm.segment g).map f) →
      ∀ g' seg, s'.tm.segment g' = some seg → ∃ seg, s.tm.segment g' = some seg := by
    intro g f hsegment g' seg hseg
    by_cases heq : g' = g
    · subst heq
      rw [hsegment, Function.update_self] at hseg
      obtain ⟨seg', hseg', -⟩ := Option.map_eq_some_iff.mp hseg
      exact ⟨seg', hseg'⟩
    · rw [hsegment, Function.update_of_ne heq] at hseg
      exact ⟨seg, hseg⟩
  cases hmove with
  | lock | empty | nonempty | popIndex | popTmp | popNext =>
      exact hstill rfl rfl (fun _ hspot => by cases hspot) rfl rfl (by rw [htm]; rfl)
        (hsame (by rw [htm]; rfl))
  | unlock =>
      exact hstill rfl rfl (fun _ hspot => hspot) rfl rfl (by rw [htm]; rfl)
        (hsame (by rw [htm]; rfl))
  | popStore => exact h.popStore hspots hother hbefore hafter htm
  | popFree => exact h.popFree hother hbefore hafter htm
  | counter => exact h.counter hother hbefore hafter htm
  | initStruct hfits => exact h.newSegment hspots hfits hlive hother hbefore hafter htm
  | noStruct hfits => exact h.noSegment hspots hfits hlive hother hbefore hafter htm
  | @initData spot g =>
      exact hstill rfl rfl (fun _ hspot => by cases hspot) rfl rfl (by rw [htm]; rfl)
        (hset g (fun seg => { seg with numWords := _, state := .filled }) (by rw [htm]; rfl))
  | noData => exact absurd rfl (hok _).1
  | noLocks => exact absurd rfl (hok _).2
  | @initLocks spot g =>
      have hpointer : s.tm.vaArr spot = .segment g := hspots.facts_eq hbefore
      obtain ⟨seg, hseg, -⟩ := hsegments.building l.tid g .filled (by rw [hbefore]; rfl)
      refine h.of_still hother (by rw [htm]; rfl) (by rw [htm]; rfl) (by rw [htm]; rfl)
        (by rw [htm]; rfl) hlive
        (hset g (fun seg => { seg with size := size, state := .ready }) (by rw [htm]; rfl))
        (fun x hx => Or.inr ?_) (fun x hx => ?_) (fun x hx => ?_) ?_
      · rw [SpotsInv.claim_eq hbefore] at hx
        obtain rfl : spot = x := Option.some.inj hx
        refine ⟨g, { seg with size := size, state := .ready }, ?_, ?_, rfl⟩
        · rw [htm]
          exact hpointer
        · rw [htm]
          simp [Tm.after, Tm.apply, Tm.setSegment, hseg]
      · rw [hafter] at hx
        cases hx
      · rw [hafter] at hx
        cases hx
      · rw [hafter, SpotsInv.node_eq hbefore]
        rfl
  | pushNode => exact h.pushNode htable hspots hother hbefore hafter htm
  | pushStore =>
      exact h.pushStore hspots hother hbefore (by rw [hafter]; rfl) (hpush _ _ _ _ hbefore).1 htm

/-- **One step** keeps the table and the list complete. -/
theorem step {ok : State Tid V → Label Tid V → Prop} (hok : ∀ s l, ok s l → SegmentsBuilt s l)
    (hpush : ∀ s l, ((system Tid platform).restrict ok).Reachable s → ok s l → PushesAlone s l)
    (hreach : ((system Tid platform).restrict ok).Reachable s) (h : EntriesInv s) (hokl : ok s l)
    (hstep : (system Tid platform).step s l s') : EntriesInv s' := by
  obtain ⟨cells, hspots⟩ := spotsInv hpush hreach
  have hsystem := hreach.of_restrict
  have hsegments := segmentsInv hsystem
  obtain ⟨hmove, htm, hother⟩ := system_step_move hstep
  cases hmove.spotMove with
  | quiet hlock hhead hnode hvaN hvaArr hsegment hbefore hafter =>
      rw [← htm] at hhead hnode hvaN hvaArr hsegment
      refine h.of_still hother hhead hnode hvaN hvaArr
        (fun x => (Tm.TableInv.live_congr hvaArr hsegment x).mpr)
        (fun g seg hseg => ⟨seg, hsegment ▸ hseg⟩) (fun spot hspot => ?_) (fun spot hspot => ?_)
        (fun spot hspot => ?_) ?_
      · simp [Thread.claim, hbefore] at hspot
      · rcases hafter with hafter | hafter <;> simp [Thread.vacant, hafter, AllocPc.vacant] at hspot
      · rcases hafter with hafter | hafter <;> simp [Thread.failed, hafter, AllocPc.failed] at hspot
      · rcases hafter with hafter | hafter <;> simp [Thread.node, hbefore, hafter, AllocPc.node]
  | @alloc t size pc hbefore hmove =>
      refine h.alloc_step (tableInv hsystem) hspots hsegments (hpush s l hreach hokl) (hok s l hokl)
        (fun x hx => ?_) hother hbefore hmove htm
      obtain ⟨g, seg, hinst⟩ := hx
      rcases hspots.installed_or_deleted hsegments hstep hinst with hinst' | ⟨hdrains, -⟩
      · exact ⟨g, seg, hinst'⟩
      · rw [hbefore] at hdrains
        cases hdrains
  | deleted hevent hdrains hafter hspot hseg hready =>
      obtain ⟨holders, lost, hholds⟩ := holdsInv hsystem
      have hnone : ∀ tid, (s.thread tid).allocPc = none := by
        intro tid
        by_contra hsome
        obtain ⟨pc, hpc⟩ := Option.ne_none_iff_exists'.mp hsome
        have := hholds.not_holds_of_drains hdrains tid
        simp [Thread.holds_of_allocPc hpc] at this
      have hnone' : ∀ tid, (s'.thread tid).allocPc = none := by
        intro tid
        by_cases heq : tid = l.tid
        · rw [heq, hafter]
        · rw [hother tid heq, hnone tid]
      rw [hevent] at htm
      exact h.deleteSegment (tableInv hsystem) hspots hnone hnone' hspot hseg hready htm

end EntriesInv

/-- **The table and the list are complete** in every run that builds every segment it starts and
pushes alone. -/
theorem entriesInv [Zero V] [DecidableEq Tid] {platform : Platform V} {s : State Tid V}
    {ok : State Tid V → Label Tid V → Prop} (hok : ∀ s l, ok s l → SegmentsBuilt s l)
    (hpush : ∀ s l, ((system Tid platform).restrict ok).Reachable s → ok s l → PushesAlone s l)
    (h : ((system Tid platform).restrict ok).Reachable s) : EntriesInv s := by
  refine Machine.Reachable.invariant (M := (system Tid platform).restrict ok) (P := EntriesInv)
    (fun s hs => ?_) (fun s l s' hreach ih hstep => ?_) h
  · exact EntriesInv.init (show (system Tid platform).init s from hs)
  · exact ih.step hok hpush hreach hstep.1 hstep.2

end TransactionalMemory
