import TransactionalMemory.Proof.OpenTx

/-!
# Growing arrays

Each of the three arrays grows by a fifth, rounded down, when it is full. From eight entries on that
is at least one more, and no capacity is ever less than eight.
-/

namespace TransactionalMemory

variable {V : Type}

theorem lt_resize {n : Int} (h : 8 ≤ n) : n < resize n := by
  unfold resize
  omega

/-- The sets of a transaction have lost no array and fit into those they have. -/
structure Tx.Roomy (t : Tx V) : Prop where
  reads : ∃ rs, t.rs = some rs ∧ (rs.length : Int) ≤ t.rsSz
  rsSz : 8 ≤ t.rsSz
  writes : (t.ws.length : Int) ≤ t.wsSz
  wsSz : 8 ≤ t.wsSz

namespace Tx.Roomy

variable {t : Tx V}

theorem start {rv : Int} {isRo : Bool} {bloom : Bf} : (Tx.start rv isRo bloom : Tx V).Roomy := by
  refine ⟨⟨[], rfl, ?_⟩, ?_, ?_, ?_⟩ <;> simp [Tx.start, vecInitial]

theorem addToReadset (h : t.Roomy) (w : Word) (v : Int) :
    ∃ t', t.addToReadset w v true = .next (true, t') ∧ t'.Roomy := by
  obtain ⟨⟨rs, hrs, hlength⟩, hsz, hwrites, hwsSz⟩ := h
  have hresize := lt_resize hsz
  let sz := if decide (t.rsSz ≤ rs.length) = true then resize t.rsSz else t.rsSz
  have hroom : (rs.length : Int) < sz := by
    simp only [sz, decide_eq_true_eq]
    split <;> omega
  have hle : t.rsSz ≤ sz := by
    simp only [sz]
    split <;> omega
  unfold Tx.addToReadset
  rw [hrs]
  dsimp only
  by_cases hseen : (!t.isRo && rs.any fun item => item.versionedLock = some w) = true
  · rw [if_pos hseen]
    exact ⟨t, rfl, ⟨rs, hrs, hlength⟩, hsz, hwrites, hwsSz⟩
  · rw [if_neg hseen]
    simp only [Bool.not_true, Bool.and_false, Bool.false_eq_true, if_false, sz] at hroom ⊢
    rw [if_pos hroom]
    refine ⟨_, rfl, ⟨_, rfl, ?_⟩, hsz.trans hle, hwrites, hwsSz⟩
    rw [List.length_append]
    exact hroom

theorem length_eraseLock {rs : List RsItem} {w : Word} :
    (Tx.eraseLock rs w).length = rs.length := by
  induction rs with
  | nil => rfl
  | cons item rs ih =>
      unfold Tx.eraseLock
      split
      · rfl
      · exact congrArg (· + 1) ih

theorem append (h : t.Roomy) (bit : Int → BitVec 64) (addr : Addr) (x : V) (w : Word) :
    ∃ t', t.append bit addr x w true true = .next (some t') ∧ t'.Roomy := by
  obtain ⟨⟨rs, hrs, hlength⟩, hsz, hwrites, hwsSz⟩ := h
  have hresize := lt_resize hwsSz
  let sz := if decide ((t.ws.length : Int) = t.wsSz) = true then resize t.wsSz else t.wsSz
  have hroom : (t.ws.length : Int) < sz := by
    simp only [sz, decide_eq_true_eq]
    split <;> omega
  have hle : t.wsSz ≤ sz := by
    simp only [sz]
    split <;> omega
  refine ⟨{ t with
    ws := t.ws ++ [⟨addr, x, w, w⟩]
    wsSz := sz
    wsBloom := bfAdd bit t.wsBloom addr
    rs := some (Tx.eraseLock rs w) }, ?_, ⟨_, rfl, by rwa [length_eraseLock]⟩, hsz, ?_, ?_⟩
  · unfold Tx.append
    simp only [Bool.not_true, Bool.and_false, Bool.false_eq_true, if_false, hrs, sz] at hroom ⊢
    rw [if_pos hroom]
  · change ((t.ws ++ [_]).length : Int) ≤ sz
    rw [List.length_append]
    simp
    omega
  · exact hwsSz.trans hle

theorem overwrite (h : t.Roomy) (addr : Addr) (x : V) :
    Tx.Roomy { t with ws := Tx.overwrite t.ws addr x } := by
  have hlength : ((Tx.overwrite t.ws addr x).map WsItem.addr).length =
      (t.ws.map WsItem.addr).length := congrArg List.length Tx.map_addr_overwrite
  rw [List.length_map, List.length_map] at hlength
  exact ⟨h.reads, h.rsSz, by rw [hlength]; exact h.writes, h.wsSz⟩

theorem refresh (h : t.Roomy) (rv : Int) : Tx.Roomy { t with rv := rv } :=
  ⟨h.reads, h.rsSz, h.writes, h.wsSz⟩

theorem sorted (h : t.Roomy) {ws : List (WsItem V)} (hperm : ws.Perm t.ws) :
    Tx.Roomy { t with ws := ws } :=
  ⟨h.reads, h.rsSz, by rw [hperm.length_eq]; exact h.writes, h.wsSz⟩

end Tx.Roomy

/-- There is room for one more entry of `tm->to_free` beside the one that is stored next. -/
structure Tm.QueueRoomy (tm : Tm V) : Prop where
  length_lt : (tm.toFree.length : Int) < tm.toFreeSz
  size_le : 8 ≤ tm.toFreeSz
  not_null : tm.toFreeNull = false

/-! ### Steps -/

section Steps

variable [Zero V] {platform : Platform V} {tm : Tm V} {choice : Choice V}
  {thread thread' : Thread V} {event : Event V}

omit [Zero V] in
theorem Tm.deleteSegment_queue (tm : Tm V) (spot : Int) :
    (tm.deleteSegment spot).toFreeLock = tm.toFreeLock ∧
      (tm.deleteSegment spot).toFree = tm.toFree ∧
      (tm.deleteSegment spot).toFreeSz = tm.toFreeSz ∧
      (tm.deleteSegment spot).toFreeNull = tm.toFreeNull ∧
      (tm.deleteSegment spot).vaN = tm.vaN := by
  unfold Tm.deleteSegment
  split <;> exact ⟨rfl, rfl, rfl, rfl, rfl⟩

/-- Every step leaves room for the next entry of `to_free`, a drained queue its whole array. -/
theorem Tm.QueueRoomy.step (hqueue : tm.QueueRoomy)
    (hmove : ThreadMove platform tm choice thread event thread') : (tm.after event).QueueRoomy := by
  obtain ⟨hlt, hsz, hnull⟩ := hqueue
  cases hmove with
  | finish h =>
      cases h with
      | @push i spot capacity hi hcapacity hroom =>
          have hresize := lt_resize hsz
          have hlength : ((tm.toFree ++ [spot]).length : Int) = tm.toFree.length + 1 := by simp
          have hroom' : (tm.toFree.length : Int) + 1 < capacity ∧ 8 ≤ capacity := by omega
          exact ⟨hlength.trans_lt hroom'.1, hroom'.2, hnull⟩
      | drained => exact ⟨(Int.natCast_nonneg tm.toFree.length).trans_lt hlt, hsz, hnull⟩
      | @drain i spot | @drainNull i spot =>
          obtain ⟨-, htoFree, hsz', hnull', -⟩ := tm.deleteSegment_queue spot
          exact ⟨by simpa only [Tm.after, Tm.apply, htoFree, hsz'] using hlt, hsz'.symm ▸ hsz,
            hnull'.trans hnull⟩
      | _ => exact ⟨hlt, hsz, hnull⟩
  | call h | begin h | read h | roRead h | write h | alloc h | free h =>
      cases h <;> exact ⟨hlt, hsz, hnull⟩
  | _ => exact ⟨hlt, hsz, hnull⟩

omit [Zero V] in
theorem Tx.Roomy.of_addToReadset {t t' : Tx V} {w : Word} {v : Int} {ok : Bool} (h : t.Roomy)
    (hadd : t.addToReadset w v (choice.mallocOk 0) = .next (ok, t'))
    (hmalloc : ∀ i, choice.mallocOk i = true) : t'.Roomy := by
  obtain ⟨t'', hadd', hroomy⟩ := h.addToReadset w v
  rw [hmalloc 0, hadd'] at hadd
  cases hadd
  exact hroomy

omit [Zero V] in
/-- Every step of a thread whose allocations succeed leaves the sets of its transaction room. -/
theorem ThreadMove.roomy (hmove : ThreadMove platform tm choice thread event thread')
    (hmalloc : ∀ i, choice.mallocOk i = true) (hroomy : ∀ t, thread.tx = some t → t.Roomy) :
    ∀ t', thread'.tx = some t' → t'.Roomy := by
  intro t' htx
  cases hmove with
  | begin h =>
      cases h with
      | started =>
          obtain rfl := Option.some.inj htx
          exact .start
      | _ => cases htx
  | @read t _ _ _ _ h =>
      cases h with
      | confirmed hw hread hadd =>
          obtain rfl := Option.some.inj htx
          exact (hroomy t rfl).of_addToReadset hadd hmalloc
      | _ => exact hroomy t' htx
  | @roRead t _ _ _ _ h =>
      cases h with
      | recorded hi hw hread hold hadd | notRecorded hi hw hread hold hadd =>
          obtain rfl := Option.some.inj htx
          exact (hroomy t rfl).of_addToReadset hadd hmalloc
      | extended hrs hk hw hadd | notExtended hrs hk hw hadd =>
          obtain rfl := Option.some.inj htx
          exact ((hroomy t rfl).refresh _).of_addToReadset hadd hmalloc
      | _ => exact hroomy t' htx
  | @write t _ _ _ _ h =>
      cases h with
      | overwritten =>
          obtain rfl := Option.some.inj htx
          exact (hroomy t rfl).overwrite _ _
      | appended hi hw hfree hold hx hmiss happend =>
          obtain rfl := Option.some.inj htx
          obtain ⟨t'', happend', hroomy'⟩ := (hroomy t rfl).append platform.bit _ _ _
          rw [hmalloc 0, hmalloc 1, happend'] at happend
          cases happend
          exact hroomy'
      | _ => exact hroomy t' htx
  | @free t target _ _ h =>
      cases h with
      | first => exact hroomy t' htx
      | queued =>
          obtain rfl := Option.some.inj htx
          obtain ⟨hreads, hrsSz, hwrites, hwsSz⟩ := hroomy t rfl
          exact ⟨hreads, hrsSz, hwrites, hwsSz⟩
  | @finish t _ _ _ h =>
      cases h with
      | sort =>
          obtain rfl := Option.some.inj htx
          exact (hroomy t rfl).sorted (platform.qsort_perm _ _)
      | early | noBatch | wrunlock => cases htx
      | _ => exact hroomy t' htx
  | call h | alloc h => cases h <;> exact hroomy t' htx
  | start | cleanup | retIdle => cases htx
  | retLive => exact hroomy t' htx

end Steps

end TransactionalMemory
