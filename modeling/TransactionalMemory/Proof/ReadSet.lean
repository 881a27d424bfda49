import TransactionalMemory.Proof.View

/-!
# The read set of a read-write transaction

`add_to_readset` records a word once, `tm_read` records only words that are not in the write set,
and `tm_write` erases the word it adds there. So the locks of the read set are pairwise distinct and
none of them is a lock of the write set.
-/

namespace TransactionalMemory

open Concurrency

variable {V Tid : Type}

def Tx.readLocks (t : Tx V) : List Word := (t.rs.getD []).filterMap RsItem.versionedLock

/-- The sets of a transaction share no lock, and none has one twice. -/
structure Tx.ReadsApart (t : Tx V) : Prop where
  distinct : t.readLocks.Nodup
  disjoint : ∀ w ∈ t.readLocks, w ∉ t.locks

theorem eraseLock_sublist {rs : List RsItem} {w : Word} :
    ((Tx.eraseLock rs w).filterMap RsItem.versionedLock).Sublist
      (rs.filterMap RsItem.versionedLock) := by
  induction rs with
  | nil => exact List.Sublist.slnil
  | cons head rs ih =>
      rw [Tx.eraseLock]
      split
      · rename_i hlock
        simp [hlock]
      · cases hhead : head.versionedLock with
        | none => simpa [hhead] using ih
        | some w' => simpa [hhead] using ih.cons_cons w'

theorem not_mem_eraseLock {rs : List RsItem} {w : Word}
    (hnodup : (rs.filterMap RsItem.versionedLock).Nodup) :
    w ∉ (Tx.eraseLock rs w).filterMap RsItem.versionedLock := by
  induction rs with
  | nil => simp [Tx.eraseLock]
  | cons head rs ih =>
      rw [Tx.eraseLock]
      split
      · rename_i hlock
        rw [List.filterMap_cons_some hlock, List.nodup_cons] at hnodup
        simpa using hnodup.1
      · rename_i hlock
        cases hhead : head.versionedLock with
        | none =>
            rw [List.filterMap_cons_none hhead] at hnodup ⊢
            exact ih hnodup
        | some w' =>
            rw [List.filterMap_cons_some hhead, List.nodup_cons] at hnodup
            rw [List.filterMap_cons_some hhead, List.mem_cons, not_or]
            refine ⟨?_, ih hnodup.2⟩
            rintro rfl
            exact hlock hhead

theorem map_versionedLock_overwrite {ws : List (WsItem V)} {addr : Addr} {x : V} :
    (Tx.overwrite ws addr x).map WsItem.versionedLock = ws.map WsItem.versionedLock := by
  induction ws with
  | nil => rfl
  | cons head ws ih =>
      rw [Tx.overwrite]
      split
      · rfl
      · rw [List.map_cons, ih, List.map_cons]

namespace Tx.ReadsApart

variable {t t' : Tx V} {w : Word} {addr : Addr} {x : V}

theorem start {rv : Int} {isRo : Bool} {bloom : Bf} : (Tx.start rv isRo bloom : Tx V).ReadsApart :=
  ⟨List.nodup_nil, by simp [Tx.readLocks, Tx.start]⟩

theorem recorded (h : t.ReadsApart) (hrw : t.isRo = false) (hnew : w ∉ t.locks) {v : Int}
    {ok : Bool} (hadd : t.addToReadset w v true = .next (ok, t')) : t'.ReadsApart := by
  obtain ⟨rs, hrs, ⟨-, rfl, -⟩ | ⟨-, hfalse, -⟩ | ⟨-, hfresh, sz, rfl⟩⟩ :=
    Tx.addToReadset_cases hadd
  · exact h
  · cases hfalse
  · have hfresh' := hfresh.resolve_left (by simp [hrw])
    have hlocks : t.readLocks = rs.filterMap RsItem.versionedLock := by simp [Tx.readLocks, hrs]
    obtain ⟨hdistinct, hdisjoint⟩ := h
    rw [hlocks] at hdistinct hdisjoint
    have hafter : Tx.readLocks { t with rs := some (rs ++ [⟨v, some w⟩]), rsSz := sz } =
        rs.filterMap RsItem.versionedLock ++ [w] := by
      simp [Tx.readLocks]
    refine ⟨?_, ?_⟩
    · rw [hafter, List.nodup_append]
      refine ⟨hdistinct, by simp, fun w' hw' w'' hw'' => ?_⟩
      obtain rfl : w'' = w := by simpa using hw''
      obtain ⟨item, hmem, hlock⟩ := List.mem_filterMap.mp hw'
      rintro rfl
      exact hfresh' item hmem hlock
    · rw [hafter]
      intro w' hw'
      rcases List.mem_append.mp hw' with hw' | hw'
      · exact hdisjoint w' hw'
      · obtain rfl : w' = w := by simpa using hw'
        exact hnew

/-- A word that joins the write set leaves the read set. -/
theorem appended (h : t.ReadsApart) {bit : Int → BitVec 64} {reallocOk mallocOk : Bool}
    (happend : t.append bit addr x w reallocOk mallocOk = .next (some t')) : t'.ReadsApart := by
  obtain ⟨rs, sz, hrs, rfl⟩ := Tx.append_eq happend
  have hlocks : t.readLocks = rs.filterMap RsItem.versionedLock := by simp [Tx.readLocks, hrs]
  obtain ⟨hdistinct, hdisjoint⟩ := h
  rw [hlocks] at hdistinct hdisjoint
  refine ⟨hdistinct.sublist eraseLock_sublist, fun w' hw' hws => ?_⟩
  have hbefore : w' ∈ rs.filterMap RsItem.versionedLock := eraseLock_sublist.subset hw'
  have hsplit : w' ∈ t.locks ∨ w' = w := by simpa [Tx.locks] using hws
  rcases hsplit with hold | rfl
  · exact hdisjoint w' hbefore hold
  · exact not_mem_eraseLock hdistinct hw'

theorem overwritten (h : t.ReadsApart) :
    Tx.ReadsApart { t with ws := Tx.overwrite t.ws addr x } := by
  refine ⟨h.distinct, ?_⟩
  simp only [Tx.locks, map_versionedLock_overwrite]
  exact h.disjoint

theorem sorted (h : t.ReadsApart) {ws : List (WsItem V)} (hperm : ws.Perm t.ws) :
    Tx.ReadsApart { t with ws := ws } :=
  ⟨h.distinct, fun w hw hws => h.disjoint w hw ((hperm.map _).mem_iff.mp hws)⟩

end Tx.ReadsApart

/-! ### One step -/

section Step

variable {platform : Platform V} {tm : Tm V} {choice : Choice V} {thread thread' : Thread V}
  {event : Event V} {log : TxLog V}

def Thread.ReadsApart (thread : Thread V) : Prop :=
  ∀ t, thread.tx = some t → t.isRo = false → t.ReadsApart

theorem ThreadMove.readsApart (hmode : thread.Mode) (hwf : thread.Wf)
    (hmalloc : choice.mallocOk 0 = true) (hcounted : thread.Counted log)
    (hbuffered : log.Buffered tm platform.bit thread)
    (h : ThreadMove platform tm choice thread event thread') (hapart : thread.ReadsApart) :
    thread'.ReadsApart := by
  intro t' htx hrw
  cases h with
  | call h => cases h <;> exact hapart t' htx hrw
  | begin h =>
      cases h with
      | started =>
          obtain rfl := Option.some.inj htx
          exact .start
      | _ => cases htx
  | @read t c _ _ _ h =>
      cases h with
      | @confirmed i versionRead x target w t'' ok hword hread hadd =>
          obtain rfl := Option.some.inj htx
          obtain ⟨hwords, hi, htarget, own, hown, hlength⟩ := hcounted
          have hw : log.words[i]? = some w := hwords.wordAt (by have := hwords.length; omega) hword
          have hsets := hbuffered.sets t _ rfl hmode
          have hlast := hbuffered.call.2.2 w hw
          rw [hmalloc] at hadd
          refine (hapart t rfl hmode).recorded hmode (fun hmem => ?_) hadd
          obtain ⟨item, hitem, hlock⟩ := List.mem_map.mp hmem
          refine hsets.lastWritten_ne_none_iff.mpr (List.mem_map.mpr ⟨item, hitem, ?_⟩) hlast
          rw [hwf.sameWord t rfl item hitem, hlock]
      | _ => exact hapart t' htx hrw
  | @roRead t c _ _ _ h =>
      have hro : t.isRo = true := hmode
      cases h with
      | recorded hi hw hread hold hadd | notRecorded hi hw hread hold hadd
        | extended hrs hk hw hadd | notExtended hrs hk hw hadd =>
          obtain rfl := Option.some.inj htx
          rw [(Tx.addToReadset_eq hadd).2.2.1, hro] at hrw
          cases hrw
      | _ => exact hapart t' htx hrw
  | @write t c _ _ _ h =>
      cases h with
      | overwritten =>
          obtain rfl := Option.some.inj htx
          exact (hapart t rfl hmode).overwritten
      | appended hi hw hfree hold hx hmiss happend =>
          obtain rfl := Option.some.inj htx
          exact (hapart t rfl hmode).appended happend
      | _ => exact hapart t' htx hrw
  | alloc h => cases h <;> exact hapart t' htx hrw
  | @free t target _ _ h =>
      cases h with
      | first => exact hapart t' htx hrw
      | queued =>
          obtain rfl := Option.some.inj htx
          exact ⟨(hapart t rfl hrw).distinct, (hapart t rfl hrw).disjoint⟩
  | @finish t pc _ _ h =>
      cases h with
      | sort =>
          obtain rfl := Option.some.inj htx
          exact (hapart t rfl hrw).sorted (platform.qsort_perm _ _)
      | early | noBatch | wrunlock => cases htx
      | _ => exact hapart t' htx hrw
  | start | cleanup | retIdle => cases htx
  | retLive => exact hapart t' htx hrw

end Step

/-! ### Runs -/

section Runs

variable [Zero V] [DecidableEq Tid] {platform : Platform V} {s s' : State Tid V} {l : Label Tid V}

/-- What a transaction needs of its steps to keep its sets in order. -/
def AccessOk (s : State Tid V) (l : Label Tid V) : Prop :=
  NoFailure s l ∧ ReadsFit s l ∧ WritesFit s l

structure SetsInv (platform : Platform V) (s : State Tid V) (hist : History Tid V) : Prop where
  counted : CountedInv s hist
  buffered : BufferedInv platform s hist
  apart : ∀ tid, (s.thread tid).ReadsApart

/-- **Every run** keeps the sets of its transactions in order. -/
theorem setsInv {ok : State Tid V → Label Tid V → Prop} {p : State Tid V × History Tid V}
    (hok : ∀ s l, ok s l → AccessOk s l) (hbit : ∀ pos, platform.bit pos ≠ 0#64)
    (h : (historyMachine Tid platform ok).Reachable p) : SetsInv platform p.1 p.2 := by
  refine h.invariant (P := fun p => SetsInv platform p.1 p.2) (fun p hp => ?_)
    fun p l p' hreach ih hs => ?_
  · have hinit : (system Tid platform).init p.1 := hp.1
    rw [hp.2]
    refine ⟨CountedInv.init hinit, BufferedInv.init hinit, fun tid t htx => ?_⟩
    rw [hinit.1 tid] at htx
    cases htx
  · obtain ⟨⟨hokl, hsys⟩, hhist⟩ := hs
    obtain ⟨hfailure, hreads, hwrites⟩ := hok _ _ hokl
    have hreach' : ((system Tid platform).restrict NoFailure).Reachable p.1 :=
      Machine.Reachable.restrict_le (fun s l hokl => (hok s l hokl).1) hreach.of_observe
    have hsystem := hreach'.of_restrict
    obtain ⟨hmove, -, hother⟩ := system_step_move hsys
    rw [hhist]
    refine ⟨ih.counted.step hsystem hreads hsys,
      ih.buffered.step hbit hreach' hfailure hreads hwrites hsys ih.counted, fun tid => ?_⟩
    by_cases heq : tid = l.tid
    · rw [heq]
      exact hmove.readsApart (threadMode hsystem l.tid) (threadWf hsystem l.tid) (hfailure.1 0)
        (ih.counted l.tid) (ih.buffered l.tid) (ih.apart l.tid)
    · rw [hother tid heq]
      exact ih.apart tid

end Runs

end TransactionalMemory
