import TransactionalMemory.Proof.AccessMoves

/-!
# What `tm_begin`, `tm_end`, `tm_alloc` and `tm_free` can do

The moves that change the region, with the tests they have passed, and one case analysis over all
moves of a thread.
-/

namespace TransactionalMemory

variable {V : Type} (platform : Platform V) (tm : Tm V) (choice : Choice V)

inductive TmBeginMove (isRo : Bool) : BeginPc → Event V → Thread V → Prop where
  | rdlock (hwriter : tm.writer = false) :
      TmBeginMove isRo .rdlock (.op .rdlock) (.beginning isRo .body)
  | noStruct (hmalloc : choice.mallocOk 0 = false) :
      TmBeginMove isRo .body (.op .tau) (.returning (.begin false) none)
  | noSets (hmalloc : choice.mallocOk 1 = false ∨ isRo = false ∧ choice.mallocOk 2 = false) :
      TmBeginMove isRo .body (.op (.loadClock tm.globalVersion)) (.returning (.begin false) none)
  | started (hstruct : choice.mallocOk 0 = true) (hreads : choice.mallocOk 1 = true)
      (hwrites : isRo = true ∨ choice.mallocOk 2 = true) :
      TmBeginMove isRo .body (.op (.loadClock tm.globalVersion)) (.returning (.begin true)
        (some (Tx.start tm.globalVersion isRo (bfInit choice.garbage (toInt tm.align)))))

inductive TmEndMove (t : Tx V) : EndPc → Event V → Thread V → Prop where
  | early (hempty : t.isRo = true ∨ t.ws = []) :
      TmEndMove t .start (.op .rdunlock) (.returning (.finish true) none)
  | sort (hrw : t.isRo = false) (hne : t.ws ≠ []) :
      TmEndMove t .start (.op .tau)
        (.ending { t with ws := platform.qsort wsItemCmp t.ws } (.tryLoad 0))
  | locked {i : Nat} (hi : t.ws[i]? = none) :
      TmEndMove t (.tryLoad i) (.op .tau) (.ending t .fetchAdd)
  | refused {i : Nat} {item} (hi : t.ws[i]? = some item)
      (hvalid : tm.valid item.versionedLock = true)
      (hrefuse : vlTryLockRefuses (tm.lock item.versionedLock) t.rv = true) :
      TmEndMove t (.tryLoad i) (.op (.loadLock item.versionedLock (tm.lock item.versionedLock)))
        (.ending t (.rollback i 0))
  | tryLoad {i : Nat} {item} (hi : t.ws[i]? = some item)
      (hvalid : tm.valid item.versionedLock = true)
      (hpass : vlTryLockRefuses (tm.lock item.versionedLock) t.rv = false) :
      TmEndMove t (.tryLoad i) (.op (.loadLock item.versionedLock (tm.lock item.versionedLock)))
        (.ending t (.tryCas i (tm.lock item.versionedLock)))
  | cas {i : Nat} {item prev} (hi : t.ws[i]? = some item)
      (hvalid : tm.valid item.versionedLock = true) (hsame : tm.lock item.versionedLock = prev) :
      TmEndMove t (.tryCas i prev) (.op (.casLock item.versionedLock prev true))
        (.ending t (.tryLoad (i + 1)))
  | casLost {i : Nat} {item prev} (hi : t.ws[i]? = some item)
      (hvalid : tm.valid item.versionedLock = true) (hdiff : tm.lock item.versionedLock ≠ prev) :
      TmEndMove t (.tryCas i prev) (.op (.casLock item.versionedLock prev false))
        (.ending t (.rollback i 0))
  | rollback {i j : Nat} {item} (hij : j < i) (hj : t.ws[j]? = some item)
      (hvalid : tm.valid item.versionedLock = true) :
      TmEndMove t (.rollback i j) (.op (.fetchSubLock item.versionedLock))
        (.ending t (.rollback i (j + 1)))
  | rolledBack {i j : Nat} (hij : ¬ j < i) :
      TmEndMove t (.rollback i j) (.op .tau) (.aborting t (.finish false))
  | fetchAddSkip {wv} (hwv : checkedInt (tm.globalVersion + 1) = some wv) (hskip : t.rv + 1 = wv) :
      TmEndMove t .fetchAdd (.op (.fetchAddClock tm.globalVersion)) (.ending t (.validated wv))
  | fetchAdd {wv} (hwv : checkedInt (tm.globalVersion + 1) = some wv) (hskip : t.rv + 1 ≠ wv) :
      TmEndMove t .fetchAdd (.op (.fetchAddClock tm.globalVersion)) (.ending t (.validate wv 0))
  | validateDone {wv} {i : Nat} {rs} (hrs : t.rs = some rs) (hi : rs[i]? = none) :
      TmEndMove t (.validate wv i) (.op .tau) (.ending t (.validated wv))
  | validateErased {wv} {i : Nat} {rs versionRead} (hrs : t.rs = some rs)
      (hi : rs[i]? = some ⟨versionRead, none⟩) :
      TmEndMove t (.validate wv i) (.op .tau) (.ending t (.validate wv (i + 1)))
  | validateFailed {wv} {i : Nat} {rs versionRead w} (hrs : t.rs = some rs)
      (hi : rs[i]? = some ⟨versionRead, some w⟩) (hvalid : tm.valid w = true)
      (hread : vlReadVersion (tm.lock w) = -1 ∨ t.rv < vlReadVersion (tm.lock w)) :
      TmEndMove t (.validate wv i) (.op (.loadLock w (tm.lock w))) (.ending t (.undo wv 0))
  | validate {wv} {i : Nat} {rs versionRead w} (hrs : t.rs = some rs)
      (hi : rs[i]? = some ⟨versionRead, some w⟩) (hvalid : tm.valid w = true)
      (hfree : vlReadVersion (tm.lock w) ≠ -1) (hold : vlReadVersion (tm.lock w) ≤ t.rv) :
      TmEndMove t (.validate wv i) (.op (.loadLock w (tm.lock w)))
        (.ending t (.validate wv (i + 1)))
  | undo {wv} {j : Nat} {item} (hj : t.ws[j]? = some item)
      (hvalid : tm.valid item.versionedLock = true) :
      TmEndMove t (.undo wv j) (.op (.fetchSubLock item.versionedLock))
        (.ending t (.undo wv (j + 1)))
  | undone {wv} {j : Nat} (hj : t.ws[j]? = none) :
      TmEndMove t (.undo wv j) (.op .tau) (.aborting t (.finish false))
  | commit {wv} : TmEndMove t (.validated wv) (.op (.commit wv t.writes)) (.ending t (.copy wv 0))
  | copy {wv} {i : Nat} {item} (hi : t.ws[i]? = some item) (hvalid : tm.valid item.rawAddr = true) :
      TmEndMove t (.copy wv i) (.op (.copyIn item.rawAddr item.value)) (.ending t (.release wv i))
  | copied {wv} {i : Nat} (hi : t.ws[i]? = none) :
      TmEndMove t (.copy wv i) (.op .tau)
        (.ending t (if t.toFree.isEmpty then .unlockCleanup else .lockToFree))
  | release {wv} {i : Nat} {item} (hi : t.ws[i]? = some item)
      (hvalid : tm.valid item.versionedLock = true) :
      TmEndMove t (.release wv i) (.op (.storeLock item.versionedLock (vlUnlockUpdate wv)))
        (.ending t (.copy wv (i + 1)))
  | lockToFree (hfree : tm.toFreeLock = false) :
      TmEndMove t .lockToFree (.op .lockToFree) (.ending t (.push 0))
  | push {i : Nat} {spot capacity} (hi : t.toFree[i]? = some spot)
      (hcapacity : capacity = tm.toFreeSz ∧ (tm.toFree.length : Int) + 1 < tm.toFreeSz ∨
        capacity = resize tm.toFreeSz ∧ tm.toFreeSz ≤ (tm.toFree.length : Int) + 1)
      (hroom : (tm.toFree.length : Int) < capacity) :
      TmEndMove t (.push i) (.op (.pushToFree spot capacity)) (.ending t (.push (i + 1)))
  | pushed {i : Nat} (hi : t.toFree[i]? = none) :
      TmEndMove t (.push i) (.op .unlockToFree) (.ending t .unlockCleanup)
  | unlockCleanup : TmEndMove t .unlockCleanup (.op .rdunlock) (.ending t .checkBatch)
  | batch (hbatch : freeBatchsize ≤ tm.toFree.length) :
      TmEndMove t .checkBatch (.op .loadToFreeN) (.ending t .wrlock)
  | noBatch (hbatch : ¬ freeBatchsize ≤ tm.toFree.length) :
      TmEndMove t .checkBatch (.op .loadToFreeN) (.returning (.finish true) none)
  | wrlock (hwriter : tm.writer = false) (hreaders : tm.readers = 0) :
      TmEndMove t .wrlock (.op .wrlock) (.ending t (.drain 0))
  | drainNull {i : Nat} {spot : Int} (hi : tm.toFree[i]? = some spot) (hspot : 0 ≤ spot)
      (hnull : tm.vaArr spot.toNat = .null) :
      TmEndMove t (.drain i) (.op (.deleteSegment spot)) (.ending t (.drain (i + 1)))
  | drain {i : Nat} {spot : Int} {s g} (hi : tm.toFree[i]? = some spot) (hspot : 0 ≤ spot)
      (hseg : tm.vaArr spot.toNat = .segment s) (hg : tm.segment s = some g)
      (hready : g.state = .ready) :
      TmEndMove t (.drain i) (.op (.deleteSegment spot)) (.ending t (.drain (i + 1)))
  | drained {i : Nat} (hi : tm.toFree[i]? = none) :
      TmEndMove t (.drain i) (.op .resetToFree) (.ending t .wrunlock)
  | wrunlock : TmEndMove t .wrunlock (.op .wrunlock) (.returning (.finish true) none)

inductive TmAllocMove (t : Tx V) (size : Nat) : AllocPc → Event V → Thread V → Prop where
  | lock (hfree : tm.virtualMemoryLock = false) :
      TmAllocMove t size .lock (.op .lockVirtualMemory) (.allocating t size .check)
  | empty (hempty : tm.emptySpots = none) :
      TmAllocMove t size .check (.op .loadEmptySpots) (.allocating t size .counter)
  | nonempty (hempty : tm.emptySpots ≠ none) :
      TmAllocMove t size .check (.op .loadEmptySpots) (.allocating t size .popIndex)
  | popIndex {n spot} (hhead : tm.emptySpots = some n) (hn : tm.node n = some spot) :
      TmAllocMove t size .popIndex (.op .loadEmptySpots) (.allocating t size (.popTmp spot.index))
  | popTmp {spot n} (hhead : tm.emptySpots = some n) :
      TmAllocMove t size (.popTmp spot) (.op .loadEmptySpots) (.allocating t size (.popNext spot n))
  | popNext {spot tmp n head} (hhead : tm.emptySpots = some n) (hn : tm.node n = some head) :
      TmAllocMove t size (.popNext spot tmp) (.op .loadEmptySpots)
        (.allocating t size (.popStore spot tmp head.next))
  | popStore {spot tmp next} :
      TmAllocMove t size (.popStore spot tmp next) (.op (.storeEmptySpots next))
        (.allocating t size (.popFree spot tmp))
  | popFree {spot tmp} (hn : tm.node tmp ≠ none) :
      TmAllocMove t size (.popFree spot tmp) (.op (.freeNode tmp))
        (.allocating t size (.unlock spot))
  | counter : TmAllocMove t size .counter (.op .nextSpot) (.allocating t size (.unlock tm.vaN))
  | unlock {spot} : TmAllocMove t size (.unlock spot) (.op .unlockVirtualMemory)
      (.allocating t size (.initStruct spot))
  | initStruct {spot} (hspot : spot < vaSize) (hmalloc : choice.mallocOk 0 = true) :
      TmAllocMove t size (.initStruct spot) (.op (.newSegment spot))
        (.allocating t size (.initData spot tm.segmentCount))
  | noStruct {spot} (hspot : spot < vaSize) (hmalloc : choice.mallocOk 0 = false)
      (hdata : posixMemalign tm.align (choice.mallocOk 1) = false) :
      TmAllocMove t size (.initStruct spot) (.op (.noSegment spot))
        (.allocating t size (.pushNode spot))
  | initData {spot s} (hmalloc : posixMemalign tm.align (choice.mallocOk 0) = true) :
      TmAllocMove t size (.initData spot s) (.op (.fillSegment s (toInt (size / tm.align : Nat))))
        (.allocating t size (.initLocks spot s))
  | noData {spot s} (hmalloc : posixMemalign tm.align (choice.mallocOk 0) = false) :
      TmAllocMove t size (.initData spot s) (.op (.failData s))
        (.allocating t size (.pushNode spot))
  | initLocks {spot s}
      (hmalloc : mallocLocks (toInt (size / tm.align : Nat)) (choice.mallocOk 0) = true) :
      TmAllocMove t size (.initLocks spot s) (.op (.readySegment s size))
        (.returning (.alloc (.success (vaFromIndex spot 0))) (some t))
  | noLocks {spot s}
      (hmalloc : mallocLocks (toInt (size / tm.align : Nat)) (choice.mallocOk 0) = false) :
      TmAllocMove t size (.initLocks spot s) (.op (.failLocks s))
        (.allocating t size (.pushNode spot))
  | pushNode {spot} (hmalloc : choice.mallocOk 0 = true) :
      TmAllocMove t size (.pushNode spot) (.op (.newNode ⟨tm.emptySpots, spot⟩))
        (.allocating t size (.pushStore spot tm.nodeCount))
  | pushStore {spot n} : TmAllocMove t size (.pushStore spot n) (.op (.storeEmptySpots (some n)))
      (.returning (.alloc .nomem) (some t))

inductive TmFreeMove (t : Tx V) (target : Addr) : Event V → Thread V → Prop where
  | first (hspot : toInt (indexFromVa target).toNat = 0) :
      TmFreeMove t target (.op .tau) (.aborting t (.free false))
  | queued (hspot : toInt (indexFromVa target).toNat ≠ 0) :
      TmFreeMove t target (.op .tau) (.returning (.free true)
        (some { t with toFree := t.toFree ++ [toInt (indexFromVa target).toNat] }))

inductive CallMove (t : Tx V) : Event V → Thread V → Prop where
  | roRead {source size s c} (hrange : tm.range source size = some s) (hro : t.isRo = true)
      (hcall : roTransactionReadCall tm s source size = some c) :
      CallMove t (.call (.read source size)) (.roReading t c (.pre 0 []))
  | read {source size s c} (hrange : tm.range source size = some s) (hrw : t.isRo = false)
      (hcall : tmReadCall tm s source size = some c) :
      CallMove t (.call (.read source size)) (.reading t c (.word 0 []))
  | write {source size target s} (hrange : tm.range target size = some s) (hrw : t.isRo = false)
      (hlength : source.length = size / tm.align) :
      CallMove t (.call (.write source size target))
        (.writing t (tmWriteCall tm s source size target) 0)
  | alloc {size} (hpos : 0 < size) (hsize : size < 2 ^ 64) (halign : tm.align ∣ size) :
      CallMove t (.call (.alloc size)) (.allocating t size .lock)
  | free {target} (hrw : t.isRo = false) : CallMove t (.call (.free target)) (.freeing t target)
  | finish : CallMove t (.call .finish) (.ending t .start)

inductive ThreadMove : Thread V → Event V → Thread V → Prop where
  | start {isRo} : ThreadMove .idle (.call (.begin isRo)) (.beginning isRo .rdlock)
  | call {t event thread'} (h : CallMove tm t event thread') : ThreadMove (.live t) event thread'
  | begin {isRo pc event thread'} (h : TmBeginMove tm choice isRo pc event thread') :
      ThreadMove (.beginning isRo pc) event thread'
  | read {t c pc event thread'} (h : TmReadMove platform tm choice t c pc event thread') :
      ThreadMove (.reading t c pc) event thread'
  | roRead {t c pc event thread'} (h : RoReadMove tm choice t c pc event thread') :
      ThreadMove (.roReading t c pc) event thread'
  | write {t c i event thread'} (h : TmWriteMove platform tm choice t c i event thread') :
      ThreadMove (.writing t c i) event thread'
  | alloc {t size pc event thread'} (h : TmAllocMove tm choice t size pc event thread') :
      ThreadMove (.allocating t size pc) event thread'
  | free {t target event thread'} (h : TmFreeMove t target event thread') :
      ThreadMove (.freeing t target) event thread'
  | finish {t pc event thread'} (h : TmEndMove platform tm t pc event thread') :
      ThreadMove (.ending t pc) event thread'
  | cleanup {t r} : ThreadMove (.aborting t r) (.op .rdunlock) (.returning r none)
  | retIdle {r} : ThreadMove (.returning r none) (.ret r) .idle
  | retLive {r t} : ThreadMove (.returning r (some t)) (.ret r) (.live t)

variable {platform tm choice} {event : Event V} {thread thread' : Thread V}

theorem tmBeginStep_move [Zero V] {isRo : Bool} {pc : BeginPc}
    (h : tmBeginStep tm choice isRo pc = .next (event, thread')) :
    TmBeginMove tm choice isRo pc event thread' := by
  cases pc with
  | rdlock =>
      simp only [tmBeginStep] at h
      split at h
      · cases h
      · rename_i hwriter
        rw [Move.op_eq_next] at h
        obtain ⟨rfl, rfl⟩ := h
        exact .rdlock (by simpa using hwriter)
  | body =>
      simp only [tmBeginStep] at h
      split at h
      · rename_i hmalloc
        rw [Move.op_eq_next] at h
        obtain ⟨rfl, rfl⟩ := h
        exact .noStruct (by simpa using hmalloc)
      · rename_i hstruct
        split at h <;> rename_i hmalloc <;> rw [Move.op_eq_next] at h <;> obtain ⟨rfl, rfl⟩ := h
        · exact .noSets (by simpa using hmalloc)
        · simp only [Bool.or_eq_true, Bool.and_eq_true, Bool.not_eq_true', not_or, not_and,
            Bool.not_eq_false] at hstruct hmalloc
          refine .started hstruct hmalloc.1 ?_
          by_cases hro : isRo = true
          · exact Or.inl hro
          · exact Or.inr (hmalloc.2 (by simpa using hro))

namespace TmEndMove

variable {t : Tx V}

theorem of_start (h : tmEndStep platform tm choice t .start = .next (event, thread')) :
    TmEndMove platform tm t .start event thread' := by
  simp only [tmEndStep] at h
  split at h <;> rename_i hempty <;> rw [Move.op_eq_next] at h <;> obtain ⟨rfl, rfl⟩ := h
  · exact .early (by simpa using hempty)
  · simp only [Bool.or_eq_true, List.isEmpty_iff, not_or, Bool.not_eq_true] at hempty
    exact .sort hempty.1 hempty.2

theorem of_tryLoad {i : Nat}
    (h : tmEndStep platform tm choice t (.tryLoad i) = .next (event, thread')) :
    TmEndMove platform tm t (.tryLoad i) event thread' := by
  simp only [tmEndStep] at h
  split at h
  · rw [Move.op_eq_next] at h
    obtain ⟨rfl, rfl⟩ := h
    exact .locked ‹_›
  · rename_i item hi
    split at h
    · rename_i hvalid
      split at h <;> rename_i hrefuse <;> rw [Move.op_eq_next] at h <;> obtain ⟨rfl, rfl⟩ := h
      · exact .refused hi hvalid hrefuse
      · exact .tryLoad hi hvalid (by simpa using hrefuse)
    · cases h

theorem of_tryCas {i : Nat} {prev : Int}
    (h : tmEndStep platform tm choice t (.tryCas i prev) = .next (event, thread')) :
    TmEndMove platform tm t (.tryCas i prev) event thread' := by
  simp only [tmEndStep] at h
  split at h
  · cases h
  · rename_i item hi
    split at h
    · rename_i hvalid
      split at h <;> rename_i hsame <;> rw [Move.op_eq_next] at h <;> obtain ⟨rfl, rfl⟩ := h
      · exact .cas hi hvalid hsame
      · exact .casLost hi hvalid hsame
    · cases h

theorem of_rollback {i j : Nat}
    (h : tmEndStep platform tm choice t (.rollback i j) = .next (event, thread')) :
    TmEndMove platform tm t (.rollback i j) event thread' := by
  simp only [tmEndStep] at h
  split at h
  · rename_i hij
    split at h
    · cases h
    · rename_i item hj
      split at h
      · rename_i hvalid
        rw [Move.op_eq_next] at h
        obtain ⟨rfl, rfl⟩ := h
        exact .rollback hij hj hvalid
      · cases h
  · rw [Move.op_eq_next] at h
    obtain ⟨rfl, rfl⟩ := h
    exact .rolledBack ‹_›

theorem of_fetchAdd (h : tmEndStep platform tm choice t .fetchAdd = .next (event, thread')) :
    TmEndMove platform tm t .fetchAdd event thread' := by
  simp only [tmEndStep] at h
  split at h
  · cases h
  · rename_i wv hwv
    split at h <;> rename_i hskip <;> rw [Move.op_eq_next] at h <;> obtain ⟨rfl, rfl⟩ := h
    · exact .fetchAddSkip hwv hskip
    · exact .fetchAdd hwv hskip

theorem of_validate {wv : Int} {i : Nat}
    (h : tmEndStep platform tm choice t (.validate wv i) = .next (event, thread')) :
    TmEndMove platform tm t (.validate wv i) event thread' := by
  simp only [tmEndStep] at h
  split at h
  · cases h
  · rename_i rs hrs
    split at h
    · rw [Move.op_eq_next] at h
      obtain ⟨rfl, rfl⟩ := h
      exact .validateDone hrs ‹_›
    · rw [Move.op_eq_next] at h
      obtain ⟨rfl, rfl⟩ := h
      exact .validateErased hrs ‹_›
    · rename_i versionRead w hi
      split at h
      · rename_i hvalid
        split at h <;> rename_i hread <;> rw [Move.op_eq_next] at h <;> obtain ⟨rfl, rfl⟩ := h
        · exact .validateFailed hrs hi hvalid hread
        · rw [not_or, not_lt] at hread
          exact .validate hrs hi hvalid hread.1 hread.2
      · cases h

theorem of_undo {wv : Int} {j : Nat}
    (h : tmEndStep platform tm choice t (.undo wv j) = .next (event, thread')) :
    TmEndMove platform tm t (.undo wv j) event thread' := by
  simp only [tmEndStep] at h
  split at h
  · rw [Move.op_eq_next] at h
    obtain ⟨rfl, rfl⟩ := h
    exact .undone ‹_›
  · rename_i item hj
    split at h
    · rename_i hvalid
      rw [Move.op_eq_next] at h
      obtain ⟨rfl, rfl⟩ := h
      exact .undo hj hvalid
    · cases h

theorem of_copy {wv : Int} {i : Nat}
    (h : tmEndStep platform tm choice t (.copy wv i) = .next (event, thread')) :
    TmEndMove platform tm t (.copy wv i) event thread' := by
  simp only [tmEndStep] at h
  split at h
  · rw [Move.op_eq_next] at h
    obtain ⟨rfl, rfl⟩ := h
    exact .copied ‹_›
  · rename_i item hi
    split at h
    · rename_i hvalid
      rw [Move.op_eq_next] at h
      obtain ⟨rfl, rfl⟩ := h
      exact .copy hi hvalid
    · cases h

theorem of_release {wv : Int} {i : Nat}
    (h : tmEndStep platform tm choice t (.release wv i) = .next (event, thread')) :
    TmEndMove platform tm t (.release wv i) event thread' := by
  simp only [tmEndStep] at h
  split at h
  · cases h
  · rename_i item hi
    split at h
    · rename_i hvalid
      rw [Move.op_eq_next] at h
      obtain ⟨rfl, rfl⟩ := h
      exact .release hi hvalid
    · cases h

theorem of_push {i : Nat} (h : tmEndStep platform tm choice t (.push i) = .next (event, thread')) :
    TmEndMove platform tm t (.push i) event thread' := by
  simp only [tmEndStep] at h
  split at h
  · rw [Move.op_eq_next] at h
    obtain ⟨rfl, rfl⟩ := h
    exact .pushed ‹_›
  · rename_i spot hi
    by_cases hfull : tm.toFreeSz ≤ (tm.toFree.length : Int) + 1
    · simp only [hfull, decide_true, if_true] at h
      split at h
      · cases h
      · split at h
        · cases h
        · split at h
          · rename_i hroom
            rw [Move.op_eq_next] at h
            obtain ⟨rfl, rfl⟩ := h
            exact .push hi (Or.inr ⟨rfl, hfull⟩) hroom
          · cases h
    · simp only [hfull, decide_false, Bool.false_and, Bool.not_false, Bool.and_true] at h
      split at h
      · contradiction
      · split at h
        · cases h
        · split at h
          · rename_i hroom
            rw [Move.op_eq_next] at h
            obtain ⟨rfl, rfl⟩ := h
            exact .push hi (Or.inl ⟨rfl, not_le.mp hfull⟩) hroom
          · cases h

theorem of_drain {i : Nat}
    (h : tmEndStep platform tm choice t (.drain i) = .next (event, thread')) :
    TmEndMove platform tm t (.drain i) event thread' := by
  simp only [tmEndStep] at h
  split at h
  · rw [Move.op_eq_next] at h
    obtain ⟨rfl, rfl⟩ := h
    exact .drained ‹_›
  · rename_i spot hi
    split at h
    · cases h
    · rename_i hspot
      split at h
      · cases h
      · rw [Move.op_eq_next] at h
        obtain ⟨rfl, rfl⟩ := h
        exact .drainNull hi (not_lt.mp hspot) ‹_›
      · rename_i s hseg
        split at h
        · rename_i hg
          split at h
          · rw [Move.op_eq_next] at h
            obtain ⟨rfl, rfl⟩ := h
            exact .drain hi (not_lt.mp hspot) hseg hg rfl
          · cases h
        · cases h

end TmEndMove

theorem tmEndStep_move {t : Tx V} {pc : EndPc}
    (h : tmEndStep platform tm choice t pc = .next (event, thread')) :
    TmEndMove platform tm t pc event thread' := by
  cases pc with
  | start => exact .of_start h
  | tryLoad i => exact .of_tryLoad h
  | tryCas i prev => exact .of_tryCas h
  | rollback i j => exact .of_rollback h
  | fetchAdd => exact .of_fetchAdd h
  | validate wv i => exact .of_validate h
  | undo wv j => exact .of_undo h
  | validated wv =>
      simp only [tmEndStep, Move.op_eq_next] at h
      obtain ⟨rfl, rfl⟩ := h
      exact .commit
  | copy wv i => exact .of_copy h
  | release wv i => exact .of_release h
  | lockToFree =>
      simp only [tmEndStep] at h
      split at h
      · cases h
      · rename_i hfree
        rw [Move.op_eq_next] at h
        obtain ⟨rfl, rfl⟩ := h
        exact .lockToFree (by simpa using hfree)
  | push i => exact .of_push h
  | unlockCleanup =>
      simp only [tmEndStep, Move.op_eq_next] at h
      obtain ⟨rfl, rfl⟩ := h
      exact .unlockCleanup
  | checkBatch =>
      simp only [tmEndStep] at h
      split at h <;> rename_i hbatch <;> rw [Move.op_eq_next] at h <;> obtain ⟨rfl, rfl⟩ := h
      · exact .batch hbatch
      · exact .noBatch hbatch
  | wrlock =>
      simp only [tmEndStep] at h
      split at h
      · cases h
      · rename_i hheld
        rw [Move.op_eq_next] at h
        obtain ⟨rfl, rfl⟩ := h
        simp only [ne_eq, decide_not, Bool.or_eq_true, Bool.not_eq_eq_eq_not, Bool.not_true,
          decide_eq_false_iff_not, not_or, Bool.not_eq_true, not_not] at hheld
        exact .wrlock hheld.1 hheld.2
  | drain i => exact .of_drain h
  | wrunlock =>
      simp only [tmEndStep, Move.op_eq_next] at h
      obtain ⟨rfl, rfl⟩ := h
      exact .wrunlock

theorem headSpot_eq_some {spot : EmptySpot} (h : headSpot tm = some spot) :
    ∃ n, tm.emptySpots = some n ∧ tm.node n = some spot :=
  Option.bind_eq_some_iff.mp h

theorem tmAllocStep_move [Zero V] {t : Tx V} {size : Nat} {pc : AllocPc}
    (h : tmAllocStep tm choice t size pc = .next (event, thread')) :
    TmAllocMove tm choice t size pc event thread' := by
  cases pc with
  | lock =>
      simp only [tmAllocStep] at h
      split at h
      · cases h
      · rename_i hfree
        rw [Move.op_eq_next] at h
        obtain ⟨rfl, rfl⟩ := h
        exact .lock (by simpa using hfree)
  | check =>
      simp only [tmAllocStep] at h
      split at h <;> rename_i hempty <;> rw [Move.op_eq_next] at h <;> obtain ⟨rfl, rfl⟩ := h
      · exact .empty hempty
      · exact .nonempty hempty
  | popIndex =>
      simp only [tmAllocStep] at h
      split at h
      · cases h
      · rename_i spot hspot
        obtain ⟨n, hhead, hn⟩ := headSpot_eq_some hspot
        rw [Move.op_eq_next] at h
        obtain ⟨rfl, rfl⟩ := h
        exact .popIndex hhead hn
  | popTmp spot =>
      simp only [tmAllocStep] at h
      split at h
      · cases h
      · rename_i tmp hhead
        rw [Move.op_eq_next] at h
        obtain ⟨rfl, rfl⟩ := h
        exact .popTmp hhead
  | popNext spot tmp =>
      simp only [tmAllocStep] at h
      split at h
      · cases h
      · rename_i head hspot
        obtain ⟨n, hhead, hn⟩ := headSpot_eq_some hspot
        rw [Move.op_eq_next] at h
        obtain ⟨rfl, rfl⟩ := h
        exact .popNext hhead hn
  | popStore spot tmp next =>
      simp only [tmAllocStep, Move.op_eq_next] at h
      obtain ⟨rfl, rfl⟩ := h
      exact .popStore
  | popFree spot tmp =>
      simp only [tmAllocStep] at h
      split at h
      · cases h
      · rw [Move.op_eq_next] at h
        obtain ⟨rfl, rfl⟩ := h
        exact .popFree ‹_›
  | counter =>
      simp only [tmAllocStep, Move.op_eq_next] at h
      obtain ⟨rfl, rfl⟩ := h
      exact .counter
  | unlock spot =>
      simp only [tmAllocStep, Move.op_eq_next] at h
      obtain ⟨rfl, rfl⟩ := h
      exact .unlock
  | initStruct spot =>
      simp only [tmAllocStep] at h
      by_cases hspot : spot < vaSize
      · rw [if_pos hspot] at h
        cases hmalloc : choice.mallocOk 0 with
        | true =>
            rw [if_pos hmalloc, Move.op_eq_next] at h
            obtain ⟨rfl, rfl⟩ := h
            exact .initStruct hspot hmalloc
        | false =>
            rw [if_neg (by simp [hmalloc])] at h
            cases hdata : posixMemalign tm.align (choice.mallocOk 1) with
            | true => simp [hdata] at h
            | false =>
                rw [if_neg (by simp [hdata]), Move.op_eq_next] at h
                obtain ⟨rfl, rfl⟩ := h
                exact .noStruct hspot hmalloc hdata
      · rw [if_neg hspot] at h
        cases h
  | initData spot s =>
      simp only [tmAllocStep] at h
      split at h <;> rename_i hmalloc <;> rw [Move.op_eq_next] at h <;> obtain ⟨rfl, rfl⟩ := h
      · exact .initData hmalloc
      · exact .noData (by simpa using hmalloc)
  | initLocks spot s =>
      simp only [tmAllocStep] at h
      split at h <;> rename_i hmalloc <;> rw [Move.op_eq_next] at h <;> obtain ⟨rfl, rfl⟩ := h
      · exact .initLocks hmalloc
      · exact .noLocks (by simpa using hmalloc)
  | pushNode spot =>
      simp only [tmAllocStep] at h
      split at h
      · rw [Move.op_eq_next] at h
        obtain ⟨rfl, rfl⟩ := h
        exact .pushNode ‹_›
      · cases h
  | pushStore spot n =>
      simp only [tmAllocStep, Move.op_eq_next] at h
      obtain ⟨rfl, rfl⟩ := h
      exact .pushStore

theorem tmFreeStep_move [Zero V] {t : Tx V} {target : Addr}
    (h : tmFreeStep choice t target = .next (event, thread')) :
    TmFreeMove t target event thread' := by
  simp only [tmFreeStep] at h
  split at h
  · rw [Move.op_eq_next] at h
    obtain ⟨rfl, rfl⟩ := h
    exact .first ‹_›
  · split at h
    · rw [Move.op_eq_next] at h
      obtain ⟨rfl, rfl⟩ := h
      exact .queued ‹_›
    · cases h

theorem callStep_move [Zero V] {t : Tx V} {call : Call V}
    (h : callStep tm t call = .next (event, thread')) : CallMove tm t event thread' := by
  cases call with
  | begin isRo => cases h
  | read source size =>
      simp only [callStep] at h
      split at h
      · cases h
      · rename_i s hrange
        split at h
        · rename_i hro
          split at h
          · cases h
          · rename_i c hcall
            cases h
            exact .roRead hrange hro hcall
        · rename_i hrw
          split at h
          · cases h
          · rename_i c hcall
            cases h
            exact .read hrange (by simpa using hrw) hcall
  | write source size target =>
      simp only [callStep] at h
      split at h
      · cases h
      · rename_i s hrange
        split at h
        · cases h
        · rename_i hcontract
          rw [not_or, not_not] at hcontract
          cases h
          exact .write hrange (by simpa using hcontract.1) hcontract.2
  | alloc size =>
      simp only [callStep] at h
      split at h
      · rename_i hsize
        cases h
        exact .alloc hsize.1 hsize.2.1 hsize.2.2
      · cases h
  | free target =>
      simp only [callStep] at h
      split at h
      · cases h
      · rename_i hrw
        cases h
        exact .free (by simpa using hrw)
  | finish =>
      cases h
      exact .finish

theorem Thread.step_move [Zero V] (h : thread.step platform tm choice = .next (event, thread')) :
    ThreadMove platform tm choice thread event thread' := by
  cases thread with
  | idle =>
      simp only [Thread.step] at h
      split at h
      · cases h
        exact .start
      · cases h
  | live t =>
      simp only [Thread.step] at h
      split at h
      · exact .call (callStep_move h)
      · cases h
  | beginning isRo pc => exact .begin (tmBeginStep_move h)
  | reading t c pc => exact .read (tmReadStep_move h)
  | roReading t c pc => exact .roRead (roTransactionReadStep_move h)
  | writing t c i => exact .write (tmWriteStep_move h)
  | allocating t size pc => exact .alloc (tmAllocStep_move h)
  | freeing t target =>
      rw [Thread.step] at h
      exact .free (tmFreeStep_move h)
  | ending t pc => exact .finish (tmEndStep_move h)
  | aborting t r =>
      simp only [Thread.step, transactionCleanupStep, Move.op_eq_next] at h
      obtain ⟨rfl, rfl⟩ := h
      exact .cleanup
  | returning r t =>
      cases t with
      | none =>
          cases h
          exact .retIdle
      | some t =>
          cases h
          exact .retLive

/-- A thread that returns is outside its call, with the transaction it returned with. -/
theorem ThreadMove.of_ret {r : Ret V}
    (h : ThreadMove platform tm choice thread event thread') (hevent : event = .ret r) :
    (∃ t, thread = .returning r (some t) ∧ thread' = .live t) ∨
      thread = .returning r none ∧ thread' = .idle := by
  cases h with
  | retIdle =>
      cases hevent
      exact Or.inr ⟨rfl, rfl⟩
  | retLive =>
      cases hevent
      exact Or.inl ⟨_, rfl, rfl⟩
  | call h | begin h | read h | roRead h | write h | alloc h | free h | finish h =>
      cases h <;> cases hevent
  | start | cleanup => cases hevent

/-- What the mover keeps of itself, every thread keeps. -/
theorem thread_keep {Tid : Type} {α : Sort*} {s s' : State Tid V} {tid : Tid} {f : Thread V → α}
    (hother : ∀ tid', tid' ≠ tid → s'.thread tid' = s.thread tid')
    (hf : f (s'.thread tid) = f (s.thread tid)) (tid' : Tid) :
    f (s'.thread tid') = f (s.thread tid') := by
  by_cases heq : tid' = tid
  · rw [heq, hf]
  · rw [hother tid' heq]

/-- One step of the system is a move of one thread. -/
theorem system_step_move [Zero V] {Tid : Type} [DecidableEq Tid] {s s' : State Tid V}
    {l : Label Tid V} (h : (system Tid platform).step s l s') :
    ThreadMove platform s.tm l.choice (s.thread l.tid) l.event (s'.thread l.tid) ∧
      s'.tm = s.tm.after l.event ∧ ∀ tid, tid ≠ l.tid → s'.thread tid = s.thread tid := by
  simp only [system, State.step] at h
  split at h
  · rename_i event thread' hstep
    simp only [Outcome.next.injEq, Prod.mk.injEq] at h
    obtain ⟨rfl, rfl⟩ := h
    refine ⟨?_, rfl, fun tid hne => Function.update_of_ne hne _ _⟩
    simp only [Function.update_self]
    exact Thread.step_move hstep
  · cases h
  · cases h

/-- **The rule for threads.** What every move of a thread keeps holds of every thread in every
run. -/
theorem thread_invariant [Zero V] {Tid : Type} [DecidableEq Tid] {s : State Tid V}
    {P : Thread V → Prop} (hidle : P .idle)
    (hmove : ∀ tm choice thread event thread',
      ThreadMove platform tm choice thread event thread' → P thread → P thread')
    (h : (system Tid platform).Reachable s) : ∀ tid, P (s.thread tid) := by
  refine h.invariant (P := fun s => ∀ tid, P (s.thread tid)) (fun s hs tid => ?_)
    fun s l s' _ ih hstep tid => ?_
  · rw [hs.1 tid]
    exact hidle
  · obtain ⟨hthread, -, hother⟩ := system_step_move hstep
    by_cases heq : tid = l.tid
    · rw [heq]
      exact hmove _ _ _ _ _ hthread (ih l.tid)
    · rw [hother tid heq]
      exact ih tid

def Tm.created [Zero V] (toFreeOk : Bool) (size align : Nat) : Tm V :=
  { Tm.bare align toFreeOk with
    vaArr := Function.update (fun _ => .garbage) 0 (.segment 0)
    vaN := 1
    segment := Function.update (fun _ => none) 0 (some ⟨size, toInt (size / align : Nat), .ready⟩)
    segmentCount := 1 }

theorem tmCreate_eq [Zero V] {choice : Choice V} {size align : Nat} {tm : Tm V}
    (h : tmCreate choice size align = .next (some tm)) :
    8 ∣ align ∧ 0 ≤ toInt (size / align : Nat) ∧
      tm = Tm.created (choice.mallocOk 2) size align := by
  unfold tmCreate at h
  split at h
  · cases h
  · split at h
    · cases h
    · split at h
      · split at h <;> cases h
      · by_cases halign : posixMemalign align (choice.mallocOk 4) = true
        · by_cases hlocks : mallocLocks (toInt (size / align : Nat)) (choice.mallocOk 5) = true
          · simp only [halign, hlocks, Bool.not_true, Bool.false_eq_true, if_false,
              Outcome.next.injEq, Option.some.injEq] at h
            simp only [posixMemalign, mallocLocks, Bool.and_eq_true, decide_eq_true_eq]
              at halign hlocks
            refine ⟨halign.2, hlocks.2, ?_⟩
            rw [← h]
            simp [Tm.apply, Tm.setSegment, Tm.bare, Tm.created, vlInit]
          · rw [Bool.not_eq_true] at hlocks
            simp only [halign, hlocks, Bool.not_true, Bool.not_false, Bool.false_eq_true, if_true,
              if_false] at h
            cases h
        · simp [halign] at h

end TransactionalMemory
